import CoLang.Doc
import Mathlib.Data.List.TakeWhile
/-!
# The grammar of process notes

Whether a comment marks a process step is decided by the first word of its first line, and its note
is cut out of that line behind the blanks and the marker. Both are compared here with one grammar: a
marked line consists of blanks, the marker, and a rest that is empty or begins with a blank
(`Doc.Marks`). The word and the cut agree with it on every line, so the cut is always inside the
line and never inside a character (`Doc.processNote?_iff_marks`).
-/

namespace CoLang

/-! ## Blanks -/

namespace Text

variable {cs core w word rest : List Char}

/-- Nothing but blanks. -/
def Blank (cs : List Char) : Prop :=
  ∀ c ∈ cs, isBlank c = true

/-- The text begins with a character that is not blank, unless it is empty. -/
def Flush (cs : List Char) : Prop :=
  ∀ c, cs.head? = some c → isBlank c = false

/-- What is left of a text without the blanks around it: between blanks, with none at either end. -/
structure Trims (cs core : List Char) : Prop where
  around : ∃ front back, cs = front ++ core ++ back ∧ Blank front ∧ Blank back
  front : Flush core
  back : Flush core.reverse

theorem flush_trimFront (cs : List Char) : Flush (trimFront cs) := by
  intro c hc
  have hhead := List.head?_dropWhile_not isBlank cs
  rw [show (cs.dropWhile isBlank).head? = some c from hc] at hhead
  exact hhead

theorem Flush.trimFront_eq (h : Flush cs) : trimFront cs = cs := by
  cases cs with
  | nil => rfl
  | cons c cs => exact List.dropWhile_cons_of_neg (by simp [h c rfl])

theorem trimFront_append (hw : Blank w) (cs : List Char) : trimFront (w ++ cs) = trimFront cs :=
  List.dropWhile_append_of_pos hw

theorem Flush.append (h : Flush word) (hne : word ≠ []) (rest : List Char) :
    Flush (word ++ rest) := by
  obtain ⟨first, tail, rfl⟩ := List.exists_cons_of_ne_nil hne
  exact h

theorem exists_blank_trimFront (cs : List Char) : ∃ w, Blank w ∧ cs = w ++ trimFront cs :=
  ⟨cs.takeWhile isBlank, fun _ => List.mem_takeWhile_imp, List.takeWhile_append_dropWhile.symm⟩

theorem trimBack_append (hw : Blank w) (cs : List Char) : trimBack (cs ++ w) = trimBack cs := by
  -- The end is trimmed as the front of the text read backwards.
  have hw' : Blank w.reverse := fun c hc => hw c (List.mem_reverse.1 hc)
  unfold trimBack
  rw [List.reverse_append]
  exact congrArg List.reverse (trimFront_append hw' cs.reverse)

theorem trimBack_eq (h : Flush cs.reverse) : trimBack cs = cs := by
  have hsame : cs.reverse.dropWhile isBlank = cs.reverse := h.trimFront_eq
  rw [trimBack, hsame, List.reverse_reverse]

theorem exists_blank_trimBack (cs : List Char) : ∃ w, Blank w ∧ cs = trimBack cs ++ w := by
  obtain ⟨w, hw, hcs⟩ := exists_blank_trimFront cs.reverse
  refine ⟨w.reverse, fun c hc => hw c (List.mem_reverse.1 hc), ?_⟩
  have hreverse := congrArg List.reverse hcs
  rwa [List.reverse_reverse, List.reverse_append] at hreverse

theorem trims_trim (cs : List Char) : Trims cs (trim cs) := by
  obtain ⟨front, hfront, hcs⟩ := exists_blank_trimFront cs
  obtain ⟨back, hback, hcore⟩ := exists_blank_trimBack (trimFront cs)
  refine ⟨⟨front, back, ?_, hfront, hback⟩, ?_, ?_⟩
  · rw [List.append_assoc, trim, ← hcore]
    exact hcs
  · -- The first character that is left was the first one already before the end was trimmed.
    intro c hc
    refine flush_trimFront cs c ?_
    rw [hcore, List.head?_append, show (trimBack (trimFront cs)).head? = some c from hc]
    rfl
  · rw [trim, trimBack, List.reverse_reverse]
    exact flush_trimFront _

theorem Trims.eq_trim (h : Trims cs core) : core = trim cs := by
  obtain ⟨⟨front, back, rfl, hfront, hback⟩, hflush, hflush'⟩ := h
  rw [trim, List.append_assoc, trimFront_append hfront]
  by_cases hne : core = []
  · subst hne
    have hnone : trimFront (back ++ []) = [] := trimFront_append hback []
    rw [List.append_nil] at hnone
    rw [List.nil_append, hnone]
    rfl
  · rw [(hflush.append hne back).trimFront_eq, trimBack_append hback, trimBack_eq hflush']

/-! ## The first word -/

/-- The text is empty or begins with a blank, so that it does not go on with a word before it. -/
def Parted (cs : List Char) : Prop :=
  cs = [] ∨ ∃ c, cs.head? = some c ∧ isBlank c = true

theorem Parted.takeWhile_eq_nil (h : Parted rest) : (rest.takeWhile fun c => !isBlank c) = [] := by
  rcases h with rfl | ⟨c, hc, hblank⟩
  · rfl
  · obtain ⟨tail, rfl⟩ := List.head?_eq_some_iff.1 hc
    exact List.takeWhile_cons_of_neg (by simp [hblank])

theorem parted_dropWhile (cs : List Char) : Parted (cs.dropWhile fun c => !isBlank c) := by
  have hhead := List.head?_dropWhile_not (fun c => !isBlank c) cs
  cases hrest : cs.dropWhile fun c => !isBlank c with
  | nil => exact .inl rfl
  | cons c tail =>
    rw [hrest] at hhead
    exact .inr ⟨c, rfl, by simpa using hhead⟩

section Word

variable (hne : word ≠ []) (hword : ∀ c ∈ word, isBlank c = false)

include hword in
theorem flush_word : Flush word := by
  intro c hc
  exact hword c (List.mem_of_head? hc)

include hne hword in
/-- A word behind blanks is where the trimmed text begins. -/
theorem trimFront_word (hw : Blank w) (rest : List Char) :
    trimFront (w ++ word ++ rest) = word ++ rest := by
  rw [List.append_assoc, trimFront_append hw]
  exact ((flush_word hword).append hne rest).trimFront_eq

include hne hword in
/-- **A text has a first word exactly if the word stands between blanks**, or ends the text. -/
theorem firstWord_eq_iff :
    firstWord cs = word ↔ ∃ w rest, cs = w ++ word ++ rest ∧ Blank w ∧ Parted rest := by
  constructor
  · intro h
    obtain ⟨w, hw, hcs⟩ := exists_blank_trimFront cs
    refine ⟨w, (trimFront cs).dropWhile fun c => !isBlank c, ?_, hw, parted_dropWhile _⟩
    rw [← h, firstWord, List.append_assoc, List.takeWhile_append_dropWhile]
    exact hcs
  · rintro ⟨w, rest, rfl, hw, hrest⟩
    have hall : ∀ c ∈ word, (!isBlank c) = true := fun c hc => by rw [hword c hc]; rfl
    rw [firstWord, trimFront_word hne hword hw, List.takeWhile_append_of_pos hall,
      hrest.takeWhile_eq_nil, List.append_nil]

end Word

end Text

/-! ## Marked lines -/

namespace Doc

variable {line t : String} {doc rest : Doc}

/-- The line consists of blanks, the marker and this text, which is empty or begins with a blank. -/
def Marks (line t : String) : Prop :=
  ∃ w, line = w ++ marker ++ t ∧ Text.Blank w.toList ∧ Text.Parted t.toList

theorem marker_ne_nil : marker.toList ≠ [] := by decide

theorem isBlank_of_mem_marker : ∀ c ∈ marker.toList, Text.isBlank c = false := by
  have hall : marker.toList.all (fun c => !Text.isBlank c) = true := by decide +kernel
  intro c hc
  simpa using List.all_eq_true.1 hall c hc

theorem isProcess_iff_marks : isProcess (line :: rest) = true ↔ ∃ t, Marks line t := by
  rw [isProcess, beq_iff_eq, Text.firstWord_eq_iff marker_ne_nil isBlank_of_mem_marker]
  constructor
  · rintro ⟨w, t, hline, hw, ht⟩
    refine ⟨.ofList t, .ofList w, ?_, ?_, ?_⟩
    · rw [← String.toList_inj, String.toList_append, String.toList_append, String.toList_ofList,
        String.toList_ofList]
      exact hline
    · rwa [String.toList_ofList]
    · rwa [String.toList_ofList]
  · rintro ⟨t, w, rfl, hw, ht⟩
    exact ⟨w.toList, t.toList, by rw [String.toList_append, String.toList_append], hw, ht⟩

/-- The line from its first character that is not blank, from which the note is cut. -/
def front (line : String) : String :=
  .ofList (Text.trimFront line.toList)

theorem Marks.front_eq (h : Marks line t) : front line = marker ++ t := by
  obtain ⟨w, rfl, hw, -⟩ := h
  rw [front, String.toList_append, String.toList_append,
    Text.trimFront_word marker_ne_nil isBlank_of_mem_marker hw, String.ofList_append,
    String.ofList_toList, String.ofList_toList]

theorem Marks.firstNote_eq (h : Marks line t) : firstNote line = .ofList (Text.trim t.toList) := by
  have hfront := congrArg String.toList h.front_eq
  rw [front, String.toList_ofList, String.toList_append] at hfront
  rw [firstNote, hfront, ← String.length_toList, List.drop_left]

/-- A text with a beginning can be cut at the byte where the beginning ends. -/
theorem exists_slice_of_append {s u : String} (h : s = u ++ t) :
    ∃ hvalid : u.rawEndPos.IsValid s, (s.sliceFrom (s.pos u.rawEndPos hvalid)).copy = t := by
  subst h
  refine ⟨String.Pos.Raw.isValid_rawEndPos.append_right t, ?_⟩
  exact String.Pos.Splits.copy_sliceFrom_eq ⟨rfl, rfl⟩

/-! ## Notes -/

theorem foldl_lines (rest : List String) (first : String) :
    rest.foldl (fun note line => note ++ "\n" ++ line) first =
      first ++ String.join (rest.map ("\n" ++ ·)) := by
  induction rest generalizing first with
  | nil => simp
  | cons line rest ih =>
    rw [List.foldl_cons, ih, List.map_cons, String.join_cons, String.append_assoc,
      String.append_assoc, String.append_assoc]

theorem isSome_processNote? (doc : Doc) : doc.processNote?.isSome = doc.isProcess := by
  unfold processNote?
  cases doc with
  | nil => rfl
  | cons line rest =>
    simp only
    split <;> simp [*]

theorem processNote?_of_marks (h : Marks line t) (rest : List String) :
    processNote? (line :: rest) =
      some (.ofList (Text.trim t.toList) ++ String.join (rest.map ("\n" ++ ·))) := by
  rw [processNote?, if_pos (isProcess_iff_marks.2 ⟨t, h⟩), foldl_lines, h.firstNote_eq]

theorem exists_marks_of_processNote? {n : String} (h : processNote? doc = some n) :
    ∃ line rest t, doc = line :: rest ∧ Marks line t := by
  have hmarked := isSome_processNote? doc
  rw [h] at hmarked
  cases doc with
  | nil => cases hmarked
  | cons line rest =>
    obtain ⟨t, ht⟩ := isProcess_iff_marks.1 hmarked.symm
    exact ⟨line, rest, t, rfl, ht⟩

/-- **A comment has a note exactly if its first line is marked.** The note is what follows the
marker without the blanks around it, and then each further line as it stands behind a line break.
The test for the marker agrees, and where it succeeds, the byte behind the marker is within the
trimmed line and at the boundary of a character, and the note is cut out of the line from there. -/
theorem processNote?_iff_marks (doc : Doc) :
    (∀ n, doc.processNote? = some n ↔
      ∃ line rest t core, doc = line :: rest ∧ Marks line t ∧
        Text.Trims t.toList core.toList ∧ n = core ++ String.join (rest.map ("\n" ++ ·))) ∧
    doc.isProcess = doc.processNote?.isSome ∧
    ∀ line rest, doc = line :: rest → doc.isProcess = true →
      ∃ t, Marks line t ∧ firstNote line = .ofList (Text.trim t.toList) ∧
        ∃ hvalid : marker.rawEndPos.IsValid (front line),
          ((front line).sliceFrom ((front line).pos marker.rawEndPos hvalid)).copy = t := by
  refine ⟨fun n => ⟨fun h => ?_, ?_⟩, (isSome_processNote? doc).symm, ?_⟩
  · obtain ⟨line, rest, t, rfl, ht⟩ := exists_marks_of_processNote? h
    rw [processNote?_of_marks ht, Option.some.injEq] at h
    refine ⟨line, rest, t, _, rfl, ht, ?_, h.symm⟩
    rw [String.toList_ofList]
    exact Text.trims_trim t.toList
  · rintro ⟨line, rest, t, core, rfl, ht, hcore, rfl⟩
    rw [processNote?_of_marks ht, ← hcore.eq_trim, String.ofList_toList]
  · rintro line rest rfl hmarked
    obtain ⟨t, ht⟩ := isProcess_iff_marks.1 hmarked
    exact ⟨t, ht, ht.firstNote_eq, exists_slice_of_append ht.front_eq⟩

/-- Blanks of up to three bytes stand before and behind the marker, and the note begins and ends
with characters of more than one byte. -/
theorem processNote?_iff_marks_wide :
    let line := "\u3000\t@process\u00a0\u2003über 𝒫\u2028 "
    let doc : Doc := [line, "  kept ", ""]
    doc.isProcess = true ∧ doc.processNote? = some "über 𝒫\n  kept \n" ∧
      ∃ hvalid : marker.rawEndPos.IsValid (front line),
        ((front line).sliceFrom ((front line).pos marker.rawEndPos hvalid)).copy =
          "\u00a0\u2003über 𝒫\u2028 " := by
  intro line doc
  have hmarked : doc.isProcess = true := by decide +kernel
  have hfront : front line = marker ++ "\u00a0\u2003über 𝒫\u2028 " := by decide +kernel
  obtain ⟨-, -, hslice⟩ := processNote?_iff_marks doc
  obtain ⟨t, ht, -, hvalid, hcopy⟩ := hslice line _ rfl hmarked
  have hrest := (String.append_right_inj marker).1 (ht.front_eq.symm.trans hfront)
  exact ⟨hmarked, by decide +kernel, hvalid, hcopy.trans hrest⟩

/-- A marker that goes on with anything but a blank marks nothing, even if that has no width. -/
example : Doc.processNote? ["@process\u200b note"] = none := by decide +kernel

end Doc

end CoLang
