import CoLang.Json.Printer
import CoLang.Proofs.Json.Number
/-!
# JSON values are read back from their text

A value is *plain* if nothing in it is unreadable, every whole number in it is one that JSON can
hold and every double passes a test. If the test is that it is read back from its number, a plain
value is read back from the text it is written as (`parse?_compact`).

Writing and reading meet in the tokens of a value. The scanner splits the text into them
(`scan_compact`), following the writer, which appends to what it has written; a number ends only
where the next token begins, so it is said where the scanner may stop (`Scanned`) and where it
stands between two tokens (`Between`). The reader puts them together again (`read_tokens`).
-/

namespace CoLang.Json

/-! ## Plain values -/

mutual

/-- Whether every whole number in a value can be written, every double passes the test, and nothing
is unreadable. -/
def isPlain (ok : Float → Bool) : Json → Bool
  | .unreadable => false
  | .int n => intMin ≤ n && n ≤ intMax
  | .float x => ok x
  | .arr items => itemsPlain ok items
  | .obj members => membersPlain ok members
  | _ => true

/-- Whether all items of a list are plain. -/
def itemsPlain (ok : Float → Bool) : List Json → Bool
  | [] => true
  | j :: rest => isPlain ok j && itemsPlain ok rest

/-- Whether all members of an object are plain. -/
def membersPlain (ok : Float → Bool) : List (String × Json) → Bool
  | [] => true
  | (_, j) :: rest => isPlain ok j && membersPlain ok rest

end

mutual

/-- The doubles in a value. -/
def floats : Json → List Float
  | .float x => [x]
  | .arr items => itemsFloats items
  | .obj members => membersFloats members
  | _ => []

def itemsFloats : List Json → List Float
  | [] => []
  | j :: rest => floats j ++ itemsFloats rest

def membersFloats : List (String × Json) → List Float
  | [] => []
  | (_, j) :: rest => floats j ++ membersFloats rest

end

mutual

/-- A plain value is plain by another test that its doubles pass. -/
theorem isPlain_of_floats {ok ok' : Float → Bool} : ∀ {j : Json}, j.isPlain ok = true →
    (∀ x ∈ j.floats, ok' x = true) → j.isPlain ok' = true
  | .null, _, _ | .bool _, _, _ | .str _, _, _ => by simp [isPlain]
  | .unreadable, h, _ => by
    rw [isPlain] at h
    cases h
  | .int n, h, _ => by
    rw [isPlain] at h ⊢
    exact h
  | .float x, _, hfloats => by
    rw [isPlain]
    exact hfloats x (by simp [floats])
  | .arr items, h, hfloats => by
    rw [isPlain] at h ⊢
    rw [floats] at hfloats
    exact itemsPlain_of_floats h hfloats
  | .obj members, h, hfloats => by
    rw [isPlain] at h ⊢
    rw [floats] at hfloats
    exact membersPlain_of_floats h hfloats

theorem itemsPlain_of_floats {ok ok' : Float → Bool} : ∀ {items : List Json},
    itemsPlain ok items = true → (∀ x ∈ itemsFloats items, ok' x = true) →
      itemsPlain ok' items = true
  | [], _, _ => by rw [itemsPlain]
  | j :: rest, h, hfloats => by
    simp only [itemsPlain, Bool.and_eq_true] at h ⊢
    simp only [itemsFloats, List.forall_mem_append] at hfloats
    exact ⟨isPlain_of_floats h.1 hfloats.1, itemsPlain_of_floats h.2 hfloats.2⟩

theorem membersPlain_of_floats {ok ok' : Float → Bool} : ∀ {members : List (String × Json)},
    membersPlain ok members = true → (∀ x ∈ membersFloats members, ok' x = true) →
      membersPlain ok' members = true
  | [], _, _ => by rw [membersPlain]
  | (_, j) :: rest, h, hfloats => by
    simp only [membersPlain, Bool.and_eq_true] at h ⊢
    simp only [membersFloats, List.forall_mem_append] at hfloats
    exact ⟨isPlain_of_floats h.1 hfloats.1, membersPlain_of_floats h.2 hfloats.2⟩

end

/-! ## The tokens of a value -/

mutual

/-- The tokens that a value is written as. -/
def tokens : Json → List Token
  | .arr items => .beginArr :: (itemTokens true items ++ [.endArr])
  | .obj members => .beginObj :: (memberTokens true members ++ [.endObj])
  | .str s => [.text (some s)]
  | j => [.scalar j]

/-- The tokens of the items of a list. -/
def itemTokens (first : Bool) : List Json → List Token
  | [] => []
  | j :: rest => (if first then [] else [.comma]) ++ (tokens j ++ itemTokens false rest)

/-- The tokens of the members of an object. -/
def memberTokens (first : Bool) : List (String × Json) → List Token
  | [] => []
  | (name, j) :: rest =>
    (if first then [] else [.comma]) ++
      (.text (some name) :: .colon :: (tokens j ++ memberTokens false rest))

end

/-! ## Passes -/

/-- A pass over some items gets from one state to another. -/
def Passes {σ α : Type} (step : σ → α → Option σ) (s : σ) (xs : List α) (s' : σ) : Prop :=
  xs.foldlM step s = some s'

namespace Passes

variable {σ α : Type} {step : σ → α → Option σ} {s s' s'' : σ} {x : α} {xs ys : List α}

theorem nil : Passes step s [] s := rfl

theorem cons (h : step s x = some s') (h' : Passes step s' xs s'') :
    Passes step s (x :: xs) s'' := by
  rw [Passes, List.foldlM_cons, h]
  exact h'

theorem one (h : step s x = some s') : Passes step s [x] s' := cons h nil

theorem append (h : Passes step s xs s') (h' : Passes step s' ys s'') :
    Passes step s (xs ++ ys) s'' := by
  rw [Passes, List.foldlM_append, h]
  exact h'

end Passes

/-! ## Reading tokens -/

variable {ok : Float → Bool}

theorem closeObject_some (members : List (String × Json)) :
    closeObject (members.map fun m => (some m.1, m.2)).reverse = .obj members := by
  have hmap : (members.map fun m => (some m.1, m.2)).mapM
      (fun m : Option String × Json => m.1.map fun name => (name, m.2)) = some members := by
    induction members with
    | nil => rfl
    | cons m rest ih => simp [ih]
  rw [closeObject, List.reverse_reverse, hmap]

mutual

theorem read_tokens : ∀ {j : Json}, j.isPlain ok = true → ∀ (stack : List Open) (mayClose : Bool),
    Passes readToken (.value stack mayClose) j.tokens (.separator j stack)
  | .null, _, _, _ | .bool _, _, _, _ | .int _, _, _, _ | .float _, _, _, _ | .str _, _, _, _ => by
    simp only [tokens]
    exact .one rfl
  | .unreadable, h, _, _ => by simp [isPlain] at h
  | .arr [], _, stack, _ => by
    rw [tokens, itemTokens]
    exact .cons rfl (.one rfl)
  | .arr (j :: rest), h, stack, _ => by
    simp only [isPlain, itemsPlain, Bool.and_eq_true] at h
    rw [tokens, itemTokens, List.append_assoc, List.append_assoc]
    exact .cons rfl (.append .nil (.append (read_tokens h.1 _ _) (read_itemTokens h.2 j [] stack)))
  | .obj [], _, stack, _ => by
    rw [tokens, memberTokens]
    exact .cons rfl (.one rfl)
  | .obj ((name, j) :: rest), h, stack, _ => by
    simp only [isPlain, membersPlain, Bool.and_eq_true] at h
    simp only [tokens, memberTokens, List.append_assoc, List.cons_append]
    refine .cons rfl (.append .nil (.cons rfl (.cons rfl ?_)))
    exact .append (read_tokens h.1 _ _) (read_memberTokens h.2 name j [] stack)

theorem read_itemTokens : ∀ {rest : List Json}, itemsPlain ok rest = true →
    ∀ (j : Json) (items : List Json) (stack : List Open),
      Passes readToken (.separator j (.list items :: stack)) (itemTokens false rest ++ [.endArr])
        (.separator (.arr ((j :: items).reverse ++ rest)) stack)
  | [], _, j, items, stack => by
    rw [itemTokens, List.append_nil]
    exact .one rfl
  | j' :: rest, h, j, items, stack => by
    simp only [itemsPlain, Bool.and_eq_true] at h
    have hrest := read_itemTokens h.2 j' (j :: items) stack
    rw [List.reverse_cons, List.append_assoc, List.singleton_append] at hrest
    simp only [itemTokens, List.append_assoc]
    exact .append (.one rfl) (.append (read_tokens h.1 _ _) hrest)

theorem read_memberTokens : ∀ {rest : List (String × Json)}, membersPlain ok rest = true →
    ∀ (name : String) (j : Json) (members : List (String × Json)) (stack : List Open),
      Passes readToken
        (.separator j
          (.object (members.map fun m => (some m.1, m.2)).reverse (some name) :: stack))
        (memberTokens false rest ++ [.endObj])
        (.separator (.obj (members ++ (name, j) :: rest)) stack)
  | [], _, name, j, members, stack => by
    have hclose := closeObject_some (members ++ [(name, j)])
    rw [List.map_append, List.reverse_append] at hclose
    rw [memberTokens, ← hclose]
    exact .one rfl
  | (name', j') :: rest, h, name, j, members, stack => by
    simp only [membersPlain, Bool.and_eq_true] at h
    have hrest := read_memberTokens h.2 name' j' (members ++ [(name, j)]) stack
    rw [List.map_append, List.reverse_append, List.append_assoc] at hrest
    simp only [memberTokens, List.append_assoc, List.cons_append]
    refine .cons rfl (.cons rfl (.cons rfl ?_))
    exact .append (read_tokens h.1 _ _) hrest

end

/-! ## Scanning -/

variable {num : Numerals}

/-- The tokens read so far, the last one first, if the scanner may stop where it stands. -/
def settled? (num : Numerals) : Mode × List Token → Option (List Token)
  | (.between, ts) => some ts
  | (.word chars, ts) => (wordToken? chars).map (· :: ts)
  | (.number chars, ts) => (numberToken? num chars).map (· :: ts)
  | _ => none

theorem tokens?_eq (text : String) :
    tokens? num text =
      ((text.toList.foldlM (scanChar num) (.between, [])).bind
        (settled? num)).map List.reverse := by
  rw [tokens?]
  cases text.toList.foldlM (scanChar num) (.between, []) with
  | none => rfl
  | some st =>
    obtain ⟨mode, ts⟩ := st
    cases mode with
    | word chars => simp [settled?, Function.comp_def]
    | number chars => simp [settled?, Function.comp_def]
    | _ => rfl

/-- A character that ends a word or a number. -/
def isMark (c : Char) : Bool := !c.isLower && !inNumber c

theorem scanChar_of_settled {st : Mode × List Token} {ts : List Token} {c : Char}
    (h : settled? num st = some ts) (hc : isMark c = true) :
    scanChar num st c = scanBetween ts c := by
  simp only [isMark, Bool.and_eq_true, Bool.not_eq_true'] at hc
  obtain ⟨mode, ts'⟩ := st
  cases mode with
  | between =>
    cases h
    rfl
  | word chars =>
    obtain ⟨t, ht, rfl⟩ := Option.map_eq_some_iff.1 h
    simp [scanChar, hc.1, ht]
  | number chars =>
    obtain ⟨t, ht, rfl⟩ := Option.map_eq_some_iff.1 h
    simp [scanChar, hc.2, ht]
  | _ => cases h

/-- The scanner stands between two tokens behind a text. -/
def Between (num : Numerals) (text : String) (ts : List Token) : Prop :=
  Passes (scanChar num) (.between, []) text.toList (.between, ts)

/-- The scanner may stop behind a text. -/
def Scanned (num : Numerals) (text : String) (ts : List Token) : Prop :=
  ∃ st, Passes (scanChar num) (.between, []) text.toList st ∧ settled? num st = some ts

theorem Between.scanned {text : String} {ts : List Token} (h : Between num text ts) :
    Scanned num text ts :=
  ⟨_, h, rfl⟩

/-- What a scanner reads behind a text that it may stop at. -/
theorem Between.append {text more : String} {ts : List Token} {st : Mode × List Token}
    (h : Between num text ts) (h' : Passes (scanChar num) (.between, ts) more.toList st) :
    Passes (scanChar num) (.between, []) (text ++ more).toList st := by
  rw [String.toList_append]
  exact Passes.append h h'

theorem Scanned.mark {text : String} {ts : List Token} {c : Char} {t : Token}
    (h : Scanned num text ts) (mark : String) (hmark : mark.toList = [c]) (hc : isMark c = true)
    (ht : scanBetween ts c = some (.between, t :: ts)) : Between num (text ++ mark) (t :: ts) := by
  obtain ⟨st, hst, hsettled⟩ := h
  rw [Between, String.toList_append, hmark]
  refine hst.append (.one ?_)
  rw [scanChar_of_settled hsettled hc, ht]

/-! ## Scalars -/

theorem Between.word {text : String} {ts : List Token} (h : Between num text ts) :
    Scanned num (text ++ "null") (.scalar .null :: ts) ∧
      Scanned num (text ++ "true") (.scalar (.bool true) :: ts) ∧
      Scanned num (text ++ "false") (.scalar (.bool false) :: ts) :=
  ⟨⟨_, h.append rfl, rfl⟩, ⟨_, h.append rfl, rfl⟩, ⟨_, h.append rfl, rfl⟩⟩

/-- The characters of a number as the scanner takes them for one. -/
structure IsNumeric (cs : List Char) : Prop where
  head : ∃ c rest, cs = c :: rest ∧ (c = '-' ∨ c.isDigit = true)
  all : ∀ c ∈ cs, inNumber c = true

theorem scanBetween_numeric {c : Char} (h : c = '-' ∨ c.isDigit = true) (ts : List Token) :
    scanBetween ts c = some (.number [c], ts) := by
  rcases h with rfl | h
  · rfl
  · have hne : ∀ d : Char, d.isDigit = false → c ≠ d := by
      rintro d hd rfl
      rw [h] at hd
      cases hd
    simp [scanBetween, h, hne ' ' rfl, hne '\t' rfl, hne '\n' rfl, hne '\r' rfl, hne '[' rfl,
      hne ']' rfl, hne '\x7b' rfl, hne '\x7d' rfl, hne ':' rfl, hne ',' rfl, hne '"' rfl]

theorem scan_number {cs : List Char} (hcs : ∀ c ∈ cs, inNumber c = true) (chars : List Char)
    (ts : List Token) :
    Passes (scanChar num) (.number chars, ts) cs (.number (cs.reverse ++ chars), ts) := by
  induction cs generalizing chars with
  | nil => exact .nil
  | cons c rest ih =>
    have hc := hcs c List.mem_cons_self
    rw [List.reverse_cons, List.append_assoc]
    exact .cons (by simp [scanChar, hc]) (ih (fun d hd => hcs d (List.mem_cons_of_mem c hd)) _)

theorem inNumber_of_isDigit {c : Char} (h : c.isDigit = true) : inNumber c = true := by
  simp [inNumber, h]

theorem inNumber_of_exponentPart {cs : List Char} {e : Int}
    (h : Decimal.exponentPart cs = some e) : ∀ c ∈ cs, inNumber c = true := by
  have hdigits : ∀ {ds : List Char}, ds.all Char.isDigit = true → ∀ c ∈ ds, inNumber c = true :=
    fun hall c hc => inNumber_of_isDigit (List.all_eq_true.1 hall c hc)
  revert h
  fun_cases Decimal.exponentPart cs with
  | case1 => exact fun _ => nofun
  | case2 e cs he negative ds hsign hds =>
    intro _
    refine List.forall_mem_cons.2 ⟨by rcases he with rfl | rfl <;> rfl, ?_⟩
    split at hsign <;> cases hsign
    · exact List.forall_mem_cons.2 ⟨rfl, hdigits hds.2⟩
    · exact List.forall_mem_cons.2 ⟨rfl, hdigits hds.2⟩
    · exact hdigits hds.2
  | case3 => exact nofun
  | case4 => exact nofun

theorem eq_signChars_append {cs rest : List Char} {negative : Bool}
    (h : (match cs with
      | '-' :: rest => (true, rest)
      | rest => (false, rest)) = (negative, rest)) : cs = signChars negative ++ rest := by
  split at h <;> cases h <;> rfl

theorem isNumeric_append {whole rest : List Char} (negative : Bool) (hne : whole ≠ [])
    (hwhole : ∀ c ∈ whole, c.isDigit = true) (hrest : ∀ c ∈ rest, inNumber c = true) :
    IsNumeric (signChars negative ++ (whole ++ rest)) := by
  obtain ⟨c, cs, rfl⟩ := List.exists_cons_of_ne_nil hne
  have hall : ∀ d ∈ c :: cs ++ rest, inNumber d = true :=
    List.forall_mem_append.2 ⟨fun d hd => inNumber_of_isDigit (hwhole d hd), hrest⟩
  cases negative with
  | true => exact ⟨⟨'-', _, rfl, .inl rfl⟩, List.forall_mem_cons.2 ⟨rfl, hall⟩⟩
  | false => exact ⟨⟨c, _, rfl, .inr (hwhole c List.mem_cons_self)⟩, hall⟩

/-- What is read as a number was taken for one by the scanner. -/
theorem isNumeric_of_readNumber {cs : List Char} {j : Json} (h : readNumber num cs = some j) :
    IsNumeric cs := by
  have hparts : ∀ {negative : Bool} {rest whole tail : List Char},
      cs = signChars negative ++ rest → Decimal.spanDigits rest = (whole, tail) →
      ¬(whole = [] ∨ whole.head? = some '0' ∧ 1 < whole.length) →
      (∀ c ∈ tail, inNumber c = true) → IsNumeric cs := by
    intro negative rest whole tail hcs hspan hwhole htail
    obtain ⟨rfl, hdigits⟩ := Decimal.of_spanDigits hspan
    rw [hcs]
    exact isNumeric_append negative (fun hnil => hwhole (.inl hnil)) hdigits htail
  revert h
  fun_cases readNumber num cs with
  | case1 | case3 =>
    intro h
    cases h
  | case2 negative rest hsign whole hwhole hspan =>
    exact fun _ => hparts (eq_signChars_append hsign) hspan hwhole fun c hc => by cases hc
  | case4 negative rest hsign whole hwhole tail fraction more hfraction hne hspan =>
    intro h
    obtain ⟨e, he, -⟩ := Option.map_eq_some_iff.1 h
    obtain ⟨rfl, hdigits⟩ := Decimal.of_spanDigits hfraction
    refine hparts (eq_signChars_append hsign) hspan hwhole (List.forall_mem_cons.2 ⟨rfl, ?_⟩)
    exact List.forall_mem_append.2
      ⟨fun c hc => inNumber_of_isDigit (hdigits c hc), inNumber_of_exponentPart he⟩
  | case5 negative rest hsign whole hwhole tail _ _ hspan =>
    intro h
    obtain ⟨e, he, -⟩ := Option.map_eq_some_iff.1 h
    exact hparts (eq_signChars_append hsign) hspan hwhole (inNumber_of_exponentPart he)

theorem Between.number {text number : String} {ts : List Token} {j : Json} (h : Between num text ts)
    (hj : readNumber num number.toList = some j) :
    Scanned num (text ++ number) (.scalar j :: ts) := by
  obtain ⟨⟨c, rest, hcs, hc⟩, hall⟩ := isNumeric_of_readNumber hj
  have hsettled : settled? num (.number number.toList.reverse, ts) = some (.scalar j :: ts) := by
    simp [settled?, numberToken?, hj]
  refine ⟨_, h.append ?_, hsettled⟩
  rw [hcs, List.reverse_cons]
  rw [hcs] at hall
  exact .cons (scanBetween_numeric hc ts)
    (scan_number (fun d hd => hall d (List.mem_cons_of_mem c hd)) [c] ts)

/-! ## Texts -/

theorem toList_quote (extra : Char → Bool) (s : String) :
    (quote extra s).toList =
      '"' :: (s.toList.flatMap fun c => (escapeChar extra c).toList) ++ ['"'] := by
  have hfold : ∀ (cs : List Char) (out : String),
      (cs.foldl (fun out c => out ++ escapeChar extra c) out).toList =
        out.toList ++ cs.flatMap fun c => (escapeChar extra c).toList := by
    intro cs
    induction cs with
    | nil => simp
    | cons c rest ih =>
      intro out
      rw [List.foldl_cons, ih, String.toList_append, List.append_assoc, List.flatMap_cons]
  rw [quote, String.toList_append, String.foldl_eq_foldl_toList, hfold]
  rfl

theorem hexValue?_hexDigit : ∀ n < 16, hexValue? (hexDigit n) = some n := by
  decide

/-- A four-digit escape is read as the character of that number. -/
theorem scan_unitEscape {c : Char} (hc : c.toNat < 0xD800) (chars : List Char) (ts : List Token) :
    Passes (scanChar num) (.text ⟨chars, none, true⟩, ts) (unitEscape c.toNat).toList
      (.text ⟨c :: chars, none, true⟩, ts) := by
  have hunit : Reading.addUnit ⟨chars, none, true⟩ c.toNat = ⟨c :: chars, none, true⟩ := by
    have hhigh : ¬(0xD800 ≤ c.toNat ∧ c.toNat ≤ 0xDBFF) := by omega
    have hlow : ¬(0xDC00 ≤ c.toNat ∧ c.toNat ≤ 0xDFFF) := by omega
    simp only [Reading.addUnit, if_neg hhigh, if_neg hlow, Char.ofNat_toNat]
  have hvalue : (((0 * 16 + c.toNat / 4096 % 16) * 16 + c.toNat / 256 % 16) * 16 +
      c.toNat / 16 % 16) * 16 + c.toNat % 16 = c.toNat := by omega
  have hmore : ∀ (n due value : Nat),
      scanChar num (.hex ⟨chars, none, true⟩ (due + 2) value, ts) (hexDigit (n % 16)) =
        some (.hex ⟨chars, none, true⟩ (due + 1) (value * 16 + n % 16), ts) := by
    intro n due value
    simp [scanChar, hexValue?_hexDigit _ (Nat.mod_lt n (by norm_num))]
  have hlast : ∀ n value : Nat,
      scanChar num (.hex ⟨chars, none, true⟩ 1 value, ts) (hexDigit (n % 16)) =
        some (.text (Reading.addUnit ⟨chars, none, true⟩ (value * 16 + n % 16)), ts) := by
    intro n value
    simp [scanChar, hexValue?_hexDigit _ (Nat.mod_lt n (by norm_num))]
  rw [unitEscape, String.toList_ofList]
  refine .cons rfl (.cons rfl (.cons (hmore _ 2 0) (.cons (hmore _ 1 _) (.cons (hmore _ 0 _) ?_))))
  refine .one ((hlast _ _).trans ?_)
  rw [hvalue, hunit]

/-- A character is read back from its escape. -/
theorem scan_escapeChar (c : Char) (chars : List Char) (ts : List Token) :
    Passes (scanChar num) (.text ⟨chars, none, true⟩, ts) (escapeChar (fun _ => false) c).toList
      (.text ⟨c :: chars, none, true⟩, ts) := by
  unfold escapeChar
  split_ifs with hquote hslash hn hr ht hb hf hcontrol
  · subst hquote
    exact .cons rfl (.one rfl)
  · subst hslash
    exact .cons rfl (.one rfl)
  · subst hn
    exact .cons rfl (.one rfl)
  · subst hr
    exact .cons rfl (.one rfl)
  · subst ht
    exact .cons rfl (.one rfl)
  · obtain rfl : c = Char.ofNat 8 := by rw [← hb, Char.ofNat_toNat]
    exact .cons rfl (.one rfl)
  · obtain rfl : c = Char.ofNat 12 := by rw [← hf, Char.ofNat_toNat]
    exact .cons rfl (.one rfl)
  · simp only [Bool.or_false, decide_eq_true_eq] at hcontrol
    exact scan_unitEscape (by omega) chars ts
  · simp only [Bool.or_false, decide_eq_true_eq] at hcontrol
    rw [String.toList_singleton]
    exact .one (by simp [scanChar, hquote, hslash, hcontrol, Reading.addChar])

theorem Between.text {text : String} {ts : List Token} (h : Between num text ts) (s : String) :
    Between num (text ++ quote (fun _ => false) s) (.text (some s) :: ts) := by
  have hchars : ∀ (cs chars : List Char), Passes (scanChar num) (.text ⟨chars, none, true⟩, ts)
      (cs.flatMap fun c => (escapeChar (fun _ => false) c).toList)
      (.text ⟨cs.reverse ++ chars, none, true⟩, ts) := by
    intro cs
    induction cs with
    | nil => exact fun _ => .nil
    | cons c rest ih =>
      intro chars
      rw [List.flatMap_cons, List.reverse_cons, List.append_assoc]
      exact (scan_escapeChar c chars ts).append (ih (c :: chars))
  have hend : scanChar num (.text ⟨s.toList.reverse ++ [], none, true⟩, ts) '"' =
      some (.between, .text (some s) :: ts) := by
    simp [scanChar, Reading.finish]
  refine h.append ?_
  rw [toList_quote]
  exact .cons rfl ((hchars s.toList []).append (.one hend))

/-! ## Values -/

theorem Scanned.comma {text : String} {ts : List Token} {first : Bool} (h : Scanned num text ts)
    (hfirst : first = true → Between num text ts) :
    Between num (if first then text else text ++ ",")
      ((if first then [] else [Token.comma]).reverse ++ ts) := by
  cases first with
  | true => exact hfirst rfl
  | false => exact h.mark _ rfl rfl rfl

mutual

theorem scan_compact : ∀ {j : Json}, j.isPlain num.readsBack = true →
    ∀ {text : String} {ts : List Token}, Between num text ts →
      Scanned num (writeCompact num (fun _ => false) text j) (j.tokens.reverse ++ ts)
  | .null, _, text, ts, h => by
    rw [writeCompact]
    exact h.word.1
  | .bool true, _, text, ts, h => by
    rw [writeCompact]
    exact h.word.2.1
  | .bool false, _, text, ts, h => by
    rw [writeCompact]
    exact h.word.2.2
  | .int n, hj, text, ts, h => by
    simp only [isPlain, Bool.and_eq_true, decide_eq_true_eq] at hj
    rw [writeCompact]
    exact h.number (readNumber_int hj.1 hj.2)
  | .float x, hj, text, ts, h => by
    rw [isPlain] at hj
    rw [writeCompact, if_pos (Numerals.isFinite_of_readsBack hj)]
    exact h.number (Numerals.readNumber_of_readsBack hj)
  | .str s, _, text, ts, h => by
    rw [writeCompact]
    exact (h.text s).scanned
  | .unreadable, hj, _, _, _ => by simp [isPlain] at hj
  | .arr items, hj, text, ts, h => by
    simp only [isPlain] at hj
    have hopen : Between num (text ++ "[") (.beginArr :: ts) := h.scanned.mark _ rfl rfl rfl
    have hitems := scan_items hj true hopen.scanned fun _ => hopen
    have hclose := hitems.mark "]" rfl rfl rfl
    simp only [writeCompact, tokens, List.reverse_cons, List.reverse_append, List.append_assoc]
    exact hclose.scanned
  | .obj members, hj, text, ts, h => by
    simp only [isPlain] at hj
    have hopen : Between num (text ++ "\x7b") (.beginObj :: ts) := h.scanned.mark _ rfl rfl rfl
    have hmembers := scan_members hj true hopen.scanned fun _ => hopen
    have hclose := hmembers.mark "\x7d" rfl rfl rfl
    simp only [writeCompact, tokens, List.reverse_cons, List.reverse_append, List.append_assoc]
    exact hclose.scanned

theorem scan_items : ∀ {items : List Json}, itemsPlain num.readsBack items = true →
    ∀ {text : String} {ts : List Token} (first : Bool), Scanned num text ts →
      (first = true → Between num text ts) →
      Scanned num (writeItems num (fun _ => false) text first items)
        ((itemTokens first items).reverse ++ ts)
  | [], _, text, ts, first, h, _ => by
    rw [writeItems]
    exact h
  | j :: rest, hj, text, ts, first, h, hfirst => by
    simp only [itemsPlain, Bool.and_eq_true] at hj
    have hbetween := h.comma hfirst
    have hrest := scan_items hj.2 false (scan_compact hj.1 hbetween) nofun
    simp only [writeItems, itemTokens, List.reverse_append, List.append_assoc]
    exact hrest

theorem scan_members : ∀ {members : List (String × Json)},
    membersPlain num.readsBack members = true →
    ∀ {text : String} {ts : List Token} (first : Bool), Scanned num text ts →
      (first = true → Between num text ts) →
        Scanned num (writeMembers num (fun _ => false) text first members)
          ((memberTokens first members).reverse ++ ts)
  | [], _, text, ts, first, h, _ => by
    rw [writeMembers]
    exact h
  | (name, j) :: rest, hj, text, ts, first, h, hfirst => by
    simp only [membersPlain, Bool.and_eq_true] at hj
    have hbetween := h.comma hfirst
    have hcolon := (hbetween.text name).scanned.mark ":" rfl rfl rfl
    have hrest := scan_members hj.2 false (scan_compact hj.1 hcolon) nofun
    simp only [writeMembers, memberTokens, List.reverse_append, List.reverse_cons,
      List.append_assoc]
    exact hrest

end

/-- A value is read from a text that the scanner splits into the tokens of the value. -/
theorem parse?_of_scanned {j : Json} (h : j.isPlain num.readsBack = true) {text : String}
    (hscanned : Scanned num text j.tokens.reverse) : parse? num text = some j := by
  obtain ⟨st, hscan, hsettled⟩ := hscanned
  have hscan' : text.toList.foldlM (scanChar num) (.between, []) = some st := hscan
  have htokens : tokens? num text = some j.tokens := by
    rw [tokens?_eq, hscan', Option.bind_some, hsettled, Option.map_some, List.reverse_reverse]
  have hread : j.tokens.foldlM readToken (.value [] false) = some (.separator j []) :=
    read_tokens h [] false
  simp only [parse?, htokens, hread, Option.bind_eq_bind, Option.bind_some]

/-- **A plain value is read back from its text.** -/
theorem parse?_compact {j : Json} (h : j.isPlain num.readsBack = true) :
    parse? num (j.compact num) = some j := by
  have hempty : Between num "" [] := .nil
  have hscanned := scan_compact h hempty
  rw [List.append_nil] at hscanned
  exact parse?_of_scanned h hscanned

end CoLang.Json
