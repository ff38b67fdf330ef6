import CoLang.Json.Reader
import CoLang.Proofs.Decimal.Nearest
/-!
# What a text can hold

Whatever a text is read as, every number in it is one that JSON can hold, and no list in it has more
items than the text has characters (`isBounded_of_parse?`). For the lists, the scanner has no more
tokens than it has seen characters, and the reader no more items in an open list than it has seen
tokens.
-/

namespace CoLang.Json

mutual

/-- Whether every number in a value is one that JSON can hold, and no list in it has more than `n`
items. -/
def isBounded (n : Nat) : Json → Bool
  | .int k => intMin ≤ k && k ≤ intMax
  | .float x => Decimal.isFinite x
  | .arr items => items.length ≤ n && itemsBounded n items
  | .obj members => membersBounded n members
  | _ => true

/-- Whether all items of a list are bounded. -/
def itemsBounded (n : Nat) : List Json → Bool
  | [] => true
  | j :: rest => isBounded n j && itemsBounded n rest

/-- Whether all members of an object are bounded. -/
def membersBounded (n : Nat) : List (String × Json) → Bool
  | [] => true
  | (_, j) :: rest => isBounded n j && membersBounded n rest

end

variable {n : Nat}

theorem itemsBounded_iff {items : List Json} :
    itemsBounded n items = true ↔ ∀ j ∈ items, j.isBounded n = true := by
  induction items with
  | nil => simp [itemsBounded]
  | cons j rest ih => simp [itemsBounded, ih]

theorem membersBounded_iff {members : List (String × Json)} :
    membersBounded n members = true ↔ ∀ m ∈ members, m.2.isBounded n = true := by
  induction members with
  | nil => simp [membersBounded]
  | cons m rest ih => simp [membersBounded, ih]

theorem isBounded_arr {items : List Json} :
    (Json.arr items).isBounded n = true ↔
      items.length ≤ n ∧ ∀ j ∈ items, j.isBounded n = true := by
  simp [isBounded, itemsBounded_iff]

theorem isBounded_obj {members : List (String × Json)} :
    (Json.obj members).isBounded n = true ↔ ∀ m ∈ members, m.2.isBounded n = true := by
  simp [isBounded, membersBounded_iff]

/-! ## Numbers -/

variable {num : Numerals}

theorem isBounded_double (cs : List Char) : (num.double cs).isBounded n = true := by
  unfold Numerals.double
  split
  · split
    · next h => simpa [isBounded] using h
    · simp [isBounded]
  · simp [isBounded]

theorem isBounded_of_wholeNumber? {negative : Bool} {digits : List Char} {k : Int}
    (h : wholeNumber? negative digits = some k) : (Json.int k).isBounded n = true := by
  simp only [wholeNumber?] at h
  generalize (if negative = true then -(Decimal.digitsValue digits : Int)
    else Decimal.digitsValue digits) = m at h
  split_ifs at h with hzero hfits
  cases h
  simpa [isBounded] using hfits

theorem isBounded_of_readNumber {cs : List Char} {j : Json} (h : readNumber num cs = some j) :
    j.isBounded n = true := by
  have hdouble : ∀ {e : Option Int}, e.map (fun _ => num.double cs) = some j →
      j.isBounded n = true := by
    intro e he
    obtain ⟨-, -, rfl⟩ := Option.map_eq_some_iff.1 he
    exact isBounded_double cs
  revert h
  fun_cases readNumber num cs with
  | case1 | case3 => exact nofun
  | case2 negative _ _ digits =>
    rintro ⟨⟩
    cases hwhole : wholeNumber? negative digits with
    | none => exact isBounded_double cs
    | some k => exact isBounded_of_wholeNumber? hwhole
  | case4 => exact hdouble
  | case5 => exact hdouble

/-! ## Tokens -/

/-- Whether the value that a token carries is bounded. -/
def Token.isBounded (n : Nat) : Token → Bool
  | .scalar j => j.isBounded n
  | _ => true

/-- How many tokens the scanner has begun and not yet finished. -/
def Mode.pending : Mode → Nat
  | .between => 0
  | _ => 1

theorem isBounded_of_wordToken? {chars : List Char} {t : Token} (h : wordToken? chars = some t) :
    t.isBounded n = true := by
  unfold wordToken? at h
  split at h <;> cases h <;> simp [Token.isBounded, isBounded]

theorem isBounded_of_numberToken? {chars : List Char} {t : Token}
    (h : numberToken? num chars = some t) : t.isBounded n = true := by
  obtain ⟨j, hj, rfl⟩ := Option.map_eq_some_iff.1 h
  exact isBounded_of_readNumber hj

theorem Mode.pending_le (mode : Mode) : mode.pending ≤ 1 := by
  cases mode <;> simp [pending]

/-- Behind `k` characters the scanner has no more than `k` tokens, all of them bounded. -/
structure Counts (n k : Nat) (st : Mode × List Token) : Prop where
  bounded : ∀ t ∈ st.2, t.isBounded n = true
  count : st.2.length + st.1.pending ≤ k

theorem Counts.push {k : Nat} {mode mode' : Mode} {ts : List Token} {t : Token}
    (h : Counts n k (mode, ts)) (hpending : mode'.pending ≤ mode.pending)
    (ht : t.isBounded n = true) : Counts n (k + 1) (mode', t :: ts) := by
  obtain ⟨hts, hk⟩ := h
  refine ⟨List.forall_mem_cons.2 ⟨ht, hts⟩, ?_⟩
  simp only [List.length_cons] at hk ⊢
  omega

theorem Counts.mode {k : Nat} {mode : Mode} {ts : List Token} (h : Counts n k (mode, ts))
    (mode' : Mode) : Counts n (k + 1) (mode', ts) := by
  refine ⟨h.bounded, ?_⟩
  have hk := h.count
  have := mode'.pending_le
  simp only at hk ⊢
  omega

theorem Counts.scanBetween {k : Nat} {ts : List Token} {c : Char} {st : Mode × List Token}
    (hts : Counts n k (.between, ts)) (h : scanBetween ts c = some st) : Counts n (k + 1) st := by
  have hmark : ∀ t : Token, t.isBounded n = true → Counts n (k + 1) (.between, t :: ts) :=
    fun t ht => hts.push (Nat.le_refl _) ht
  revert h
  fun_cases Json.scanBetween ts c with
  | case1 | case8 | case9 | case10 =>
    rintro ⟨⟩
    exact hts.mode _
  | case2 | case3 | case4 | case5 | case6 | case7 =>
    rintro ⟨⟩
    exact hmark _ rfl
  | case11 => exact nofun

/-- A token that is pending is counted once it is finished. -/
theorem Counts.finish {k : Nat} {mode : Mode} {ts : List Token} {t : Token}
    (h : Counts n k (mode, ts)) (hpending : mode.pending = 1) (ht : t.isBounded n = true) :
    Counts n k (.between, t :: ts) := by
  obtain ⟨hts, hk⟩ := h
  refine ⟨List.forall_mem_cons.2 ⟨ht, hts⟩, ?_⟩
  show ts.length + 1 ≤ k
  rw [← hpending]
  exact hk

theorem Counts.scanChar {k : Nat} {st st' : Mode × List Token} {c : Char} (hst : Counts n k st)
    (h : scanChar num st c = some st') : Counts n (k + 1) st' := by
  obtain ⟨mode, ts⟩ := st
  cases mode with
  | between => exact hst.scanBetween h
  | word chars =>
    simp only [Json.scanChar] at h
    split at h
    · cases h
      exact hst.mode _
    · obtain ⟨t, ht, h⟩ := Option.bind_eq_some_iff.1 h
      exact (hst.finish rfl (isBounded_of_wordToken? ht)).scanBetween h
  | number chars =>
    simp only [Json.scanChar] at h
    split at h
    · cases h
      exact hst.mode _
    · obtain ⟨t, ht, h⟩ := Option.bind_eq_some_iff.1 h
      exact (hst.finish rfl (isBounded_of_numberToken? ht)).scanBetween h
  | text r =>
    simp only [Json.scanChar] at h
    split_ifs at h <;> cases h
    · exact hst.push (Nat.zero_le _) rfl
    · exact hst.mode _
    · exact hst.mode _
  | escape r =>
    simp only [Json.scanChar] at h
    split at h
    · cases h
      exact hst.mode _
    · obtain ⟨d, -, rfl⟩ := Option.map_eq_some_iff.1 h
      exact hst.mode _
  | hex r due value =>
    obtain ⟨d, -, rfl⟩ := Option.map_eq_some_iff.1 h
    split
    · exact hst.mode _
    · exact hst.mode _

theorem Counts.foldlM {cs : List Char} {k : Nat} {st st' : Mode × List Token}
    (hst : Counts n k st) (h : cs.foldlM (Json.scanChar num) st = some st') :
    Counts n (k + cs.length) st' := by
  induction cs generalizing k st with
  | nil =>
    cases h
    exact hst
  | cons c rest ih =>
    rw [List.foldlM_cons] at h
    obtain ⟨st₁, hstep, h⟩ := Option.bind_eq_some_iff.1 h
    have hrest := ih (hst.scanChar hstep) h
    rw [List.length_cons, Nat.add_comm rest.length, ← Nat.add_assoc]
    exact hrest

/-- A text has no more tokens than characters, and all of them are bounded. -/
theorem counts_tokens? {text : String} {ts : List Token} (h : tokens? num text = some ts) :
    (∀ t ∈ ts, t.isBounded n = true) ∧ ts.length ≤ text.length := by
  obtain ⟨⟨mode, rts⟩, hfold, h⟩ := Option.bind_eq_some_iff.1 h
  have hinit : Counts n 0 (.between, []) := ⟨nofun, Nat.le_refl _⟩
  have hcounts := hinit.foldlM hfold
  rw [Nat.zero_add, String.length_toList] at hcounts
  suffices hlast : ∃ rts', Counts n text.length (.between, rts') ∧ ts = rts'.reverse by
    obtain ⟨rts', hlast, rfl⟩ := hlast
    refine ⟨fun t ht => hlast.bounded t (List.mem_reverse.1 ht), ?_⟩
    rw [List.length_reverse]
    exact hlast.count
  cases mode with
  | between =>
    cases h
    exact ⟨rts, hcounts, rfl⟩
  | word chars =>
    obtain ⟨t, ht, rfl⟩ := Option.map_eq_some_iff.1 h
    exact ⟨_, hcounts.finish rfl (isBounded_of_wordToken? ht), rfl⟩
  | number chars =>
    obtain ⟨t, ht, rfl⟩ := Option.map_eq_some_iff.1 h
    exact ⟨_, hcounts.finish rfl (isBounded_of_numberToken? ht), rfl⟩
  | _ => cases h

/-! ## Reading -/

/-- An open list has fewer than `k` items so far, and all that is in a list or an object is
bounded. -/
def Open.Bounded (n k : Nat) : Open → Prop
  | .list items => items.length < k ∧ ∀ j ∈ items, j.isBounded n = true
  | .object members _ => ∀ m ∈ members, m.2.isBounded n = true

/-- What the reader holds behind `k` tokens is bounded, and no open list has more than `k` items
with the value that is at hand. -/
def Expecting.Bounded (n k : Nat) : Expecting → Prop
  | .value stack _ => ∀ o ∈ stack, o.Bounded n (k + 1)
  | .name members stack _ =>
    (∀ m ∈ members, m.2.isBounded n = true) ∧ ∀ o ∈ stack, o.Bounded n k
  | .colon _ members stack =>
    (∀ m ∈ members, m.2.isBounded n = true) ∧ ∀ o ∈ stack, o.Bounded n k
  | .separator j stack => j.isBounded n = true ∧ ∀ o ∈ stack, o.Bounded n k

theorem Open.Bounded.mono {k k' : Nat} {o : Open} (h : o.Bounded n k) (hk : k ≤ k') :
    o.Bounded n k' := by
  cases o with
  | list items => exact ⟨Nat.lt_of_lt_of_le h.1 hk, h.2⟩
  | object members name => exact h

theorem isBounded_closeObject {members : List (Option String × Json)}
    (h : ∀ m ∈ members, m.2.isBounded n = true) : (closeObject members).isBounded n = true := by
  have hmapM : ∀ {members : List (Option String × Json)} {closed : List (String × Json)},
      (∀ m ∈ members, m.2.isBounded n = true) →
      members.mapM (fun m => m.1.map fun name => (name, m.2)) = some closed →
        ∀ m ∈ closed, m.2.isBounded n = true := by
    intro members
    induction members with
    | nil =>
      intro closed _ hclosed
      cases hclosed
      exact nofun
    | cons m rest ih =>
      intro closed hm hclosed
      rw [List.mapM_cons] at hclosed
      obtain ⟨first, hfirst, hclosed⟩ := Option.bind_eq_some_iff.1 hclosed
      obtain ⟨others, hothers, hclosed⟩ := Option.bind_eq_some_iff.1 hclosed
      obtain ⟨name, -, rfl⟩ := Option.map_eq_some_iff.1 hfirst
      cases hclosed
      intro m' hm'
      rcases List.mem_cons.1 hm' with rfl | hm'
      · exact hm m List.mem_cons_self
      · exact ih (fun m hm₁ => hm m (List.mem_cons_of_mem _ hm₁)) hothers m' hm'
  unfold closeObject
  split
  · next closed hclosed =>
    rw [isBounded_obj]
    exact hmapM (fun m hm => h m (List.mem_reverse.1 hm)) hclosed
  · simp [isBounded]

theorem Token.isBounded_value? {t : Token} {j : Json} (ht : t.isBounded n = true)
    (h : t.value? = some j) : j.isBounded n = true := by
  unfold Token.value? at h
  split at h <;> cases h
  · exact ht
  · simp [Json.isBounded]
  · simp [Json.isBounded]

theorem Expecting.Bounded.readToken {k : Nat} {st st' : Expecting} {t : Token}
    (hst : st.Bounded n k) (ht : t.isBounded n = true) (hk : k ≤ n)
    (h : readToken st t = some st') : st'.Bounded n (k + 1) := by
  have hmono : ∀ {stack : List Open} {k₁ k₂ : Nat}, (∀ o ∈ stack, o.Bounded n k₁) → k₁ ≤ k₂ →
      ∀ o ∈ stack, o.Bounded n k₂ :=
    fun hstack hle o ho => (hstack o ho).mono hle
  revert h
  fun_cases Json.readToken st t with
  | case1 stack mayClose =>
    rintro ⟨⟩
    exact List.forall_mem_cons.2 ⟨⟨Nat.succ_pos _, nofun⟩, hmono hst (Nat.le_succ _)⟩
  | case2 stack mayClose =>
    rintro ⟨⟩
    exact ⟨nofun, hst⟩
  | case3 stack =>
    rintro ⟨⟩
    exact ⟨by simp [isBounded, itemsBounded], (List.forall_mem_cons.1 hst).2⟩
  | case4 stack mayClose =>
    intro h
    obtain ⟨j, hj, rfl⟩ := Option.map_eq_some_iff.1 h
    exact ⟨Token.isBounded_value? ht hj, hst⟩
  | case5 members stack mayClose s =>
    rintro ⟨⟩
    exact ⟨hst.1, hmono hst.2 (Nat.le_succ _)⟩
  | case6 members stack =>
    rintro ⟨⟩
    exact ⟨by simp [isBounded, membersBounded], hmono hst.2 (Nat.le_succ _)⟩
  | case7 name members stack =>
    rintro ⟨⟩
    exact List.forall_mem_cons.2 ⟨hst.1, hmono hst.2 (by omega)⟩
  | case8 j items stack =>
    rintro ⟨⟩
    obtain ⟨⟨hlen, hitems⟩, hstack⟩ := List.forall_mem_cons.1 hst.2
    refine List.forall_mem_cons.2 ⟨⟨?_, List.forall_mem_cons.2 ⟨hst.1, hitems⟩⟩,
      hmono hstack (by omega)⟩
    rw [List.length_cons]
    omega
  | case9 j items stack =>
    rintro ⟨⟩
    obtain ⟨⟨hlen, hitems⟩, hstack⟩ := List.forall_mem_cons.1 hst.2
    refine ⟨?_, hmono hstack (Nat.le_succ _)⟩
    have hall : ∀ j' ∈ j :: items, j'.isBounded n = true :=
      List.forall_mem_cons.2 ⟨hst.1, hitems⟩
    rw [isBounded_arr, List.length_reverse, List.length_cons]
    exact ⟨by omega, fun j' hj' => hall j' (List.mem_reverse.1 hj')⟩
  | case10 j members name stack =>
    rintro ⟨⟩
    obtain ⟨hmembers, hstack⟩ := List.forall_mem_cons.1 hst.2
    exact ⟨List.forall_mem_cons.2 ⟨hst.1, hmembers⟩, hmono hstack (Nat.le_succ _)⟩
  | case11 j members name stack =>
    rintro ⟨⟩
    obtain ⟨hmembers, hstack⟩ := List.forall_mem_cons.1 hst.2
    exact ⟨isBounded_closeObject (List.forall_mem_cons.2 ⟨hst.1, hmembers⟩),
      hmono hstack (Nat.le_succ _)⟩
  | case12 => exact nofun

theorem Expecting.Bounded.foldlM {ts : List Token} {k : Nat} {st st' : Expecting}
    (hst : st.Bounded n k) (hts : ∀ t ∈ ts, t.isBounded n = true) (hk : k + ts.length ≤ n)
    (h : ts.foldlM Json.readToken st = some st') : st'.Bounded n (k + ts.length) := by
  induction ts generalizing k st with
  | nil =>
    cases h
    exact hst
  | cons t rest ih =>
    rw [List.foldlM_cons] at h
    obtain ⟨st₁, hstep, h⟩ := Option.bind_eq_some_iff.1 h
    rw [List.length_cons] at hk
    have hst₁ := hst.readToken (hts t List.mem_cons_self) (by omega) hstep
    have hrest := ih hst₁ (fun u hu => hts u (List.mem_cons_of_mem _ hu)) (by omega) h
    rw [List.length_cons, Nat.add_comm rest.length, ← Nat.add_assoc]
    exact hrest

/-- **A value that was read from a text is bounded by its length.** -/
theorem isBounded_of_parse? {text : String} {j : Json} (h : parse? num text = some j) :
    j.isBounded text.length = true := by
  obtain ⟨ts, hts, h⟩ := Option.bind_eq_some_iff.1 h
  obtain ⟨st, hread, h⟩ := Option.bind_eq_some_iff.1 h
  obtain ⟨hbounded, hlength⟩ := counts_tokens? hts
  have hinit : Expecting.Bounded text.length 0 (.value [] false) := nofun
  have hst := hinit.foldlM hbounded (by omega) hread
  split at h
  · cases h
    exact hst.1
  · cases h

end CoLang.Json
