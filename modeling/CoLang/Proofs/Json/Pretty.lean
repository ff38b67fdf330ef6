import CoLang.Proofs.Json.Text
/-!
# JSON values are read back from several lines

A value that is written over several lines has the tokens of the value on one line, with blanks
between them (`scan_pretty`). So a plain value is read back from it too (`parse?_pretty`).
-/

namespace CoLang.Json

variable {num : Numerals}

/-! ## Blanks -/

theorem scan_indent (n : Nat) (ts : List Token) :
    Passes (scanChar num) (.between, ts) (List.replicate n ' ') (.between, ts) := by
  induction n with
  | zero => exact .nil
  | succ n ih => exact .cons rfl ih

/-- A new line may begin wherever the scanner may stop. -/
theorem Scanned.newLine {text : String} {ts : List Token} (h : Scanned num text ts) (depth : Nat) :
    Between num (text ++ newLine depth) ts := by
  obtain ⟨st, hst, hsettled⟩ := h
  have hbreak : scanChar num st '\n' = some (.between, ts) := by
    rw [scanChar_of_settled hsettled rfl]
    rfl
  have hline : (Json.newLine depth).toList = '\n' :: List.replicate (2 * depth) ' ' := by
    simp [Json.newLine]
  rw [Between, String.toList_append, hline]
  exact hst.append (.cons hbreak (scan_indent _ ts))

/-- The colon behind a name, with a blank behind it. -/
theorem Between.colon {text : String} {ts : List Token} (h : Between num text ts) :
    Between num (text ++ ": ") (.colon :: ts) :=
  h.append (.cons rfl (.one rfl))

/-! ## Values -/

/-- The next item or member stands on a line of its own. -/
theorem Scanned.nextLine {text : String} {ts : List Token} (h : Scanned num text ts) (first : Bool)
    (depth : Nat) :
    Between num ((if first then text else text ++ ",") ++ Json.newLine depth)
      ((if first then [] else [Token.comma]).reverse ++ ts) := by
  cases first with
  | true => exact h.newLine depth
  | false =>
    have hcomma : Between num (text ++ ",") (.comma :: ts) := h.mark _ rfl rfl rfl
    exact hcomma.scanned.newLine depth

mutual

theorem scan_pretty : ∀ {j : Json}, j.isPlain num.readsBack = true → ∀ (depth : Nat) {text : String}
    {ts : List Token}, Between num text ts →
      Scanned num (writePretty num depth text j) (j.tokens.reverse ++ ts)
  | .null, hj, _, _, _, h | .bool _, hj, _, _, _, h | .int _, hj, _, _, _, h
  | .float _, hj, _, _, _, h | .str _, hj, _, _, _, h => by
    simp only [writePretty]
    exact scan_compact hj h
  | .unreadable, hj, _, _, _, _ => by simp [isPlain] at hj
  | .arr [], _, depth, text, ts, h => by
    have hbrackets : Between num (text ++ "[]") (.endArr :: .beginArr :: ts) :=
      h.append (.cons rfl (.one rfl))
    simp only [writePretty, tokens, itemTokens]
    exact hbrackets.scanned
  | .arr (j :: rest), hj, depth, text, ts, h => by
    rw [isPlain] at hj
    have hopen : Between num (text ++ "[") (.beginArr :: ts) := h.scanned.mark _ rfl rfl rfl
    have hitems := scan_prettyItems hj (depth + 1) true hopen.scanned
    have hclose := (hitems.newLine depth).scanned.mark "]" rfl rfl rfl
    simp only [writePretty, tokens, List.reverse_cons, List.reverse_append, List.append_assoc]
    exact hclose.scanned
  | .obj [], _, depth, text, ts, h => by
    have hbraces : Between num (text ++ "\x7b\x7d") (.endObj :: .beginObj :: ts) :=
      h.append (.cons rfl (.one rfl))
    simp only [writePretty, tokens, memberTokens]
    exact hbraces.scanned
  | .obj (m :: rest), hj, depth, text, ts, h => by
    rw [isPlain] at hj
    have hopen : Between num (text ++ "\x7b") (.beginObj :: ts) := h.scanned.mark _ rfl rfl rfl
    have hmembers := scan_prettyMembers hj (depth + 1) true hopen.scanned
    have hclose := (hmembers.newLine depth).scanned.mark "\x7d" rfl rfl rfl
    simp only [writePretty, tokens, List.reverse_cons, List.reverse_append, List.append_assoc]
    exact hclose.scanned

theorem scan_prettyItems : ∀ {items : List Json}, itemsPlain num.readsBack items = true →
    ∀ (depth : Nat) {text : String} {ts : List Token} (first : Bool), Scanned num text ts →
      Scanned num (prettyItems num depth text first items) ((itemTokens first items).reverse ++ ts)
  | [], _, _, text, ts, first, h => by
    rw [prettyItems]
    exact h
  | j :: rest, hj, depth, text, ts, first, h => by
    simp only [itemsPlain, Bool.and_eq_true] at hj
    have hj' := scan_pretty hj.1 depth (h.nextLine first depth)
    have hrest := scan_prettyItems hj.2 depth false hj'
    simp only [prettyItems, itemTokens, List.reverse_append, List.append_assoc]
    exact hrest

theorem scan_prettyMembers : ∀ {members : List (String × Json)},
    membersPlain num.readsBack members = true →
    ∀ (depth : Nat) {text : String} {ts : List Token} (first : Bool), Scanned num text ts →
      Scanned num (prettyMembers num depth text first members)
        ((memberTokens first members).reverse ++ ts)
  | [], _, _, text, ts, first, h => by
    rw [prettyMembers]
    exact h
  | (name, j) :: rest, hj, depth, text, ts, first, h => by
    simp only [membersPlain, Bool.and_eq_true] at hj
    have hcolon := ((h.nextLine first depth).text name).colon
    have hrest := scan_prettyMembers hj.2 depth false (scan_pretty hj.1 depth hcolon)
    simp only [prettyMembers, memberTokens, List.reverse_append, List.reverse_cons,
      List.append_assoc]
    exact hrest

end

/-- **A plain value is read back from several lines.** -/
theorem parse?_pretty {j : Json} (h : j.isPlain num.readsBack = true) :
    parse? num (j.pretty num) = some j := by
  have hempty : Between num "" [] := .nil
  have hscanned := scan_pretty h 0 hempty
  rw [List.append_nil] at hscanned
  exact parse?_of_scanned h hscanned

end CoLang.Json
