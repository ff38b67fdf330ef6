import CoLang.Frame
/-!
# Statements and their parts

A test of statements may be made of all that stands in one, however deep (`Stmt.all`). What is found
of a statement so is found of its parts too (`Hereditary`).
-/

namespace CoLang

/-- A property of statements that passes to their parts. -/
structure Hereditary (P : Stmt → Prop) : Prop where
  thenBody : ∀ {cond thenBody elseBody}, P (.ifElse cond thenBody elseBody) → ∀ s ∈ thenBody, P s
  elseBody : ∀ {cond thenBody elseBody}, P (.ifElse cond thenBody (some elseBody)) →
    ∀ s ∈ elseBody, P s
  body : ∀ {cond body}, P (.whileLoop cond body) → ∀ s ∈ body, P s

mutual

/-- Whether a statement and all that stands in it, however deep, passes a test. -/
def Stmt.all (p : Stmt → Bool) : Stmt → Bool
  | .ifElse cond thenBody elseBody =>
    p (.ifElse cond thenBody elseBody) && Stmt.allBlock p thenBody && Stmt.allElse p elseBody
  | .whileLoop cond body => p (.whileLoop cond body) && Stmt.allBlock p body
  | s => p s

def Stmt.allBlock (p : Stmt → Bool) : List Stmt → Bool
  | [] => true
  | s :: rest => s.all p && Stmt.allBlock p rest

def Stmt.allElse (p : Stmt → Bool) : Option (List Stmt) → Bool
  | none => true
  | some body => Stmt.allBlock p body

end

theorem Stmt.allBlock_iff {p : Stmt → Bool} {body : Block} :
    Stmt.allBlock p body = true ↔ ∀ s ∈ body, s.all p = true := by
  induction body with
  | nil => simp [Stmt.allBlock]
  | cons s rest ih => simp [Stmt.allBlock, ih]

theorem Stmt.of_all {p : Stmt → Bool} {s : Stmt} (h : s.all p = true) : p s = true := by
  cases s with
  | ifElse cond thenBody elseBody =>
    simp only [Stmt.all, Bool.and_eq_true] at h
    exact h.1.1
  | whileLoop cond body =>
    simp only [Stmt.all, Bool.and_eq_true] at h
    exact h.1
  | _ => exact h

theorem hereditary_all (p : Stmt → Bool) : Hereditary fun s => s.all p = true where
  thenBody h := by
    simp only [Stmt.all, Bool.and_eq_true] at h
    exact Stmt.allBlock_iff.1 h.1.2
  elseBody h := by
    simp only [Stmt.all, Stmt.allElse, Bool.and_eq_true] at h
    exact Stmt.allBlock_iff.1 h.2
  body h := by
    simp only [Stmt.all, Bool.and_eq_true] at h
    exact Stmt.allBlock_iff.1 h.2

/-- The statements that a frame runs have a property. -/
def FrameNode.All (P : Stmt → Prop) : FrameNode → Prop
  | .block body => ∀ s ∈ body, P s
  | .stmt s => P s

end CoLang
