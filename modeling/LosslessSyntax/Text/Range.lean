namespace LosslessSyntax

def maxSize : Nat := 4294967295

def addSizes? (a b : Nat) : Option Nat :=
  if a + b ≤ maxSize then some (a + b) else none

theorem addSizes?_eq_some_iff {a b c : Nat} :
    addSizes? a b = some c ↔ a + b = c ∧ c ≤ maxSize := by
  simp only [addSizes?]
  split
  · simp only [Option.some.injEq]
    omega
  · simp only [reduceCtorEq, false_iff]
    omega

structure TextRange where
  start : Nat
  stop : Nat
  start_le_stop : start ≤ stop
  deriving DecidableEq, Repr

namespace TextRange

def ofBounds? (start stop : Nat) : Option TextRange :=
  if h : start ≤ stop then some ⟨start, stop, h⟩ else none

def ofLength? (start length : Nat) : Option TextRange :=
  if start + length ≤ maxSize then some ⟨start, start + length, Nat.le_add_right ..⟩ else none

def emptyAt (start : Nat) : TextRange := ⟨start, start, Nat.le_refl _⟩

def length (r : TextRange) : Nat := r.stop - r.start

def isEmpty (r : TextRange) : Bool := r.start == r.stop

def touches (r : TextRange) (offset : Nat) : Bool :=
  decide (r.start ≤ offset) && decide (offset ≤ r.stop)

def covers (r s : TextRange) : Bool :=
  decide (r.start ≤ s.start) && decide (s.stop ≤ r.stop)

def sharesByte (r s : TextRange) : Bool :=
  decide (max r.start s.start < min r.stop s.stop)

theorem sharesByte_iff {r s : TextRange} :
    r.sharesByte s = true ↔
      ∃ i, (r.start ≤ i ∧ i < r.stop) ∧ (s.start ≤ i ∧ i < s.stop) := by
  simp only [sharesByte, decide_eq_true_eq]
  constructor
  · intro h
    exact ⟨max r.start s.start, by omega, by omega⟩
  · rintro ⟨i, hr, hs⟩
    omega

def display (r : TextRange) : String := toString r.start ++ ".." ++ toString r.stop

end TextRange

end LosslessSyntax
