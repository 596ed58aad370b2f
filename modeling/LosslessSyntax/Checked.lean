import LosslessSyntax.Failure
import LosslessSyntax.Text.Slice

namespace LosslessSyntax

namespace Checked

def sum (a b : Nat) : Except Failure Nat :=
  match addSizes? a b with
  | some c => .ok c
  | none => .error (.aborted .sizeOverflow)

theorem sum_eq_ok_iff {a b c : Nat} : sum a b = .ok c ↔ a + b = c ∧ c ≤ maxSize := by
  rw [← addSizes?_eq_some_iff]
  simp only [sum]
  cases addSizes? a b <;> simp

def rangeOfLength (start length : Nat) : Except Failure TextRange :=
  match TextRange.ofLength? start length with
  | some range => .ok range
  | none => .error (.aborted .sizeOverflow)

def rangeOfBounds (start stop : Nat) : Except Failure TextRange :=
  match TextRange.ofBounds? start stop with
  | some range => .ok range
  | none => .error (.aborted .reversedRange)

def slice (range : TextRange) (source : String) : Except Failure String :=
  match range.slice? source with
  | some text => .ok text
  | none => .error (.aborted .badSlice)

end Checked

end LosslessSyntax
