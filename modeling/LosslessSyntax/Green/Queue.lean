import LosslessSyntax.Green.Basic

namespace LosslessSyntax

structure GreenQueue where
  remaining : List Green

namespace GreenQueue

def ofNode (g : Green) : GreenQueue := ⟨g.children⟩

def size (q : GreenQueue) : Nat := q.remaining.length

def next (q : GreenQueue) : Option Green × GreenQueue :=
  match q.remaining with
  | [] => (none, q)
  | c :: cs => (some c, ⟨cs⟩)

def nextBack (q : GreenQueue) : Option Green × GreenQueue :=
  match q.remaining.getLast? with
  | none => (none, q)
  | some c => (some c, ⟨q.remaining.dropLast⟩)

end GreenQueue

end LosslessSyntax
