import LosslessSyntax.Green.Basic

namespace LosslessSyntax

structure Supply where
  next : Nat
  deriving DecidableEq, Repr

abbrev Mint := StateT Supply (Except Failure)

namespace Mint

def stamp : Mint Nat := fun supply => .ok (supply.next, ⟨supply.next + 1⟩)

def ofExcept {α : Type} : Except Failure α → Mint α
  | .ok a => fun supply => .ok (a, supply)
  | .error e => fun _ => .error e

def fail {α : Type} (e : Failure) : Mint α := fun _ => .error e

end Mint

namespace Green

def ofShape (shape : TokenShape) : Mint Green := do
  let stamp ← Mint.stamp
  pure (token stamp shape [])

def layOut (kind : Kind) (start : Nat) : List Green → Except Failure (List Nat × Nat)
  | [] => .ok ([], start)
  | c :: cs => do
      let width ← c.checkedWidth
      match addSizes? start width with
      | none => .error (.illegalShape kind .widthOverflow)
      | some stop =>
          let (starts, last) ← layOut kind stop cs
          pure (start :: starts, last)

def assemble (kind : Kind) (children : List Green) (diagnostics : List Diagnostic) :
    Mint Green := do
  let (starts, width) ← Mint.ofExcept (layOut kind 0 children)
  let stamp ← Mint.stamp
  pure (node stamp kind
    { width
      starts
      containsMissing := children.any containsMissing
      containsDiagnostics := !diagnostics.isEmpty || children.any containsDiagnostics }
    children diagnostics)

def ofChildren (kind : Kind) (children : List Green) : Mint Green := assemble kind children []

def ofFittingChildren (kind : Kind) (children : List Green) : Mint Green := fun supply =>
  match ofChildren kind children supply with
  | .error (.rejected e) => .error (.aborted (.refusedNode e))
  | outcome => outcome

def replaceChild (g : Green) (index : Nat) (replacement : Green) : Mint Green := do
  let _ ← Mint.ofExcept (g.childAt index)
  assemble g.kind (g.children.set index replacement) g.diagnostics

def attach (g : Green) (d : Diagnostic) : Mint Green := do
  let stamp ← Mint.stamp
  match g with
  | token _ shape ds => pure (token stamp shape (ds ++ [d]))
  | node _ kind summary cs ds =>
      let ds := ds ++ [d]
      let summary :=
        { summary with containsDiagnostics := !ds.isEmpty || cs.any containsDiagnostics }
      pure (node stamp kind summary cs ds)

def attachAll (g : Green) : List Diagnostic → Mint Green
  | [] => pure g
  | d :: ds => do
      let g ← g.attach d
      g.attachAll ds

end Green

end LosslessSyntax
