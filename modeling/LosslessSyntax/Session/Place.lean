import LosslessSyntax.Session.Basic

namespace LosslessSyntax

namespace Session

def occurrences (p : Placement) (green : Green) (offset : Nat) :
    Nat → Nat → List Nat → List Green → Except Failure (List Nat)
  | limit + 1, index, start :: starts, c :: cs =>
      if c.same green then do
        let position ← Checked.sum p.offset start
        if position = offset then
          let rest ← occurrences p green offset limit (index + 1) starts cs
          pure (index :: rest)
        else occurrences p green offset (limit + 1) (index + 1) starts cs
      else occurrences p green offset (limit + 1) (index + 1) starts cs
  | _, _, _, _ => pure []

def placeBelow (green : Green) (offset parent : Nat) : Nav Nat := do
  let p ← Nav.placement parent
  match ← Nav.ofExcept (occurrences p green offset 2 0 p.green.starts p.green.children) with
  | [] => Nav.fail (.illegalShape p.kind (.noSuchChild green.kind offset))
  | [index] => childAt parent index
  | first :: second :: _ =>
      Nav.fail (.illegalShape p.kind (.ambiguousChild green.kind offset first second))

def placeDetached (green : Green) (offset : Nat) : Nav Nat :=
  allot (Placement.make green offset none 0)

def place (green : Green) (offset : Nat) : Option (Session × Nat) → Nav Nat
  | none => placeDetached green offset
  | some (owner, parent) => do
      let s ← get
      if owner.stamp = s.stamp then placeBelow green offset parent
      else
        match owner.placements[parent]? with
        | some p => Nav.fail (.illegalShape p.kind .foreignParent)
        | none => Nav.fail (.aborted (.unknownPlacement parent))

end Session

end LosslessSyntax
