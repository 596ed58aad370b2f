import LosslessSyntax.Checked
import LosslessSyntax.Green.Build
import LosslessSyntax.Session.Arena

namespace LosslessSyntax

structure Placement where
  green : Green
  offset : Nat
  parent : Option Nat
  index : Nat
  memo : Array (Option Nat)
  deriving Repr

structure Session where
  stamp : Nat
  root : Green
  placements : Array Placement
  deriving Repr

/-- What is done in a session may record placements even if it fails later on. -/
abbrev Nav := EStateM Failure Session

namespace Nav

def ofExcept {α : Type} : Except Failure α → Nav α
  | .ok a => fun s => .ok a s
  | .error e => fun s => .error e s

def fail {α : Type} (e : Failure) : Nav α := fun s => .error e s

def answer {α : Type} (m : Nav α) (s : Session) : Except Failure α :=
  match m s with
  | .ok a _ => .ok a
  | .error e _ => .error e

def placement (id : Nat) : Nav Placement := fun s =>
  match s.placements[id]? with
  | some p => .ok p s
  | none => .error (.aborted (.unknownPlacement id)) s

end Nav

namespace Placement

def make (green : Green) (offset : Nat) (parent : Option Nat) (index : Nat) : Placement where
  green
  offset
  parent
  index
  memo := Array.replicate green.children.length none

def kind (p : Placement) : Kind := p.green.kind

def isNode (p : Placement) : Bool := p.green.isNode

def textRange (p : Placement) : Except Failure TextRange := do
  let width ← p.green.checkedWidth
  Checked.rangeOfLength p.offset width

def display (p : Placement) : Except Failure String := do
  let range ← p.textRange
  pure (p.kind.name ++ "@" ++ range.display ++ if p.green.isMissing then " missing" else "")

end Placement

namespace Session

def rootId : Nat := 0

def ofRoot (root : Green) : Mint Session := do
  let stamp ← Mint.stamp
  pure { stamp, root, placements := #[Placement.make root 0 none 0] }

def placementCount (s : Session) : Nat := s.placements.size

def display (s : Session) : String :=
  "SyntaxTree \x7b root: " ++ s.root.kind.name ++ ", width: " ++ toString s.root.width ++
    ", .. \x7d"

/-- A request refused because the arena is full leaves no trace here. A counter that reserves the
index first counts it as well, and stands above the number of placements from then on. -/
def allot (p : Placement) : Nav Nat := fun s =>
  if Arena.admits s.placements.size then
    .ok s.placements.size { s with placements := s.placements.push p }
  else .error (.aborted .arenaFull) s

def remember (parent index id : Nat) : Nav Unit := fun s =>
  .ok () { s with
    placements := s.placements.modify parent fun p =>
      { p with memo := p.memo.setIfInBounds index (some id) } }

def child (parent index : Nat) : Nav (Option Nat) := do
  let p ← Nav.placement parent
  match p.memo[index]? with
  | none => pure none
  | some (some id) => pure (some id)
  | some none =>
      match p.green.slot? index with
      | none => pure none
      | some (start, green) => do
          let offset ← Nav.ofExcept (Checked.sum p.offset start)
          let id ← allot (Placement.make green offset (some parent) index)
          remember parent index id
          pure (some id)

def childAt (parent index : Nat) : Nav Nat := do
  match ← child parent index with
  | some id => pure id
  | none =>
      let p ← Nav.placement parent
      Nav.fail (.rejected (.childOutOfRange p.kind index p.green.children.length))

def descendFrom (path : Path) (depth : Nat) (id : Nat) : List Nat → Nav Nat
  | [] => pure id
  | i :: is => do
      match ← child id i with
      | none => Nav.fail (.rejected (.invalidPath path depth))
      | some c => descendFrom path (depth + 1) c is

def resolve (path : Path) : Nav Nat := descendFrom path 0 rootId path.indices

end Session

end LosslessSyntax
