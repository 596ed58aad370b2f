import LosslessSyntax.Session.Lineage

namespace LosslessSyntax

structure Edit where
  path : Path
  expected : Option Green
  replacement : Green

structure Target where
  path : Path
  range : TextRange
  replacement : Green

namespace Edit

def atPath (path : Path) (replacement : Green) : Edit := ⟨path, none, replacement⟩

def resolve (e : Edit) : Nav Target := do
  let id ← Session.resolve e.path
  let p ← Nav.placement id
  match e.expected with
  | some expected =>
      if p.green.same expected then pure ()
      else Nav.fail (.illegalShape p.kind (.staleTarget e.path))
  | none => pure ()
  let range ← Nav.ofExcept p.textRange
  pure ⟨e.path, range, e.replacement⟩

def resolveAll : List Edit → Nav (List Target)
  | [] => pure []
  | e :: es => do
      let target ← e.resolve
      let targets ← resolveAll es
      pure (target :: targets)

end Edit

namespace Target

def insert (t : Target) : List Target → List Target
  | [] => [t]
  | u :: us => if compare t.path u.path = .gt then u :: insert t us else t :: u :: us

def sort : List Target → List Target
  | [] => []
  | t :: ts => insert t (sort ts)

def conflicts (t u : Target) : Bool := t.path.isPrefixOf u.path || t.range.sharesByte u.range

/-- The first two neighbours in conflict. A path sorts directly before its extensions, so that
every conflict shows between some neighbours. -/
def conflict? : List Target → Option (Target × Target)
  | t :: u :: us => if t.conflicts u then some (t, u) else conflict? (u :: us)
  | _ => none

def step (depth : Nat) (t : Target) :
    Mint { index : Nat // t.path.indices[depth]? = some index } :=
  match t.path.indices[depth]? with
  | some index => pure ⟨index, rfl⟩
  | none => Mint.fail (.aborted .badIndex)

/-- The targets that go on through the same child as `t`, and those that follow them. -/
structure Chunk (depth : Nat) (t : Target) (ts : List Target) where
  index : Nat
  group : List Target
  rest : List Target
  step : t.path.indices[depth]? = some index
  split : group ++ rest = ts

def chunk (depth : Nat) (t : Target) : (ts : List Target) → Mint (Chunk depth t ts)
  | [] => do
      let ⟨index, step⟩ ← t.step depth
      pure ⟨index, [], [], step, rfl⟩
  | u :: us => do
      let ⟨index, step⟩ ← t.step depth
      if index = (← u.step depth).val then
        let next ← chunk depth u us
        pure ⟨index, u :: next.group, next.rest, step, congrArg (u :: ·) next.split⟩
      else pure ⟨index, [], u :: us, step, rfl⟩

/-- The length of the paths from `depth` on. It shrinks as the targets are split and followed. -/
def stepsLeft (depth : Nat) : List Target → Nat
  | [] => 0
  | t :: ts => t.path.depth - depth + stepsLeft depth ts

section StepsLeft

variable {t : Target} {ts : List Target} {depth : Nat}

theorem stepsLeft_append (depth : Nat) (ts us : List Target) :
    stepsLeft depth (ts ++ us) = stepsLeft depth ts + stepsLeft depth us := by
  induction ts with
  | nil => exact (Nat.zero_add _).symm
  | cons t ts ih => rw [List.cons_append, stepsLeft, stepsLeft, ih, Nat.add_assoc]

theorem stepsLeft_succ_le (depth : Nat) (ts : List Target) :
    stepsLeft (depth + 1) ts ≤ stepsLeft depth ts := by
  induction ts with
  | nil => exact Nat.le_refl _
  | cons t ts ih =>
      rw [stepsLeft, stepsLeft]
      omega

namespace Chunk

theorem depth_lt (c : Chunk depth t ts) : depth < t.path.depth :=
  (List.getElem?_eq_some_iff.mp c.step).1

theorem stepsLeft_eq (c : Chunk depth t ts) :
    stepsLeft depth c.group + stepsLeft depth c.rest = stepsLeft depth ts := by
  rw [← stepsLeft_append, c.split]

theorem stepsLeft_group_lt (c : Chunk depth t ts) :
    stepsLeft (depth + 1) (t :: c.group) < stepsLeft depth (t :: ts) := by
  have hlt := c.depth_lt
  have hle := stepsLeft_succ_le depth c.group
  rw [stepsLeft, stepsLeft, ← c.stepsLeft_eq]
  omega

theorem stepsLeft_rest_lt (c : Chunk depth t ts) :
    stepsLeft depth c.rest < stepsLeft depth (t :: ts) := by
  have hlt := c.depth_lt
  rw [stepsLeft, ← c.stepsLeft_eq]
  omega

end Chunk

end StepsLeft

mutual

def splice (node : Green) (depth : Nat) (ts : List Target) : Mint Green := do
  let children ← spliceGroups node depth node.children ts
  Green.assemble node.kind children node.diagnostics
termination_by 2 * stepsLeft depth ts + 1

def spliceGroups (node : Green) (depth : Nat) (children : List Green) :
    List Target → Mint (List Green)
  | [] => pure children
  | t :: ts => do
      let chunk ← chunk depth t ts
      match children[chunk.index]? with
      | none =>
          Mint.fail (.rejected (.childOutOfRange node.kind chunk.index children.length))
      | some slot =>
          let slot ←
            (if t.path.depth = depth + 1 then pure t.replacement
            else if slot.isNode then splice slot (depth + 1) (t :: chunk.group)
            else Mint.fail (.rejected (.invalidPath t.path (depth + 1))))
          spliceGroups node depth (children.set chunk.index slot) chunk.rest
termination_by ts => 2 * stepsLeft depth ts
decreasing_by
  · have hlt := chunk.stepsLeft_group_lt
    omega
  · have hlt := chunk.stepsLeft_rest_lt
    omega

end

def replaceAll (root : Green) : List Target → Mint Green
  | [] => pure root
  | t :: ts =>
      if t.path.isRoot then
        if t.replacement.isNode then pure t.replacement
        else Mint.fail (.illegalShape t.replacement.kind .rootReplacedByToken)
      else splice root 0 (t :: ts)

end Target

namespace Session

def validate (edits : List Edit) : Nav (List Target) := do
  let targets ← Edit.resolveAll edits
  let sorted := Target.sort targets
  match Target.conflict? sorted with
  | some (t, u) => Nav.fail (.rejected (.overlappingEdit t.range u.range))
  | none => pure sorted

def apply (edits : List Edit) (supply : Supply) : Nav (Session × Supply) := do
  let targets ← validate edits
  let s ← get
  Nav.ofExcept ((do ofRoot (← Target.replaceAll s.root targets)).run supply)

def editAt (s : Session) (id : Nat) (replacement : Green) : Edit where
  path := s.path id
  expected := s.placements[id]?.map Placement.green
  replacement

end Session

end LosslessSyntax
