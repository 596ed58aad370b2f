import LosslessSyntax.Session.Step

namespace LosslessSyntax

inductive Event where
  | enter (id : Nat)
  | leave (id : Nat)
  deriving DecidableEq, Repr

def Event.placement : Event → Nat
  | enter id => id
  | leave id => id

structure Walk where
  start : Nat
  upcoming : Option Event
  skipping : Bool
  deriving DecidableEq, Repr

namespace Walk

def ofNode (start : Nat) : Walk := ⟨start, some (.enter start), false⟩

/-- The next event will be that of leaving the parent of the element about to be entered. -/
def skipSubtree (w : Walk) : Walk := { w with skipping := true }

def skipped : Option Event → Nav (Option Event)
  | some (.enter id) => do
      let p ← Nav.placement id
      pure (p.parent.map .leave)
  | upcoming => pure upcoming

def following (start : Nat) : Event → Nav (Option Event)
  | .enter id => do
      let p ← Nav.placement id
      if p.isNode then
        match ← Session.firstChild id with
        | some first => pure (some (.enter first))
        | none => pure (some (.leave id))
      else pure (some (.leave id))
  | .leave id => do
      let s ← get
      if s.equivalent id s start then pure none
      else
        match ← Session.nextSibling id with
        | some sibling => pure (some (.enter sibling))
        | none =>
            let p ← Nav.placement id
            pure (p.parent.map .leave)

def next (w : Walk) : Nav (Option Event × Walk) := do
  let event ← if w.skipping then skipped w.upcoming else pure w.upcoming
  match event with
  | none => pure (none, ⟨w.start, none, false⟩)
  | some e =>
      let upcoming ← following w.start e
      pure (some e, ⟨w.start, upcoming, false⟩)

def nextNode : Nat → Walk → Nav (Option Event × Walk)
  | 0, w => pure (none, w)
  | limit + 1, w => do
      match ← w.next with
      | (none, w) => pure (none, w)
      | (some e, w) =>
          let p ← Nav.placement e.placement
          if p.isNode then pure (some e, w) else nextNode limit w

def run {σ : Type} (step : Walk → Nav (Option Event × Walk))
    (visit : Event → σ → Nav (σ × Bool)) : Nat → Walk → σ → Nav σ
  | 0, _, state => pure state
  | limit + 1, w, state => do
      match ← step w with
      | (none, _) => pure state
      | (some e, w) =>
          let (state, skip) ← visit e state
          run step visit limit (if skip then w.skipSubtree else w) state

/-- No walk has more events than the whole tree around its start, where every element is entered
once and left once. -/
def bound (s : Session) (start : Nat) : Nat :=
  match (s.lineage start).getLast? with
  | none => 0
  | some (_, p) => 2 * p.green.size + 1

end Walk

namespace Session

def walk {σ : Type} (w : Walk) (visit : Event → σ → Nav (σ × Bool)) (state : σ) : Nav σ := do
  let s ← get
  Walk.run Walk.next visit (Walk.bound s w.start) w state

def walkNodes {σ : Type} (w : Walk) (visit : Event → σ → Nav (σ × Bool)) (state : σ) : Nav σ := do
  let s ← get
  Walk.run (Walk.nextNode (Walk.bound s w.start)) visit (Walk.bound s w.start) w state

def keepEntered (keep : Placement → Bool) : Event → List Nat → Nav (List Nat × Bool)
  | .enter id, found => do
      let p ← Nav.placement id
      pure (if keep p then id :: found else found, false)
  | .leave _, found => pure (found, false)

def descendants (id : Nat) : Nav (List Nat) := do
  let found ← walkNodes (Walk.ofNode id) (keepEntered fun _ => true) []
  pure found.reverse

def descendantsWithTokens (id : Nat) : Nav (List Nat) := do
  let found ← walk (Walk.ofNode id) (keepEntered fun _ => true) []
  pure found.reverse

def descendantTokens (id : Nat) : Nav (List Nat) := do
  let found ← walk (Walk.ofNode id) (keepEntered fun p => !p.isNode) []
  pure found.reverse

end Session

end LosslessSyntax
