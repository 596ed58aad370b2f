import LosslessSyntax.Session.Basic

namespace LosslessSyntax

structure ChildQueue where
  parent : Nat
  front : Nat
  back : Nat
  front_le_back : front ≤ back

namespace ChildQueue

def ofNode (id : Nat) : Nav ChildQueue := do
  let p ← Nav.placement id
  pure ⟨id, 0, p.green.children.length, Nat.zero_le _⟩

def size (q : ChildQueue) : Nat := q.back - q.front

def dropFront (q : ChildQueue) (h : q.front ≠ q.back) : ChildQueue where
  parent := q.parent
  front := q.front + 1
  back := q.back
  front_le_back := Nat.lt_of_le_of_ne q.front_le_back h

def dropBack (q : ChildQueue) (h : q.front ≠ q.back) : ChildQueue where
  parent := q.parent
  front := q.front
  back := q.back - 1
  front_le_back := Nat.le_sub_one_of_lt (Nat.lt_of_le_of_ne q.front_le_back h)

def next (q : ChildQueue) : Nav (Option Nat × ChildQueue) := do
  if h : q.front = q.back then pure (none, q)
  else
    match ← Session.child q.parent q.front with
    | some id => pure (some id, q.dropFront h)
    | none => pure (none, q)

def nextBack (q : ChildQueue) : Nav (Option Nat × ChildQueue) := do
  if h : q.front = q.back then pure (none, q)
  else
    match ← Session.child q.parent (q.back - 1) with
    | some id => pure (some id, q.dropBack h)
    | none => pure (none, q)

def nextWhere (take : ChildQueue → Nav (Option Nat × ChildQueue)) (accept : Placement → Bool) :
    Nat → ChildQueue → Nav (Option Nat × ChildQueue)
  | 0, q => pure (none, q)
  | limit + 1, q => do
      match ← take q with
      | (none, q) => pure (none, q)
      | (some id, q) =>
          let p ← Nav.placement id
          if accept p then pure (some id, q) else nextWhere take accept limit q

def nextNode (q : ChildQueue) : Nav (Option Nat × ChildQueue) :=
  nextWhere next Placement.isNode q.size q

def nextNodeBack (q : ChildQueue) : Nav (Option Nat × ChildQueue) :=
  nextWhere nextBack Placement.isNode q.size q

def takeAll (take : ChildQueue → Nav (Option Nat × ChildQueue)) : Nat → ChildQueue → Nav (List Nat)
  | 0, _ => pure []
  | limit + 1, q => do
      match ← take q with
      | (none, _) => pure []
      | (some id, q) => do
          let rest ← takeAll take limit q
          pure (id :: rest)

def drain (take : ChildQueue → Nav (Option Nat × ChildQueue)) (q : ChildQueue) : Nav (List Nat) :=
  takeAll take q.size q

end ChildQueue

end LosslessSyntax
