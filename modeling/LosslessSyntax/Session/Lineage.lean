import LosslessSyntax.Session.Basic

namespace LosslessSyntax

namespace Session

def lineage (s : Session) (id : Nat) : List (Nat × Placement) :=
  match s.placements[id]? with
  | none => []
  | some p =>
      (id, p) ::
        match p.parent with
        | none => []
        | some parent => if parent < id then s.lineage parent else []
termination_by id

def stepOf (entry : Nat × Placement) : Option Nat :=
  entry.2.parent.map fun _ => entry.2.index

def path (s : Session) (id : Nat) : Path := ⟨((s.lineage id).filterMap stepOf).reverse⟩

def parent? (s : Session) (id : Nat) : Option Nat := s.placements[id]?.bind Placement.parent

def indexInParent? (s : Session) (id : Nat) : Option Nat :=
  s.placements[id]?.bind fun p => stepOf (id, p)

def ancestors (s : Session) (id : Nat) : List Nat := (s.lineage id).map Prod.fst

def equivalent (s : Session) (i : Nat) (t : Session) (j : Nat) : Bool :=
  if s.stamp == t.stamp && i == j then true
  else
    match s.placements[i]?, t.placements[j]? with
    | some p, some q =>
        if p.offset != q.offset || !p.green.same q.green then false
        else
          match p.parent, q.parent with
          | none, none => true
          | some above, some beside => if above < i then s.equivalent above t beside else false
          | _, _ => false
    | _, _ => false
termination_by i

def equalElements (s : Session) (i : Nat) (t : Session) (j : Nat) : Bool :=
  s.placements[i]?.map Placement.isNode == t.placements[j]?.map Placement.isNode &&
    s.equivalent i t j

def hashKey (s : Session) (id : Nat) : Option (Kind × Nat) :=
  s.placements[id]?.map fun p => (p.kind, p.offset)

end Session

end LosslessSyntax
