import LosslessSyntax.Session.Lineage

namespace LosslessSyntax

namespace Session

def firstChild (id : Nat) : Nav (Option Nat) := do
  let p ← Nav.placement id
  if p.green.children.isEmpty then pure none else child id 0

def lastChild (id : Nat) : Nav (Option Nat) := do
  let p ← Nav.placement id
  if p.green.children.isEmpty then pure none else child id (p.green.children.length - 1)

def nextSibling (id : Nat) : Nav (Option Nat) := do
  let p ← Nav.placement id
  match p.parent with
  | none => pure none
  | some parent => child parent (p.index + 1)

def prevSibling (id : Nat) : Nav (Option Nat) := do
  let p ← Nav.placement id
  match p.index, p.parent with
  | index + 1, some parent => child parent index
  | _, _ => pure none

mutual

def firstTokenIn (accept : Green → Bool) (id : Nat) : Green → Nav (Option Nat)
  | .token i s ds => pure (if accept (.token i s ds) then some id else none)
  | .node _ _ _ cs _ => firstTokenAmong accept id 0 cs

def firstTokenAmong (accept : Green → Bool) (parent index : Nat) : List Green → Nav (Option Nat)
  | [] => pure none
  | c :: cs => do
      match ← child parent index with
      | none => pure none
      | some id =>
          match ← firstTokenIn accept id c with
          | some token => pure (some token)
          | none => firstTokenAmong accept parent (index + 1) cs

end

mutual

def lastTokenIn (accept : Green → Bool) (id : Nat) : Green → Nav (Option Nat)
  | .token i s ds => pure (if accept (.token i s ds) then some id else none)
  | .node _ _ _ cs _ => lastTokenAmong accept id 0 cs

def lastTokenAmong (accept : Green → Bool) (parent index : Nat) : List Green → Nav (Option Nat)
  | [] => pure none
  | c :: cs => do
      match ← lastTokenAmong accept parent (index + 1) cs with
      | some token => pure (some token)
      | none =>
          match ← child parent index with
          | none => pure none
          | some id => lastTokenIn accept id c

end

def firstToken (id : Nat) : Nav (Option Nat) := do
  let p ← Nav.placement id
  firstTokenIn (fun _ => true) id p.green

def lastToken (id : Nat) : Nav (Option Nat) := do
  let p ← Nav.placement id
  lastTokenIn (fun _ => true) id p.green

def nextToken (id : Nat) : Nav (Option Nat) := do
  let p ← Nav.placement id
  match p.parent with
  | none => pure none
  | some parent => do
      let above ← Nav.placement parent
      let later := above.green.children.drop (p.index + 1)
      match ← firstTokenAmong (fun _ => true) parent (p.index + 1) later with
      | some token => pure (some token)
      | none => if parent < id then nextToken parent else pure none
termination_by id

def prevToken (id : Nat) : Nav (Option Nat) := do
  let p ← Nav.placement id
  match p.parent with
  | none => pure none
  | some parent => do
      let above ← Nav.placement parent
      let earlier := above.green.children.take p.index
      match ← lastTokenAmong (fun _ => true) parent 0 earlier with
      | some token => pure (some token)
      | none => if parent < id then prevToken parent else pure none
termination_by id

end Session

end LosslessSyntax
