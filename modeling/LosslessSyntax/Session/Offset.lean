import LosslessSyntax.Session.Lineage

namespace LosslessSyntax

inductive TokenAtOffset where
  | none
  | single (token : Nat)
  | between (left right : Nat)
  deriving DecidableEq, Repr

namespace TokenAtOffset

def rightBiased : TokenAtOffset → Option Nat
  | none => .none
  | single token => some token
  | between _ right => some right

def leftBiased : TokenAtOffset → Option Nat
  | none => .none
  | single token => some token
  | between left _ => some left

def toList : TokenAtOffset → List Nat
  | none => []
  | single token => [token]
  | between left right => [left, right]

def meet (left right : TokenAtOffset) : TokenAtOffset :=
  match left.leftBiased, right.rightBiased with
  | some l, some r => between l r
  | some l, .none => single l
  | .none, some r => single r
  | .none, .none => none

end TokenAtOffset

namespace Session

def touches (offset : Nat) (id : Nat) : Nav Bool := do
  let p ← Nav.placement id
  let range ← Nav.ofExcept p.textRange
  pure (!range.isEmpty && range.touches offset)

mutual

def tokenAtOffsetIn (offset : Nat) (id : Nat) : Green → Nav TokenAtOffset
  | .token _ _ _ => do
      if ← touches offset id then pure (.single id) else pure .none
  | .node _ _ _ cs _ => do
      if ← touches offset id then tokenAtOffsetAmong offset id 0 cs else pure .none

def tokenAtOffsetAmong (offset : Nat) (parent index : Nat) : List Green → Nav TokenAtOffset
  | [] => pure .none
  | c :: cs => do
      match ← child parent index with
      | none => pure .none
      | some id =>
          if ← touches offset id then
            let left ← tokenAtOffsetIn offset id c
            match ← laterTokenAtOffset offset parent (index + 1) cs with
            | none => pure left
            | some right => pure (left.meet right)
          else tokenAtOffsetAmong offset parent (index + 1) cs

def laterTokenAtOffset (offset : Nat) (parent index : Nat) :
    List Green → Nav (Option TokenAtOffset)
  | [] => pure none
  | c :: cs => do
      match ← child parent index with
      | none => pure none
      | some id =>
          if ← touches offset id then
            let right ← tokenAtOffsetIn offset id c
            pure (some right)
          else laterTokenAtOffset offset parent (index + 1) cs

end

def tokenAtOffset (id : Nat) (offset : Nat) : Nav TokenAtOffset := do
  let p ← Nav.placement id
  tokenAtOffsetIn offset id p.green

def coversRange (range : TextRange) (id : Nat) : Nav Bool := do
  let p ← Nav.placement id
  let own ← Nav.ofExcept p.textRange
  pure (!own.isEmpty && own.covers range)

mutual

def coveringIn (range : TextRange) (id : Nat) : Green → Nav Nat
  | .token _ _ _ => pure id
  | .node _ _ _ cs _ => coveringAmong range id 0 cs

def coveringAmong (range : TextRange) (parent index : Nat) : List Green → Nav Nat
  | [] => pure parent
  | c :: cs => do
      match ← child parent index with
      | none => pure parent
      | some id =>
          if ← coversRange range id then coveringIn range id c
          else coveringAmong range parent (index + 1) cs

end

def coveringElement (id : Nat) (range : TextRange) : Nav (Option Nat) := do
  let p ← Nav.placement id
  let own ← Nav.ofExcept p.textRange
  if own.covers range then
    let found ← coveringIn range id p.green
    pure (some found)
  else pure none

end Session

end LosslessSyntax
