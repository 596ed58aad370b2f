import LosslessSyntax.Session.Step

namespace LosslessSyntax

namespace Placement

def tokenTextRange (p : Placement) : Except Failure TextRange :=
  match p.green with
  | .token _ shape _ => do
      let start ← Checked.sum p.offset shape.leading
      Checked.rangeOfLength start shape.text
  | .node _ _ _ _ _ => p.textRange

def leadingRange (p : Placement) : Except Failure TextRange :=
  match p.green with
  | .token _ shape _ => Checked.rangeOfLength p.offset shape.leading
  | .node _ _ _ _ _ => .ok (TextRange.emptyAt p.offset)

def trailingRange (p : Placement) : Except Failure TextRange :=
  match p.green with
  | .token _ shape _ => do
      let text ← p.tokenTextRange
      Checked.rangeOfLength text.stop shape.trailing
  | .node _ _ _ _ _ => do
      let range ← p.textRange
      pure (TextRange.emptyAt range.stop)

end Placement

namespace Session

def isPresent (g : Green) : Bool := !g.isMissing

def trimmedRange (id : Nat) : Nav TextRange := do
  let p ← Nav.placement id
  if p.isNode then
    let first ← firstTokenIn isPresent id p.green
    let last ← lastTokenIn isPresent id p.green
    match first, last with
    | some first, some last => do
        let first ← Nav.placement first
        let last ← Nav.placement last
        let opening ← Nav.ofExcept first.tokenTextRange
        let closing ← Nav.ofExcept last.tokenTextRange
        Nav.ofExcept (Checked.rangeOfBounds opening.start closing.stop)
    | _, _ => pure (TextRange.emptyAt p.offset)
  else Nav.ofExcept p.tokenTextRange

def text (id : Nat) (source : String) : Nav String := do
  let p ← Nav.placement id
  let range ← Nav.ofExcept p.textRange
  Nav.ofExcept (Checked.slice range source)

def trimmedText (id : Nat) (source : String) : Nav String := do
  let range ← trimmedRange id
  Nav.ofExcept (Checked.slice range source)

end Session

end LosslessSyntax
