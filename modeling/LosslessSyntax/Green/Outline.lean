import LosslessSyntax.Checked
import LosslessSyntax.Green.Basic

namespace LosslessSyntax

inductive Detail where
  | node
  | missing
  | lengths (leading text trailing : Nat)
  deriving DecidableEq, Repr

inductive OutlineLine where
  | element (depth : Nat) (kind : Kind) (start stop : Nat) (detail : Detail)
  | note (depth : Nat) (diagnostic : Diagnostic)
  deriving DecidableEq, Repr

def Detail.display : Detail → String
  | node => ""
  | missing => " missing"
  | lengths leading text trailing =>
      " [" ++ toString leading ++ "+" ++ toString text ++ "+" ++ toString trailing ++ "]"

def indent (depth : Nat) : String := String.ofList (List.replicate (2 * depth) ' ')

def OutlineLine.display : OutlineLine → String
  | element depth kind start stop detail =>
      indent depth ++ kind.name ++ "@" ++ toString start ++ ".." ++ toString stop ++
        detail.display
  | note depth d => indent depth ++ "! " ++ d.display

namespace Green

def detail : Green → Detail
  | node _ _ _ _ _ => .node
  | token _ s _ => if s.missing then .missing else .lengths s.leading s.text s.trailing

def headLines (g : Green) (start depth : Nat) : Except Failure (List OutlineLine) := do
  let width ← g.checkedWidth
  let stop ← Checked.sum start width
  pure (.element depth g.kind start stop g.detail :: g.diagnostics.map (.note (depth + 1)))

mutual

def outlineFrom (start depth : Nat) : Green → Except Failure (List OutlineLine)
  | token i s ds => headLines (token i s ds) start depth
  | node i k summary cs ds => do
      let above ← headLines (node i k summary cs ds) start depth
      let below ← outlinesFrom start (depth + 1) summary.starts cs
      pure (above ++ below)

def outlinesFrom (start depth : Nat) : List Nat → List Green → Except Failure (List OutlineLine)
  | offset :: offsets, c :: cs => do
      let first ← Checked.sum start offset
      let above ← outlineFrom first depth c
      let below ← outlinesFrom start depth offsets cs
      pure (above ++ below)
  | _, _ => pure []

end

def outline (g : Green) : Except Failure (List OutlineLine) := outlineFrom 0 0 g

def dump (g : Green) : Except Failure String := do
  let lines ← g.outline
  pure (String.join (lines.map fun line => line.display ++ "\n"))

end Green

end LosslessSyntax
