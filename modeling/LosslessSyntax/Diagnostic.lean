import LosslessSyntax.Text.Range

namespace LosslessSyntax

inductive Severity where
  | error
  | warning
  | hint
  deriving DecidableEq, Repr, Hashable

namespace Severity

instance : Inhabited Severity := ⟨error⟩

def isError : Severity → Bool
  | error => true
  | _ => false

def name : Severity → String
  | error => "error"
  | warning => "warning"
  | hint => "hint"

def rank : Severity → Nat
  | error => 0
  | warning => 1
  | hint => 2

instance : Ord Severity where
  compare s t := compare s.rank t.rank

end Severity

structure Diagnostic where
  severity : Severity
  code : String
  message : String
  deriving DecidableEq, Repr, Hashable

def Diagnostic.display (d : Diagnostic) : String :=
  d.severity.name ++ "[" ++ d.code ++ "]: " ++ d.message

structure LocatedDiagnostic where
  range : TextRange
  diagnostic : Diagnostic
  deriving DecidableEq, Repr

def Diagnostic.locate (d : Diagnostic) (range : TextRange) : LocatedDiagnostic := ⟨range, d⟩

end LosslessSyntax
