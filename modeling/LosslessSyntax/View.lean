import LosslessSyntax.KindSet
import LosslessSyntax.Session.ChildQueue
import LosslessSyntax.Shape

namespace LosslessSyntax

namespace View

def elementAt (id index : Nat) : Nav (Option Nat) := Session.child id index

def onlyIf (accept : Placement → Bool) (found : Option Nat) : Nav (Option Nat) := do
  match found with
  | none => pure none
  | some id =>
      let p ← Nav.placement id
      pure (if accept p then some id else none)

def nodeAt (id index : Nat) : Nav (Option Nat) := do
  onlyIf Placement.isNode (← Session.child id index)

def tokenAt (id index : Nat) : Nav (Option Nat) := do
  onlyIf (fun p => !p.isNode) (← Session.child id index)

end View

structure ModulePart where
  node : Nat
  deriving DecidableEq, Repr

namespace ModulePart

def members (v : ModulePart) : Nav (Option Nat) := View.nodeAt v.node 0

def eofToken (v : ModulePart) : Nav (Option Nat) := View.tokenAt v.node 1

end ModulePart

structure AssignmentStatement where
  node : Nat
  deriving DecidableEq, Repr

namespace AssignmentStatement

def varRef (v : AssignmentStatement) : Nav (Option Nat) := View.nodeAt v.node 0

def equalsToken (v : AssignmentStatement) : Nav (Option Nat) := View.tokenAt v.node 1

def expression (v : AssignmentStatement) : Nav (Option Nat) := View.nodeAt v.node 2

def semicolonToken (v : AssignmentStatement) : Nav (Option Nat) := View.tokenAt v.node 3

end AssignmentStatement

structure ExpressionStatement where
  node : Nat
  deriving DecidableEq, Repr

namespace ExpressionStatement

def expression (v : ExpressionStatement) : Nav (Option Nat) := View.nodeAt v.node 0

def semicolonToken (v : ExpressionStatement) : Nav (Option Nat) := View.tokenAt v.node 1

end ExpressionStatement

structure ReturnStatement where
  node : Nat
  deriving DecidableEq, Repr

namespace ReturnStatement

def returnKeyword (v : ReturnStatement) : Nav (Option Nat) := View.tokenAt v.node 0

def expression (v : ReturnStatement) : Nav (Option Nat) := View.elementAt v.node 1

def semicolonToken (v : ReturnStatement) : Nav (Option Nat) := View.tokenAt v.node 2

end ReturnStatement

structure ReceiveAction where
  node : Nat
  deriving DecidableEq, Repr

namespace ReceiveAction

def leftArrow (v : ReceiveAction) : Nav (Option Nat) := View.tokenAt v.node 0

def receiveWorkers (v : ReceiveAction) : Nav (Option Nat) := View.nodeAt v.node 1

end ReceiveAction

structure ReceiveFields where
  node : Nat
  deriving DecidableEq, Repr

namespace ReceiveFields

def openBrace (v : ReceiveFields) : Nav (Option Nat) := View.tokenAt v.node 0

def receiveFields (v : ReceiveFields) : Nav (Option Nat) := View.nodeAt v.node 1

def closeBrace (v : ReceiveFields) : Nav (Option Nat) := View.tokenAt v.node 2

end ReceiveFields

structure ReceiveField where
  node : Nat
  deriving DecidableEq, Repr

namespace ReceiveField

def fieldName (v : ReceiveField) : Nav (Option Nat) := View.nodeAt v.node 0

def colon (v : ReceiveField) : Nav (Option Nat) := View.tokenAt v.node 1

def peerWorker (v : ReceiveField) : Nav (Option Nat) := View.nodeAt v.node 2

end ReceiveField

structure BinaryExpression where
  node : Nat
  deriving DecidableEq, Repr

namespace BinaryExpression

def lhsExpr (v : BinaryExpression) : Nav (Option Nat) := View.nodeAt v.node 0

def operator (v : BinaryExpression) : Nav (Option Nat) := View.tokenAt v.node 1

def rhsExpr (v : BinaryExpression) : Nav (Option Nat) := View.nodeAt v.node 2

end BinaryExpression

structure BracedExpression where
  node : Nat
  deriving DecidableEq, Repr

namespace BracedExpression

def openParen (v : BracedExpression) : Nav (Option Nat) := View.tokenAt v.node 0

def expression (v : BracedExpression) : Nav (Option Nat) := View.nodeAt v.node 1

def closeParen (v : BracedExpression) : Nav (Option Nat) := View.tokenAt v.node 2

end BracedExpression

structure SimpleNameReference where
  node : Nat
  deriving DecidableEq, Repr

namespace SimpleNameReference

def name (v : SimpleNameReference) : Nav (Option Nat) := View.tokenAt v.node 0

end SimpleNameReference

structure NumericLiteral where
  node : Nat
  deriving DecidableEq, Repr

namespace NumericLiteral

def literalToken (v : NumericLiteral) : Nav (Option Nat) := View.tokenAt v.node 0

end NumericLiteral

structure StringLiteral where
  node : Nat
  deriving DecidableEq, Repr

namespace StringLiteral

def content (v : StringLiteral) : Nav (Option Nat) := View.tokenAt v.node 0

end StringLiteral

inductive View where
  | modulePart (view : ModulePart)
  | assignmentStatement (view : AssignmentStatement)
  | expressionStatement (view : ExpressionStatement)
  | returnStatement (view : ReturnStatement)
  | receiveAction (view : ReceiveAction)
  | receiveFields (view : ReceiveFields)
  | receiveField (view : ReceiveField)
  | binaryExpression (view : BinaryExpression)
  | bracedExpression (view : BracedExpression)
  | simpleNameReference (view : SimpleNameReference)
  | numericLiteral (view : NumericLiteral)
  | stringLiteral (view : StringLiteral)
  deriving DecidableEq, Repr

namespace View

def node : View → Nat
  | modulePart v => v.node
  | assignmentStatement v => v.node
  | expressionStatement v => v.node
  | returnStatement v => v.node
  | receiveAction v => v.node
  | receiveFields v => v.node
  | receiveField v => v.node
  | binaryExpression v => v.node
  | bracedExpression v => v.node
  | simpleNameReference v => v.node
  | numericLiteral v => v.node
  | stringLiteral v => v.node

def name : View → String
  | modulePart _ => "ModulePart"
  | assignmentStatement _ => "AssignmentStatement"
  | expressionStatement _ => "ExpressionStatement"
  | returnStatement _ => "ReturnStatement"
  | receiveAction _ => "ReceiveAction"
  | receiveFields _ => "ReceiveFields"
  | receiveField _ => "ReceiveField"
  | binaryExpression _ => "BinaryExpression"
  | bracedExpression _ => "BracedExpression"
  | simpleNameReference _ => "SimpleNameReference"
  | numericLiteral _ => "NumericLiteral"
  | stringLiteral _ => "StringLiteral"

def kind : View → Kind
  | modulePart _ => .modulePart
  | assignmentStatement _ => .assignmentStatement
  | expressionStatement _ => .expressionStatement
  | returnStatement _ => .returnStatement
  | receiveAction _ => .receiveAction
  | receiveFields _ => .receiveFields
  | receiveField _ => .receiveField
  | binaryExpression _ => .binaryExpression
  | bracedExpression _ => .bracedExpression
  | simpleNameReference _ => .simpleNameReference
  | numericLiteral _ => .numericLiteral
  | stringLiteral _ => .stringLiteral

def ofKind? (kind : Kind) (id : Nat) : Option View :=
  match kind with
  | .modulePart => some (.modulePart ⟨id⟩)
  | .assignmentStatement => some (.assignmentStatement ⟨id⟩)
  | .expressionStatement => some (.expressionStatement ⟨id⟩)
  | .returnStatement => some (.returnStatement ⟨id⟩)
  | .receiveAction => some (.receiveAction ⟨id⟩)
  | .receiveFields => some (.receiveFields ⟨id⟩)
  | .receiveField => some (.receiveField ⟨id⟩)
  | .binaryExpression => some (.binaryExpression ⟨id⟩)
  | .bracedExpression => some (.bracedExpression ⟨id⟩)
  | .simpleNameReference => some (.simpleNameReference ⟨id⟩)
  | .numericLiteral => some (.numericLiteral ⟨id⟩)
  | .stringLiteral => some (.stringLiteral ⟨id⟩)
  | _ => none

theorem kind_of_ofKind?_eq_some {kind : Kind} {id : Nat} {v : View}
    (h : ofKind? kind id = some v) : v.kind = kind := by
  cases kind <;> simp [ofKind?] at h <;> subst h <;> rfl

theorem node_of_ofKind?_eq_some {kind : Kind} {id : Nat} {v : View}
    (h : ofKind? kind id = some v) : v.node = id := by
  cases kind <;> simp [ofKind?] at h <;> subst h <;> rfl

def ofNode? (id : Nat) : Nav (Option View) := do
  let p ← Nav.placement id
  pure (ofKind? p.kind id)

def fields : View → List (String × Nav (Option Nat))
  | modulePart v => [("members", v.members), ("eof_token", v.eofToken)]
  | assignmentStatement v =>
      [("var_ref", v.varRef), ("equals_token", v.equalsToken), ("expression", v.expression),
        ("semicolon_token", v.semicolonToken)]
  | expressionStatement v => [("expression", v.expression), ("semicolon_token", v.semicolonToken)]
  | returnStatement v =>
      [("return_keyword", v.returnKeyword), ("expression", v.expression),
        ("semicolon_token", v.semicolonToken)]
  | receiveAction v => [("left_arrow", v.leftArrow), ("receive_workers", v.receiveWorkers)]
  | receiveFields v =>
      [("open_brace", v.openBrace), ("receive_fields", v.receiveFields),
        ("close_brace", v.closeBrace)]
  | receiveField v =>
      [("field_name", v.fieldName), ("colon", v.colon), ("peer_worker", v.peerWorker)]
  | binaryExpression v =>
      [("lhs_expr", v.lhsExpr), ("operator", v.operator), ("rhs_expr", v.rhsExpr)]
  | bracedExpression v =>
      [("open_paren", v.openParen), ("expression", v.expression), ("close_paren", v.closeParen)]
  | simpleNameReference v => [("name", v.name)]
  | numericLiteral v => [("literal_token", v.literalToken)]
  | stringLiteral v => [("content", v.content)]

def display (v : View) : Nav String := do
  let p ← Nav.placement v.node
  let text ← Nav.ofExcept p.display
  pure (v.name ++ "(" ++ v.name ++ "(" ++ text ++ "))")

end View

def KindSet.expressions : KindSet :=
  ofList [.binaryExpression, .bracedExpression, .simpleNameReference, .numericLiteral,
    .stringLiteral, .receiveAction]

inductive Expression where
  | binary (view : BinaryExpression)
  | braced (view : BracedExpression)
  | name (view : SimpleNameReference)
  | numeric (view : NumericLiteral)
  | string (view : StringLiteral)
  | receive (view : ReceiveAction)
  deriving DecidableEq, Repr

namespace Expression

def node : Expression → Nat
  | binary v => v.node
  | braced v => v.node
  | name v => v.node
  | numeric v => v.node
  | string v => v.node
  | receive v => v.node

def variant : Expression → String
  | binary _ => "Binary"
  | braced _ => "Braced"
  | name _ => "Name"
  | numeric _ => "Numeric"
  | string _ => "String"
  | receive _ => "Receive"

def ofView? : View → Option Expression
  | .binaryExpression v => some (binary v)
  | .bracedExpression v => some (braced v)
  | .simpleNameReference v => some (name v)
  | .numericLiteral v => some (numeric v)
  | .stringLiteral v => some (string v)
  | .receiveAction v => some (receive v)
  | _ => none

def ofNode? (id : Nat) : Nav (Option Expression) := do
  let p ← Nav.placement id
  if KindSet.expressions.contains p.kind then pure ((View.ofKind? p.kind id).bind ofView?)
  else pure none

def ofField? (field : Nav (Option Nat)) : Nav (Option Expression) := do
  match ← field with
  | none => pure none
  | some id => ofNode? id

end Expression

def BinaryExpression.lhs (v : BinaryExpression) : Nav (Option Expression) :=
  Expression.ofField? v.lhsExpr

def BinaryExpression.rhs (v : BinaryExpression) : Nav (Option Expression) :=
  Expression.ofField? v.rhsExpr

namespace ModulePart

def viewsOf : List Nat → Nav (List View)
  | [] => pure []
  | id :: ids => do
      let p ← Nav.placement id
      let views ← viewsOf ids
      match if p.isNode then View.ofKind? p.kind id else none with
      | some view => pure (view :: views)
      | none => pure views

def statements (v : ModulePart) : Nav (List View) := do
  match ← v.members with
  | none => pure []
  | some members =>
      let queue ← ChildQueue.ofNode members
      let ids ← queue.drain ChildQueue.next
      viewsOf ids

end ModulePart

end LosslessSyntax
