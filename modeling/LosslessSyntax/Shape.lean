import LosslessSyntax.Green.Basic

namespace LosslessSyntax

def Category.accepts : Category → Green → Bool
  | token, g => g.isToken
  | node, g => g.isNode
  | any, _ => true

structure Field where
  name : String
  category : Category
  deriving DecidableEq, Repr

def Kind.fields? : Kind → Option (List Field)
  | modulePart => some [⟨"members", .node⟩, ⟨"eof_token", .token⟩]
  | assignmentStatement =>
      some [⟨"var_ref", .node⟩, ⟨"equals_token", .token⟩, ⟨"expression", .node⟩,
        ⟨"semicolon_token", .token⟩]
  | expressionStatement => some [⟨"expression", .node⟩, ⟨"semicolon_token", .token⟩]
  | returnStatement =>
      some [⟨"return_keyword", .token⟩, ⟨"expression", .any⟩, ⟨"semicolon_token", .token⟩]
  | receiveAction => some [⟨"left_arrow", .token⟩, ⟨"receive_workers", .node⟩]
  | receiveFields =>
      some [⟨"open_brace", .token⟩, ⟨"receive_fields", .node⟩, ⟨"close_brace", .token⟩]
  | receiveField => some [⟨"field_name", .node⟩, ⟨"colon", .token⟩, ⟨"peer_worker", .node⟩]
  | binaryExpression => some [⟨"lhs_expr", .node⟩, ⟨"operator", .token⟩, ⟨"rhs_expr", .node⟩]
  | bracedExpression =>
      some [⟨"open_paren", .token⟩, ⟨"expression", .node⟩, ⟨"close_paren", .token⟩]
  | simpleNameReference => some [⟨"name", .token⟩]
  | numericLiteral => some [⟨"literal_token", .token⟩]
  | stringLiteral => some [⟨"content", .token⟩]
  | _ => none

def Kind.fieldIndex? (kind : Kind) (name : String) : Option Nat :=
  kind.fields?.bind fun fields => fields.findIdx? fun field => field.name == name

namespace Shape

def checkFields (kind : Kind) : List Field → List Green → Except Failure Unit
  | field :: fields, c :: cs =>
      if field.category.accepts c then checkFields kind fields cs
      else .error (.illegalShape kind (.fieldCategory field.name field.category c.kind))
  | _, _ => .ok ()

def check (kind : Kind) (children : List Green) : Except Failure Unit :=
  if kind.isFreeForm then
    if kind.isList && children.any fun c => c.kind.isList then
      .error (.illegalShape kind .listInList)
    else .ok ()
  else
    match kind.fields? with
    | none => .ok ()
    | some fields =>
        if fields.length ≠ children.length then
          .error (.illegalShape kind (.childCount fields.length children.length))
        else checkFields kind fields children

end Shape

end LosslessSyntax
