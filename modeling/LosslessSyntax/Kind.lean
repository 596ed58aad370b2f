namespace LosslessSyntax

inductive Kind where
  | leftArrowToken
  | rightArrowToken
  | openBraceToken
  | closeBraceToken
  | openParenToken
  | closeParenToken
  | commaToken
  | colonToken
  | semicolonToken
  | equalToken
  | plusToken
  | minusToken
  | asteriskToken
  | slashToken
  | functionKeyword
  | returnKeyword
  | workerKeyword
  | identifierToken
  | decimalIntegerLiteralToken
  | stringLiteralToken
  | invalidToken
  | eofToken
  | modulePart
  | assignmentStatement
  | expressionStatement
  | returnStatement
  | receiveAction
  | receiveFields
  | receiveField
  | binaryExpression
  | bracedExpression
  | simpleNameReference
  | numericLiteral
  | stringLiteral
  | list
  | error
  deriving DecidableEq, Repr, Hashable, Inhabited

namespace Kind

def all : List Kind :=
  [leftArrowToken, rightArrowToken, openBraceToken, closeBraceToken, openParenToken,
    closeParenToken, commaToken, colonToken, semicolonToken, equalToken, plusToken, minusToken,
    asteriskToken, slashToken, functionKeyword, returnKeyword, workerKeyword, identifierToken,
    decimalIntegerLiteralToken, stringLiteralToken, invalidToken, eofToken, modulePart,
    assignmentStatement, expressionStatement, returnStatement, receiveAction, receiveFields,
    receiveField, binaryExpression, bracedExpression, simpleNameReference, numericLiteral,
    stringLiteral, list, error]

def ordinal (k : Kind) : Nat := k.ctorIdx

theorem getElem?_all_ordinal (k : Kind) : all[k.ordinal]? = some k := by
  cases k <;> rfl

theorem ordinal_lt (k : Kind) : k.ordinal < 36 := by
  cases k <;> decide

theorem ordinal_inj {j k : Kind} (h : j.ordinal = k.ordinal) : j = k := by
  have hj := getElem?_all_ordinal j
  rw [h, getElem?_all_ordinal k] at hj
  exact (Option.some.inj hj).symm

instance : Ord Kind where
  compare j k := compare j.ordinal k.ordinal

def name : Kind → String
  | leftArrowToken => "LEFT_ARROW_TOKEN"
  | rightArrowToken => "RIGHT_ARROW_TOKEN"
  | openBraceToken => "OPEN_BRACE_TOKEN"
  | closeBraceToken => "CLOSE_BRACE_TOKEN"
  | openParenToken => "OPEN_PAREN_TOKEN"
  | closeParenToken => "CLOSE_PAREN_TOKEN"
  | commaToken => "COMMA_TOKEN"
  | colonToken => "COLON_TOKEN"
  | semicolonToken => "SEMICOLON_TOKEN"
  | equalToken => "EQUAL_TOKEN"
  | plusToken => "PLUS_TOKEN"
  | minusToken => "MINUS_TOKEN"
  | asteriskToken => "ASTERISK_TOKEN"
  | slashToken => "SLASH_TOKEN"
  | functionKeyword => "FUNCTION_KEYWORD"
  | returnKeyword => "RETURN_KEYWORD"
  | workerKeyword => "WORKER_KEYWORD"
  | identifierToken => "IDENTIFIER_TOKEN"
  | decimalIntegerLiteralToken => "DECIMAL_INTEGER_LITERAL_TOKEN"
  | stringLiteralToken => "STRING_LITERAL_TOKEN"
  | invalidToken => "INVALID_TOKEN"
  | eofToken => "EOF_TOKEN"
  | modulePart => "MODULE_PART"
  | assignmentStatement => "ASSIGNMENT_STATEMENT"
  | expressionStatement => "EXPRESSION_STATEMENT"
  | returnStatement => "RETURN_STATEMENT"
  | receiveAction => "RECEIVE_ACTION"
  | receiveFields => "RECEIVE_FIELDS"
  | receiveField => "RECEIVE_FIELD"
  | binaryExpression => "BINARY_EXPRESSION"
  | bracedExpression => "BRACED_EXPRESSION"
  | simpleNameReference => "SIMPLE_NAME_REFERENCE"
  | numericLiteral => "NUMERIC_LITERAL"
  | stringLiteral => "STRING_LITERAL"
  | list => "LIST"
  | error => "ERROR"

def ofName? (text : String) : Option Kind :=
  all.find? fun k => k.name == text

def isToken (k : Kind) : Bool :=
  decide (k.ordinal ≤ eofToken.ordinal)

def isNode (k : Kind) : Bool := !k.isToken

def isKeyword : Kind → Bool
  | functionKeyword | returnKeyword | workerKeyword => true
  | _ => false

def isList : Kind → Bool
  | list => true
  | _ => false

def isFreeForm : Kind → Bool
  | list | error => true
  | _ => false

end Kind

end LosslessSyntax
