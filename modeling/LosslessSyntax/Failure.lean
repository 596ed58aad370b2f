import LosslessSyntax.Kind
import LosslessSyntax.Path

namespace LosslessSyntax

inductive Category where
  | token
  | node
  | any
  deriving DecidableEq, Repr

namespace Category

def name : Category → String
  | token => "Token"
  | node => "Node"
  | any => "Any"

def article : Category → String
  | token => "a token"
  | node => "a node"
  | any => "any element"

end Category

inductive ShapeError where
  | widthOverflow
  | notTokenKind
  | missingWithWidth
  | tokenWidthOverflow
  | tokenKindAsNode
  | listInList
  | childCount (expected found : Nat)
  | fieldCategory (field : String) (expected : Category) (found : Kind)
  | nothingOpen
  | neverFinished
  | rootIsToken
  | secondRoot
  | noRoot
  | foreignParent
  | ambiguousChild (found : Kind) (offset first second : Nat)
  | noSuchChild (found : Kind) (offset : Nat)
  | staleTarget (path : Path)
  | rootReplacedByToken
  deriving DecidableEq, Repr

def quoted (text : String) : String := "\x60" ++ text ++ "\x60"

namespace ShapeError

def message : ShapeError → String
  | widthOverflow => "width overflows the text size"
  | notTokenKind => "not a token kind"
  | missingWithWidth => "a missing token must have zero width"
  | tokenWidthOverflow => "token width overflows the text size"
  | tokenKindAsNode => "a token kind cannot label a node"
  | listInList => "a LIST cannot directly contain another LIST"
  | childCount expected found =>
      "expected " ++ toString expected ++ " children, found " ++ toString found
  | fieldCategory field expected found =>
      "field " ++ quoted field ++ " expects " ++ expected.article ++ ", found " ++ found.name
  | nothingOpen => quoted "finish_node" ++ " without an open node"
  | neverFinished => "node was started but never finished"
  | rootIsToken => "the root must be a node"
  | secondRoot => "more than one root element"
  | noRoot => "no root element was built"
  | foreignParent => "parent facade belongs to another session"
  | ambiguousChild found offset first second =>
      found.name ++ " at " ++ toString offset ++ " is both child " ++ toString first ++
        " and child " ++ toString second
  | noSuchChild found offset =>
      found.name ++ " at " ++ toString offset ++ " is not a child of this node"
  | staleTarget path => "edit target at " ++ quoted path.display ++ " is not part of this tree"
  | rootReplacedByToken => "the root must be replaced by a node"

end ShapeError

inductive TreeError where
  | illegalShape (kind : Kind) (reason : ShapeError)
  | childOutOfRange (kind : Kind) (index length : Nat)
  | invalidPath (path : Path) (depth : Nat)
  | overlappingEdit (first second : TextRange)
  deriving DecidableEq, Repr

namespace TreeError

def message : TreeError → String
  | illegalShape kind reason => "illegal tree shape for " ++ kind.name ++ ": " ++ reason.message
  | childOutOfRange kind index length =>
      "child index " ++ toString index ++ " is out of range for " ++ kind.name ++ " with " ++
        toString length ++ " children"
  | invalidPath path depth =>
      "path " ++ quoted path.display ++ " does not resolve at depth " ++ toString depth
  | overlappingEdit first second =>
      "edit at " ++ first.display ++ " overlaps edit at " ++ second.display

end TreeError

inductive Fault where
  | sizeOverflow
  | reversedRange
  | badSlice
  | badIndex
  | arenaFull
  | unknownPlacement (id : Nat)
  | notTokenKind (kind : Kind)
  | refusedNode (error : TreeError)
  | openNodesDropped
  | versionOverflow
  deriving DecidableEq, Repr

namespace Fault

def message : Fault → String
  | sizeOverflow => "a size or position exceeds the largest text size"
  | reversedRange => "a range starts after its end"
  | badSlice => "a slice leaves the text or cuts a character"
  | badIndex => "an index leaves the list"
  | arenaFull => "the arena is full"
  | unknownPlacement id => "placement " ++ toString id ++ " is used before it was made"
  | notTokenKind kind => kind.name ++ " is not a token kind"
  | refusedNode error => error.message
  | openNodesDropped => "you should call " ++ quoted "Builder::finish()"
  | versionOverflow => "the version exceeds the largest 64-bit number"

end Fault

inductive Failure where
  | rejected (error : TreeError)
  | aborted (fault : Fault)
  deriving DecidableEq, Repr

def Failure.illegalShape (kind : Kind) (reason : ShapeError) : Failure :=
  .rejected (.illegalShape kind reason)

end LosslessSyntax
