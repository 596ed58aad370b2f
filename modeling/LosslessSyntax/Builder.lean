import LosslessSyntax.Green.Build
import LosslessSyntax.Shape

namespace LosslessSyntax

structure CacheStats where
  hits : Nat
  misses : Nat
  deriving DecidableEq, Repr

structure OpenNode where
  kind : Kind
  firstChild : Nat
  deriving DecidableEq, Repr

structure Builder where
  internsTokens : Bool
  depthHint : Nat
  cache : List (TokenShape × Green)
  stats : CacheStats
  opened : List OpenNode
  pending : Array Green

namespace Builder

def new (internsTokens : Bool) (depthHint : Nat) : Builder where
  internsTokens
  depthHint
  cache := []
  stats := ⟨0, 0⟩
  opened := []
  pending := #[]

def intern (b : Builder) (shape : TokenShape) : Mint (Green × Builder) := do
  if b.internsTokens then
    match b.cache.lookup shape with
    | some token => pure (token, { b with stats := ⟨b.stats.hits + 1, b.stats.misses⟩ })
    | none =>
        let token ← Green.ofShape shape
        pure (token,
          { b with
            cache := (shape, token) :: b.cache
            stats := ⟨b.stats.hits, b.stats.misses + 1⟩ })
  else
    let token ← Green.ofShape shape
    pure (token, b)

def requireTokenKind (kind : Kind) : Mint Unit :=
  if kind.isToken then pure () else Mint.fail (.aborted (.notTokenKind kind))

def token (b : Builder) (kind : Kind) (leading text trailing : Nat) : Mint (Green × Builder) := do
  requireTokenKind kind
  b.intern ⟨kind, leading, text, trailing, false⟩

def missing (b : Builder) (kind : Kind) : Mint (Green × Builder) := do
  requireTokenKind kind
  b.intern (TokenShape.absent kind)

def checkToken (shape : TokenShape) : Except Failure Unit :=
  if !shape.kind.isToken then .error (.illegalShape shape.kind .notTokenKind)
  else if shape.missing && decide ((shape.leading, shape.text, shape.trailing) ≠ (0, 0, 0)) then
    .error (.illegalShape shape.kind .missingWithWidth)
  else if maxSize < shape.width then .error (.illegalShape shape.kind .tokenWidthOverflow)
  else .ok ()

def createToken (b : Builder) (shape : TokenShape) : Mint (Except Failure Green × Builder) := do
  match checkToken shape with
  | .error e => pure (.error e, b)
  | .ok () =>
      let (token, b) ← b.intern shape
      pure (.ok token, b)

def node (_ : Builder) (kind : Kind) (children : List Green) : Mint Green :=
  Green.ofFittingChildren kind children

def checkedNode (_ : Builder) (kind : Kind) (children : List Green) : Mint Green := do
  if kind.isToken then Mint.fail (.illegalShape kind .tokenKindAsNode)
  else
    Mint.ofExcept (Shape.check kind children)
    Green.ofChildren kind children

def startNode (b : Builder) (kind : Kind) : Builder :=
  { b with opened := ⟨kind, b.pending.size⟩ :: b.opened }

def push (b : Builder) (element : Green) : Builder :=
  { b with pending := b.pending.push element }

def pushToken (b : Builder) (kind : Kind) (leading text trailing : Nat) : Mint Builder := do
  let (token, b) ← b.token kind leading text trailing
  pure (b.push token)

def pushMissing (b : Builder) (kind : Kind) : Mint Builder := do
  let (token, b) ← b.missing kind
  pure (b.push token)

def finishNode (b : Builder) : Mint Builder := do
  match b.opened with
  | [] => Mint.fail (.illegalShape .error .nothingOpen)
  | top :: opened =>
      let node ← Green.ofChildren top.kind (b.pending.toList.drop top.firstChild)
      pure { b with
        opened
        pending := (b.pending.take top.firstChild).push node }

def soleRoot : List OpenNode → List Green → Except Failure Green
  | unfinished :: _, _ => .error (.illegalShape unfinished.kind .neverFinished)
  | [], [] => .error (.illegalShape .error .noRoot)
  | [], [root] => if root.isNode then .ok root else .error (.illegalShape root.kind .rootIsToken)
  | [], _ :: extra :: _ => .error (.illegalShape extra.kind .secondRoot)

/-- The one root that was streamed. Started nodes and pending elements are given up in any case;
the cache is kept. -/
def finish (b : Builder) : Except Failure Green × Builder :=
  (soleRoot b.opened b.pending.toList, { b with opened := [], pending := #[] })

def drop (b : Builder) : Except Failure Unit :=
  if b.opened.isEmpty then .ok () else .error (.aborted .openNodesDropped)

end Builder

end LosslessSyntax
