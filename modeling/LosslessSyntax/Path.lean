import LosslessSyntax.Text.Range

namespace LosslessSyntax

structure Path where
  indices : List Nat
  deriving DecidableEq, Repr

namespace Path

def root : Path := ⟨[]⟩

def child (p : Path) (index : Nat) : Path := ⟨p.indices ++ [index]⟩

def depth (p : Path) : Nat := p.indices.length

def isRoot (p : Path) : Bool := p.indices.isEmpty

def isPrefixOf (p q : Path) : Bool := p.indices.isPrefixOf q.indices

theorem isPrefixOf_iff {p q : Path} : p.isPrefixOf q = true ↔ p.indices <+: q.indices := by
  simp [isPrefixOf]

def compareIndices : List Nat → List Nat → Ordering
  | [], [] => .eq
  | [], _ :: _ => .lt
  | _ :: _, [] => .gt
  | i :: is, j :: js => (compare i j).then (compareIndices is js)

theorem compareIndices_eq_iff {is js : List Nat} :
    compareIndices is js = .eq ↔ is = js := by
  induction is generalizing js with
  | nil => cases js <;> simp [compareIndices]
  | cons i is ih =>
      cases js with
      | nil => simp [compareIndices]
      | cons j js =>
          simp only [compareIndices, Ordering.then_eq_eq, Nat.compare_eq_eq, ih, List.cons.injEq]

instance : Ord Path where
  compare p q := compareIndices p.indices q.indices

def digits (n : Nat) : List Char := Nat.toDigits 10 n

def join : List (List Char) → List Char
  | [] => []
  | [s] => s
  | s :: t :: rest => s ++ '.' :: join (t :: rest)

def display (p : Path) : String := String.ofList (join (p.indices.map digits))

def segments : List Char → List (List Char)
  | [] => [[]]
  | c :: cs =>
      if c = '.' then [] :: segments cs
      else
        match segments cs with
        | [] => [[c]]
        | s :: rest => (c :: s) :: rest

def digitsValue (ds : List Char) : Nat :=
  ds.foldl (fun value d => value * 10 + (d.toNat - '0'.toNat)) 0

def readIndex? (segment : List Char) : Option Nat :=
  let ds := if segment.head? = some '+' then segment.tail else segment
  if !ds.isEmpty && ds.all Char.isDigit && decide (digitsValue ds ≤ maxSize) then
    some (digitsValue ds)
  else none

structure BadSegment where
  segment : String
  deriving DecidableEq, Repr

def BadSegment.message (e : BadSegment) : String :=
  "invalid path segment \x60" ++ e.segment ++ "\x60, expected a child index"

def readIndices : List (List Char) → Except BadSegment (List Nat)
  | [] => .ok []
  | s :: rest =>
      match readIndex? s with
      | none => .error ⟨String.ofList s⟩
      | some i => (readIndices rest).map (i :: ·)

def parse (text : String) : Except BadSegment Path :=
  match text.toList with
  | [] => .ok root
  | cs => (readIndices (segments cs)).map Path.mk

end Path

end LosslessSyntax
