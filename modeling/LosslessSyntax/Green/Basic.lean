import LosslessSyntax.Diagnostic
import LosslessSyntax.Failure

namespace LosslessSyntax

structure TokenShape where
  kind : Kind
  leading : Nat
  text : Nat
  trailing : Nat
  missing : Bool
  deriving DecidableEq, Repr, Hashable

namespace TokenShape

def width (s : TokenShape) : Nat := s.leading + s.text + s.trailing

def absent (kind : Kind) : TokenShape := ⟨kind, 0, 0, 0, true⟩

end TokenShape

structure Summary where
  width : Nat
  starts : List Nat
  containsMissing : Bool
  containsDiagnostics : Bool
  deriving DecidableEq, Repr, Hashable

inductive Green where
  | token (stamp : Nat) (shape : TokenShape) (diagnostics : List Diagnostic)
  | node (stamp : Nat) (kind : Kind) (summary : Summary) (children : List Green)
      (diagnostics : List Diagnostic)
  deriving Repr

namespace Green

instance : Inhabited Green := ⟨token 0 (TokenShape.absent .eofToken) []⟩

def stamp : Green → Nat
  | token stamp _ _ => stamp
  | node stamp _ _ _ _ => stamp

def kind : Green → Kind
  | token _ shape _ => shape.kind
  | node _ kind _ _ _ => kind

def diagnostics : Green → List Diagnostic
  | token _ _ ds => ds
  | node _ _ _ _ ds => ds

def children : Green → List Green
  | token _ _ _ => []
  | node _ _ _ cs _ => cs

def starts : Green → List Nat
  | token _ _ _ => []
  | node _ _ summary _ _ => summary.starts

def isNode : Green → Bool
  | token _ _ _ => false
  | node _ _ _ _ _ => true

def isToken : Green → Bool
  | token _ _ _ => true
  | node _ _ _ _ _ => false

def isMissing : Green → Bool
  | token _ shape _ => shape.missing
  | node _ _ _ _ _ => false

def width : Green → Nat
  | token _ shape _ => shape.width
  | node _ _ summary _ _ => summary.width

def checkedWidth (g : Green) : Except Failure Nat :=
  if g.isToken && decide (maxSize < g.width) then .error (.aborted .sizeOverflow)
  else .ok g.width

def containsMissing : Green → Bool
  | token _ shape _ => shape.missing
  | node _ _ summary _ _ => summary.containsMissing

def containsDiagnostics : Green → Bool
  | token _ _ ds => !ds.isEmpty
  | node _ _ summary _ _ => summary.containsDiagnostics

/-- Whether two elements are one and the same, which is more than having equal content. -/
def same (a b : Green) : Bool := a.isNode == b.isNode && a.stamp == b.stamp

theorem same_refl (g : Green) : g.same g = true := by
  simp [same]

theorem same_comm (a b : Green) : a.same b = b.same a := by
  simp [same, Bool.beq_comm]

theorem same_trans {a b c : Green} (hab : a.same b = true) (hbc : b.same c = true) :
    a.same c = true := by
  simp_all [same]

def child? (g : Green) (index : Nat) : Option Green := g.children[index]?

def childStart? (g : Green) (index : Nat) : Option Nat := g.starts[index]?

def slot? (g : Green) (index : Nat) : Option (Nat × Green) :=
  match g.childStart? index, g.child? index with
  | some start, some c => some (start, c)
  | _, _ => none

def childAt (g : Green) (index : Nat) : Except Failure Green :=
  match g.child? index with
  | some c => .ok c
  | none => .error (.rejected (.childOutOfRange g.kind index g.children.length))

def descend? (g : Green) : List Nat → Option Green
  | [] => some g
  | i :: is => (g.child? i).bind (descend? · is)

theorem descend?_append (g : Green) (is js : List Nat) :
    g.descend? (is ++ js) = (g.descend? is).bind (descend? · js) := by
  induction is generalizing g with
  | nil => rfl
  | cons i is ih =>
      simp only [List.cons_append, descend?]
      cases g.child? i with
      | none => rfl
      | some c => exact ih c

mutual

def size : Green → Nat
  | token _ _ _ => 1
  | node _ _ _ cs _ => sizes cs + 1

def sizes : List Green → Nat
  | [] => 0
  | c :: cs => c.size + sizes cs

end

theorem size_pos (g : Green) : 0 < g.size := by
  cases g <;> simp [size]

def display : Green → String
  | token _ shape _ =>
      "GreenToken \x7b kind: " ++ shape.kind.name ++ ", leading: " ++ toString shape.leading ++
        ", text: " ++ toString shape.text ++ ", trailing: " ++ toString shape.trailing ++
        ", missing: " ++ toString shape.missing ++ " \x7d"
  | node _ kind summary cs ds =>
      "GreenNode \x7b kind: " ++ kind.name ++ ", width: " ++ toString summary.width ++
        ", children: " ++ toString cs.length ++ ", diagnostics: " ++ toString ds.length ++ " \x7d"

end Green

end LosslessSyntax
