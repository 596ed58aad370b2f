import LosslessSyntax.Kind

namespace LosslessSyntax

structure KindSet where
  bits : BitVec 64
  deriving DecidableEq, Repr

namespace KindSet

def empty : KindSet := ⟨0#64⟩

def bit (k : Kind) : BitVec 64 := 1#64 <<< k.ordinal

def insert (s : KindSet) (k : Kind) : KindSet := ⟨s.bits ||| bit k⟩

def ofList (ks : List Kind) : KindSet := ks.foldl insert empty

def union (s t : KindSet) : KindSet := ⟨s.bits ||| t.bits⟩

def contains (s : KindSet) (k : Kind) : Bool := s.bits &&& bit k != 0#64

def isEmpty (s : KindSet) : Bool := s.bits == 0#64

def size (s : KindSet) : Nat :=
  (List.range 64).countP fun i => s.bits.getLsbD i

def toList (s : KindSet) : List Kind := Kind.all.filter s.contains

def display (s : KindSet) : String := "SyntaxSet(" ++ toString s.bits.toNat ++ ")"

theorem ordinal_lt_width (k : Kind) : k.ordinal < 64 :=
  Nat.lt_trans k.ordinal_lt (by decide)

theorem bit_eq_twoPow (k : Kind) : bit k = BitVec.twoPow 64 k.ordinal :=
  (BitVec.twoPow_eq 64 k.ordinal).symm

theorem getLsbD_bit (k : Kind) (i : Nat) : (bit k).getLsbD i = decide (i = k.ordinal) := by
  rw [bit_eq_twoPow, BitVec.getLsbD_twoPow, decide_eq_true (ordinal_lt_width k), Bool.true_and]
  exact decide_eq_decide.mpr eq_comm

theorem contains_eq_getLsbD (s : KindSet) (k : Kind) :
    s.contains k = s.bits.getLsbD k.ordinal := by
  have hk : k.ordinal < 64 := ordinal_lt_width k
  rw [contains, bit_eq_twoPow, BitVec.and_twoPow]
  cases s.bits.getLsbD k.ordinal with
  | false => simp
  | true =>
      simp only [if_true, bne_iff_ne, ne_eq]
      intro h
      have hb := congrArg (fun v => v.getLsbD k.ordinal) h
      simp [hk] at hb

end KindSet

end LosslessSyntax
