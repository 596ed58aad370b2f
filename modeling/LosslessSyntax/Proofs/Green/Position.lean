import LosslessSyntax.Proofs.Green.WellFormed
import LosslessSyntax.Proofs.Path.Order

namespace LosslessSyntax

namespace Green

def offsetAt : Green → List Nat → Nat
  | _, [] => 0
  | g, i :: is =>
      match g.child? i with
      | none => 0
      | some c => widths (g.children.take i) + c.offsetAt is

def widthAt (g : Green) (is : List Nat) : Nat :=
  match g.descend? is with
  | none => 0
  | some m => m.width

def rangeAt (g : Green) (is : List Nat) : TextRange :=
  ⟨g.offsetAt is, g.offsetAt is + g.widthAt is, Nat.le_add_right _ _⟩

section

variable {g c m n : Green} {i : Nat} {is js : List Nat}

theorem offsetAt_nil (g : Green) : g.offsetAt [] = 0 := rfl

theorem offsetAt_cons (h : g.child? i = some c) :
    g.offsetAt (i :: is) = widths (g.children.take i) + c.offsetAt is := by
  rw [offsetAt, h]

theorem offsetAt_append (h : g.descend? is = some m) :
    g.offsetAt (is ++ js) = g.offsetAt is + m.offsetAt js := by
  induction is generalizing g with
  | nil =>
      obtain rfl := Option.some.inj h
      rw [List.nil_append, offsetAt_nil, Nat.zero_add]
  | cons i is ih =>
      obtain ⟨c, hc, hm⟩ := descend?_cons_eq_some_iff.mp h
      rw [List.cons_append, offsetAt_cons hc, offsetAt_cons hc, ih hm, Nat.add_assoc]

theorem offsetAt_concat (h : g.descend? is = some m) (hc : m.child? i = some c) :
    g.offsetAt (is ++ [i]) = g.offsetAt is + widths (m.children.take i) := by
  rw [offsetAt_append h, offsetAt_cons hc, offsetAt_nil, Nat.add_zero]

theorem widthAt_eq (h : g.descend? is = some m) : g.widthAt is = m.width := by
  rw [widthAt, h]

theorem widthAt_cons (h : g.child? i = some c) : g.widthAt (i :: is) = c.widthAt is := by
  simp only [widthAt, descend?_cons, h, Option.bind_some]

theorem rangeAt_length (g : Green) (is : List Nat) : (g.rangeAt is).length = g.widthAt is := by
  rw [TextRange.length, rangeAt, Nat.add_sub_cancel_left]

theorem widths_take_child_le (hg : g.WellFormed) (hc : g.child? i = some c) :
    widths (g.children.take i) + c.width ≤ g.width := by
  rw [← widths_take_succ hc, ← hg.widths_children (isNode_of_child?_eq_some hc)]
  exact widths_take_le _ _

theorem offsetAt_add_width_le (hg : g.WellFormed) (hm : g.descend? is = some m) :
    g.offsetAt is + m.width ≤ g.width := by
  induction is generalizing g with
  | nil =>
      rw [descend?_nil, Option.some.injEq] at hm
      rw [hm, offsetAt_nil, Nat.zero_add]
  | cons i is ih =>
      obtain ⟨c, hc, hm⟩ := descend?_cons_eq_some_iff.mp hm
      have hin := ih (hg.of_child? hc) hm
      have hchild := widths_take_child_le hg hc
      rw [offsetAt_cons hc]
      omega

theorem offsetAt_add_width_le_offsetAt (hg : g.WellFormed) (hm : g.descend? is = some m)
    (hn : g.descend? js = some n) (hlt : is < js) (hp : ¬ is <+: js) :
    g.offsetAt is + m.width ≤ g.offsetAt js := by
  induction is generalizing g js with
  | nil => exact absurd List.nil_prefix hp
  | cons i is ih =>
      cases js with
      | nil => exact absurd hlt (List.not_lt_nil _)
      | cons j js =>
          obtain ⟨c, hc, hm⟩ := descend?_cons_eq_some_iff.mp hm
          obtain ⟨d, hd, hn⟩ := descend?_cons_eq_some_iff.mp hn
          rw [offsetAt_cons hc, offsetAt_cons hd]
          rcases List.cons_lt_cons_iff.mp hlt with hij | ⟨rfl, htail⟩
          · have hin := offsetAt_add_width_le (hg.of_child? hc) hm
            have hnext := widths_take_le_of_le g.children (Nat.succ_le_of_lt hij)
            rw [Nat.succ_eq_add_one, widths_take_succ hc] at hnext
            omega
          · obtain rfl : c = d := Option.some.inj (hc.symm.trans hd)
            have hp : ¬ is <+: js := fun h => hp (List.cons_prefix_cons.mpr ⟨rfl, h⟩)
            have hrec := ih (hg.of_child? hc) hm hn htail hp
            omega

theorem not_sharesByte_rangeAt (hg : g.WellFormed) (hm : (g.descend? is).isSome)
    (hn : (g.descend? js).isSome) (hij : ¬ is <+: js) (hji : ¬ js <+: is) :
    (g.rangeAt is).sharesByte (g.rangeAt js) = false := by
  obtain ⟨m, hm⟩ := Option.isSome_iff_exists.mp hm
  obtain ⟨n, hn⟩ := Option.isSome_iff_exists.mp hn
  have hne : is ≠ js := fun h => hij (h ▸ List.prefix_rfl)
  have hm' := widthAt_eq hm
  have hn' := widthAt_eq hn
  rw [TextRange.sharesByte, decide_eq_false_iff_not, rangeAt, rangeAt, not_lt]
  rcases lt_or_gt_of_ne hne with hlt | hlt
  · have := offsetAt_add_width_le_offsetAt hg hm hn hlt hij
    simp only [hm']
    omega
  · have := offsetAt_add_width_le_offsetAt hg hn hm hlt hji
    simp only [hn']
    omega

end

end Green

end LosslessSyntax
