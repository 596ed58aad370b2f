import LosslessSyntax.Path
import Mathlib.Data.List.Lex

namespace LosslessSyntax

namespace Path

theorem compareIndices_eq_gt_iff {is js : List Nat} :
    compareIndices is js = .gt ↔ js < is := by
  induction is generalizing js with
  | nil => cases js <;> simp [compareIndices]
  | cons i is ih =>
      cases js with
      | nil => simp [compareIndices]
      | cons j js =>
          simp only [compareIndices, Ordering.then_eq_gt, Nat.compare_eq_gt, Nat.compare_eq_eq, ih,
            List.cons_lt_cons_iff]
          exact or_congr_right (and_congr_left fun _ => eq_comm)

theorem compare_eq_gt_iff {p q : Path} : compare p q = .gt ↔ q.indices < p.indices :=
  compareIndices_eq_gt_iff

theorem compare_eq_lt_iff {p q : Path} : compare p q = .lt ↔ p.indices < q.indices := by
  constructor
  · intro h
    have hne : p.indices ≠ q.indices := by
      intro heq
      have hequal : compare p q = .eq := compareIndices_eq_iff.mpr heq
      exact nomatch h.symm.trans hequal
    have hnlt : ¬ q.indices < p.indices := by
      intro hlt
      exact nomatch h.symm.trans (compare_eq_gt_iff.mpr hlt)
    exact lt_of_le_of_ne (not_lt.mp hnlt) hne
  · intro h
    cases hcompare : compare p q with
    | lt => rfl
    | eq => exact absurd (compareIndices_eq_iff.mp hcompare) (ne_of_lt h)
    | gt => exact absurd (compare_eq_gt_iff.mp hcompare) (not_lt_of_gt h)

def Apart (is js : List Nat) : Prop := ¬ is <+: js ∧ ¬ js <+: is

instance (is js : List Nat) : Decidable (Apart is js) :=
  inferInstanceAs (Decidable (¬ is <+: js ∧ ¬ js <+: is))

theorem Apart.symm {is js : List Nat} (h : Apart is js) : Apart js is := ⟨h.2, h.1⟩

theorem eq_singleton_of_pairwise_apart {α : Type} {f : α → List Nat} {x : α} {xs : List α}
    (h : xs.Pairwise fun a b => Apart (f a) (f b)) (hx : x ∈ xs) (hnil : f x = []) :
    xs = [x] := by
  have hfirst : ∀ is, ¬ Apart (f x) is := by
    intro is his
    exact his.1 (hnil ▸ List.nil_prefix)
  obtain ⟨as, bs, rfl⟩ := List.append_of_mem hx
  obtain ⟨-, hbs, hcross⟩ := List.pairwise_append.mp h
  have has : as = [] := by
    rw [List.eq_nil_iff_forall_not_mem]
    intro a ha
    exact hfirst _ (hcross a ha x List.mem_cons_self).symm
  have hbs : bs = [] := by
    rw [List.eq_nil_iff_forall_not_mem]
    intro b hb
    exact hfirst _ ((List.pairwise_cons.mp hbs).1 b hb)
  rw [has, hbs, List.nil_append]

end Path

section Indices

variable {is js ks : List Nat}

theorem indices_cons_le_cons_iff {i j : Nat} :
    i :: is ≤ j :: js ↔ i < j ∨ (i = j ∧ is ≤ js) := by
  rw [← not_lt, List.cons_lt_cons_iff, not_or, not_and, not_lt]
  constructor
  · rintro ⟨hle, htail⟩
    exact (Nat.lt_or_eq_of_le hle).imp_right fun heq => ⟨heq, not_lt.mp (htail heq.symm)⟩
  · rintro (hlt | ⟨rfl, htail⟩)
    · exact ⟨Nat.le_of_lt hlt, fun heq => absurd heq (Nat.ne_of_gt hlt)⟩
    · exact ⟨Nat.le_refl _, fun _ => not_lt.mpr htail⟩

theorem le_of_prefix_indices (h : is <+: js) : is ≤ js := by
  obtain ⟨ks, rfl⟩ := h
  induction is with
  | nil => cases ks <;> simp [le_iff_lt_or_eq]
  | cons i is ih => exact List.cons_le_cons i ih

theorem indices_prefix_of_le_of_le (hp : is <+: ks) (hij : is ≤ js) (hjk : js ≤ ks) :
    is <+: js := by
  induction is generalizing js ks with
  | nil => exact List.nil_prefix
  | cons i is ih =>
      obtain ⟨rest, rfl⟩ := hp
      cases js with
      | nil => exact absurd hij (by simp)
      | cons j js =>
          rw [indices_cons_le_cons_iff] at hij
          rw [List.cons_append, indices_cons_le_cons_iff] at hjk
          obtain rfl : i = j := by omega
          have htail : is ≤ js := (hij.resolve_left (Nat.lt_irrefl i)).2
          have hrest : js ≤ is ++ rest := (hjk.resolve_left (Nat.lt_irrefl i)).2
          exact (List.cons_prefix_cons.mpr ⟨rfl, ih (List.prefix_append is rest) htail hrest⟩)

end Indices

end LosslessSyntax
