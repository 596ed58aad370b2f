import LosslessSyntax.Proofs.Edit.Rebuild
import LosslessSyntax.Proofs.Green.Position

namespace LosslessSyntax

namespace Splice

def gain (g : Green) (x : Splice) : Int := x.2.width - g.widthAt x.1

def growth (g : Green) (xs : List Splice) : Int := (xs.map (gain g)).sum

def growthBefore (g : Green) (xs : List Splice) (q : List Nat) : Int :=
  growth g (xs.filter fun x => x.1 < q)

def growthWithin (g : Green) (xs : List Splice) (q : List Nat) : Int :=
  growth g (xs.filter fun x => q.isPrefixOf x.1)

section

variable {g c : Green} {i : Nat} {is q : List Nat} {r : Green} {x : Splice} {xs : List Splice}

theorem growth_cons : growth g (x :: xs) = gain g x + growth g xs := by
  rw [growth, List.map_cons, List.sum_cons, growth]

theorem growthBefore_cons :
    growthBefore g (x :: xs) q = (if x.1 < q then gain g x else 0) + growthBefore g xs q := by
  rw [growthBefore, growthBefore, List.filter_cons]
  by_cases h : x.1 < q
  · rw [if_pos (decide_eq_true h), if_pos h, growth_cons]
  · rw [if_neg (by simpa using h), if_neg h, Int.zero_add]

theorem growthWithin_cons :
    growthWithin g (x :: xs) q = (if q <+: x.1 then gain g x else 0) + growthWithin g xs q := by
  rw [growthWithin, growthWithin, List.filter_cons]
  by_cases h : q <+: x.1
  · rw [if_pos (List.isPrefixOf_iff_prefix.mpr h), if_pos h, growth_cons]
  · rw [if_neg (fun h' => h (List.isPrefixOf_iff_prefix.mp h')), if_neg h, Int.zero_add]

theorem growthBefore_nil_path : growthBefore g xs [] = 0 := by
  have hfilter : xs.filter (fun x => decide (x.1 < ([] : List Nat))) = [] :=
    List.filter_eq_nil_iff.mpr fun x _ => by simp
  rw [growthBefore, hfilter]
  rfl

theorem growthWithin_nil_path : growthWithin g xs [] = growth g xs := by
  have hfilter : xs.filter (fun x => List.isPrefixOf [] x.1) = xs :=
    List.filter_eq_self.mpr fun x _ => List.isPrefixOf_iff_prefix.mpr List.nil_prefix
  rw [growthWithin, hfilter]

theorem growthBefore_eq_growth (h : ∀ x ∈ xs, x.1 < q) : growthBefore g xs q = growth g xs := by
  have hfilter : xs.filter (fun x => decide (x.1 < q)) = xs :=
    List.filter_eq_self.mpr fun x hx => decide_eq_true (h x hx)
  rw [growthBefore, hfilter]

theorem gain_cons (hc : g.child? i = some c) : gain g (i :: is, r) = gain c (is, r) := by
  rw [gain, gain, Green.widthAt_cons hc]

theorem under_cons_nil : under i (([], r) :: xs) = under i xs := rfl

theorem under_cons_self : under i ((i :: is, r) :: xs) = (is, r) :: under i xs := by
  rw [under, List.filterMap_cons, below, if_pos rfl, under]

theorem under_cons_of_ne {j : Nat} (h : j ≠ i) : under i ((j :: is, r) :: xs) = under i xs := by
  rw [under, List.filterMap_cons, below, if_neg h, under]

theorem growthBefore_succ (hc : g.child? i = some c) :
    growthBefore g xs [i + 1] = growthBefore g xs [i] + growth c (under i xs) := by
  induction xs with
  | nil => rfl
  | cons x xs ih =>
      obtain ⟨_ | ⟨j, js⟩, r⟩ := x
      · have hlt : ∀ k : Nat, ([] : List Nat) < [k] := fun k => List.nil_lt_cons _ _
        rw [growthBefore_cons, growthBefore_cons, under_cons_nil, ih, if_pos (hlt _),
          if_pos (hlt _), Int.add_assoc]
      · have hlt : ∀ k : Nat, j :: js < [k] ↔ j < k := by
          intro k
          simp [List.cons_lt_cons_iff]
        simp only [growthBefore_cons, ih, hlt]
        rcases Nat.lt_trichotomy j i with h | rfl | h
        · rw [under_cons_of_ne h.ne, if_pos (by omega), if_pos h, Int.add_assoc]
        · rw [under_cons_self, growth_cons, gain_cons hc, if_pos (Nat.lt_succ_self _),
            if_neg (Nat.lt_irrefl _)]
          omega
        · rw [under_cons_of_ne h.ne', if_neg (by omega), if_neg (by omega), Int.add_assoc]

theorem growthBefore_cons_path (hc : g.child? i = some c) :
    growthBefore g xs (i :: q) = growthBefore g xs [i] + growthBefore c (under i xs) q := by
  induction xs with
  | nil => rfl
  | cons x xs ih =>
      obtain ⟨_ | ⟨j, js⟩, r⟩ := x
      · have hlt : ∀ ks : List Nat, ([] : List Nat) < i :: ks := fun ks => List.nil_lt_cons _ _
        rw [growthBefore_cons, growthBefore_cons, under_cons_nil, ih, if_pos (hlt _),
          if_pos (hlt _), Int.add_assoc]
      · have hlt : ∀ ks : List Nat, j :: js < i :: ks ↔ j < i ∨ j = i ∧ js < ks := by
          intro ks
          exact List.cons_lt_cons_iff
        simp only [growthBefore_cons (q := i :: q), growthBefore_cons (q := [i]), ih, hlt,
          List.not_lt_nil, and_false, or_false]
        rcases Nat.lt_trichotomy j i with h | rfl | h
        · rw [under_cons_of_ne h.ne, if_pos (.inl h), if_pos h, Int.add_assoc]
        · rw [under_cons_self, growthBefore_cons, gain_cons hc, if_neg (Nat.lt_irrefl _)]
          simp only [Nat.lt_irrefl, true_and, false_or]
          omega
        · have hne : ¬ (j < i ∨ j = i ∧ js < q) := by
            rintro (h' | ⟨h', -⟩) <;> omega
          rw [under_cons_of_ne h.ne', if_neg hne, if_neg (by omega), Int.add_assoc]

theorem growthWithin_cons_path (hc : g.child? i = some c) :
    growthWithin g xs (i :: q) = growthWithin c (under i xs) q := by
  induction xs with
  | nil => rfl
  | cons x xs ih =>
      obtain ⟨_ | ⟨j, js⟩, r⟩ := x
      · rw [growthWithin_cons, under_cons_nil, ih, if_neg (by simp), Int.zero_add]
      · by_cases hij : j = i
        · subst hij
          rw [under_cons_self, growthWithin_cons, growthWithin_cons, ih, gain_cons hc]
          simp only [List.cons_prefix_cons, true_and]
        · have hp : ¬ i :: q <+: j :: js := fun h => hij (List.cons_prefix_cons.mp h).1.symm
          rw [under_cons_of_ne hij, growthWithin_cons, ih, if_neg hp, Int.zero_add]

end

end Splice

end LosslessSyntax
