import LosslessSyntax.Edit
import LosslessSyntax.Proofs.Green.Position
import Mathlib.Data.List.Sort

namespace LosslessSyntax

namespace Target

def NotAfter (t u : Target) : Prop := t.path.indices ≤ u.path.indices

instance : DecidableRel NotAfter := fun t u =>
  inferInstanceAs (Decidable (t.path.indices ≤ u.path.indices))

instance : Std.Total NotAfter := ⟨fun t u => le_total t.path.indices u.path.indices⟩

instance : IsTrans Target NotAfter := ⟨fun _ _ _ h h' => le_trans (α := List Nat) h h'⟩

theorem insert_eq_orderedInsert (t : Target) (us : List Target) :
    insert t us = us.orderedInsert NotAfter t := by
  induction us with
  | nil => rfl
  | cons u us ih =>
      rw [insert, List.orderedInsert, ih]
      by_cases h : NotAfter t u
      · have hc : ¬ compare t.path u.path = .gt := by
          intro hc
          exact not_lt.mpr h (Path.compare_eq_gt_iff.mp hc)
        rw [if_neg hc, if_pos h]
      · rw [if_pos (Path.compare_eq_gt_iff.mpr (not_le.mp h)), if_neg h]

theorem sort_eq_insertionSort (ts : List Target) : sort ts = ts.insertionSort NotAfter := by
  induction ts with
  | nil => rfl
  | cons t ts ih => rw [sort, insert_eq_orderedInsert, ih, List.insertionSort_cons]

theorem sort_pairwise (ts : List Target) : (sort ts).Pairwise NotAfter := by
  rw [sort_eq_insertionSort]
  exact List.pairwise_insertionSort _ _

def Apart (t u : Target) : Prop := Path.Apart t.path.indices u.path.indices

theorem apart_of_conflict?_eq_none {ts : List Target} (hs : ts.Pairwise NotAfter)
    (h : conflict? ts = none) : ts.Pairwise Apart := by
  induction ts with
  | nil => exact .nil
  | cons t us ih =>
      cases us with
      | nil => exact List.pairwise_singleton _ _
      | cons u us =>
          rw [conflict?] at h
          split at h
          · exact nomatch h
          rename_i hc
          obtain ⟨hle, hs⟩ := List.pairwise_cons.mp hs
          have htu : ¬ t.path.indices <+: u.path.indices := by
            intro hp
            rw [conflicts, Path.isPrefixOf_iff.mpr hp, Bool.true_or] at hc
            exact hc rfl
          refine List.pairwise_cons.mpr ⟨?_, ih hs h⟩
          intro v hv
          -- a path and an extension of it have only extensions of it between them
          have huv : u.path.indices ≤ v.path.indices := by
            rcases List.mem_cons.mp hv with rfl | hv
            · exact le_refl _
            · exact (List.pairwise_cons.mp hs).1 v hv
          have htv : ¬ t.path.indices <+: v.path.indices := by
            intro hp
            exact htu (indices_prefix_of_le_of_le hp (hle u List.mem_cons_self) huv)
          refine ⟨htv, ?_⟩
          intro hp
          have heq := le_antisymm (hle v hv) (le_of_prefix_indices hp)
          exact htv (heq ▸ List.prefix_rfl)

theorem prefix_of_conflict?_eq_some {ts : List Target} {t u : Target}
    (hs : ts.Pairwise NotAfter)
    (hr : ∀ a ∈ ts, ∀ b ∈ ts, Apart a b → a.range.sharesByte b.range = false)
    (h : conflict? ts = some (t, u)) :
    t.path.indices <+: u.path.indices ∧ [t, u].Sublist ts := by
  induction ts with
  | nil => exact nomatch h
  | cons a us ih =>
      cases us with
      | nil => exact nomatch h
      | cons b us =>
          obtain ⟨hle, hs⟩ := List.pairwise_cons.mp hs
          rw [conflict?] at h
          split at h
          · rename_i hc
            rw [Option.some.injEq, Prod.mk.injEq] at h
            obtain ⟨rfl, rfl⟩ := h
            refine ⟨?_, ((List.nil_sublist us).cons_cons b).cons_cons a⟩
            by_contra hp
            have hba : ¬ b.path.indices <+: a.path.indices := by
              intro hba
              have heq := le_antisymm (hle b List.mem_cons_self) (le_of_prefix_indices hba)
              exact hp (heq ▸ List.prefix_rfl)
            have hshare := hr a List.mem_cons_self b
              (List.mem_cons_of_mem a List.mem_cons_self) ⟨hp, hba⟩
            rw [conflicts, hshare, Bool.or_false, Path.isPrefixOf_iff] at hc
            exact hp hc
          · obtain ⟨hp, hsub⟩ := ih hs
              (fun c hc d hd => hr c (List.mem_cons_of_mem a hc) d (List.mem_cons_of_mem a hd)) h
            exact ⟨hp, hsub.cons a⟩

end Target

end LosslessSyntax
