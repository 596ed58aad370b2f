import LosslessSyntax.Proofs.Green.Route
import Mathlib.Data.List.Sort

namespace LosslessSyntax

section Order

variable {α : Type} {f : α → List Nat} {xs ys : List α}

theorem nodup_of_pairwise_lt (h : xs.Pairwise fun x y => f x < f y) : xs.Nodup := by
  refine h.imp ?_
  rintro x _ hlt rfl
  exact List.lt_irrefl (f x) hlt

theorem eq_of_pairwise_lt (hx : xs.Pairwise fun x y => f x < f y)
    (hy : ys.Pairwise fun x y => f x < f y) (h : ∀ x, x ∈ xs ↔ x ∈ ys) : xs = ys := by
  have hperm := (List.perm_ext_iff_of_nodup (nodup_of_pairwise_lt hx)
    (nodup_of_pairwise_lt hy)).mpr h
  exact hperm.eq_of_pairwise (fun _ _ _ _ hlt hgt => absurd hgt (List.lt_asymm hlt)) hx hy

end Order

namespace Green

variable {g : Green} {q : List Nat} {ds : List Diagnostic}

theorem pairwise_paths (g : Green) : g.paths.Pairwise (· < ·) :=
  List.pairwise_map.mpr (g.pairwise_listing_lt [])

def carried (g : Green) : List (List Nat × List Diagnostic) :=
  (g.listing []).map fun x => (x.1, x.2.diagnostics)

theorem mem_carried_iff : (q, ds) ∈ g.carried ↔ (g.descend? q).map diagnostics = some ds := by
  rw [carried, List.mem_map, Option.map_eq_some_iff]
  constructor
  · rintro ⟨⟨p, m⟩, hx, heq⟩
    obtain ⟨rfl, rfl⟩ := Prod.mk.inj heq
    obtain ⟨is, rfl, hm⟩ := mem_listing_iff.mp hx
    exact ⟨m, hm, rfl⟩
  · rintro ⟨m, hm, rfl⟩
    exact ⟨(q, m), mem_listing_iff.mpr ⟨q, rfl, hm⟩, rfl⟩

theorem pairwise_carried (g : Green) : g.carried.Pairwise fun x y => x.1 < y.1 :=
  List.pairwise_map.mpr (g.pairwise_listing_lt [])

end Green

end LosslessSyntax
