import LosslessSyntax.Proofs.Session.Tour
import LosslessSyntax.Proofs.Session.Visit

namespace LosslessSyntax

namespace Session

variable {s t : Session} {ids : List Nat} {xs : List Green.Entry}

theorem placed_of_forall₂ (hs : s.Coherent)
    (h : List.Forall₂ (fun id x => s.At x.1 id) ids xs) : xs.map Prod.fst ⊆ s.placed := by
  induction h with
  | nil => exact List.nil_subset _
  | cons hat _ ih => exact List.cons_subset.mpr ⟨(mem_placed_iff hs).mpr ⟨_, hat⟩, ih⟩

theorem placementCount_eq (hs : s.strays = 0) : s.placementCount = s.placed.length := by
  have hsplit := s.length_placed_add_strays
  rw [placementCount]
  omega

theorem placementCount_le (hs : s.Coherent) (hroot : s.root.WellFormed) (hstrays : s.strays = 0) :
    s.placementCount ≤ s.root.size := by
  rw [placementCount_eq hstrays, ← Green.length_paths]
  exact length_placed_le hs fun _ hq => placed_subset hs hroot hq

theorem size_le_placementCount (hs : s.Coherent) (hstrays : s.strays = 0)
    (h : List.Forall₂ (fun id x => s.At x.1 id) ids (s.root.listing [])) :
    s.root.size ≤ s.placementCount := by
  rw [placementCount_eq hstrays, ← Green.length_paths]
  exact (List.subperm_of_subset s.root.nodup_paths (placed_of_forall₂ hs h)).length_le

end Session

namespace Visit

open Session

structure Tallied (root : Green) (v : Visit) : Prop where
  coherent : v.session.Coherent
  unique : ∀ {i j a : Nat} {p r : Placement}, v.session.placements[i]? = some p →
    v.session.placements[j]? = some r → p.parent = some a → r.parent = some a →
    p.index = r.index → i = j
  lasting : ∀ w, Relation.ReflTransGen Step v w → Extends v.session w.session ∧
    v.session.placementCount ≤ w.session.placementCount
  counted : v.session.placementCount = 1 + v.detached + v.session.filled
  bounded : v.detached = 0 → v.session.placementCount ≤ root.size
  walkable : v.detached = 0 → root.size ≤ Arena.capacity →
    ∃ es t, Tour v.session (Walk.ofNode rootId) es t ⟨rootId, none, false⟩
  walked : v.detached = 0 → root.size ≤ Arena.capacity →
    ∀ {es : List Event} {t u : Session} {w r : Walk},
      Tour v.session (Walk.ofNode rootId) es t w → w.next t = .ok (none, r) u →
      u.placementCount = root.size

variable {root : Green} {v w : Visit}

theorem Sound.tour (h : v.Sound root) (hzero : v.detached = 0) (hroom : root.size ≤ Arena.capacity) :
    ∃ es t, Tour v.session (Walk.ofNode rootId) es t ⟨rootId, none, false⟩ ∧
      t.placementCount = root.size := by
  have hs := h.reached
  have hstrays := h.strays hzero
  obtain rfl := h.root
  have hconfined := Confined.of_fits hs (by rw [hstrays]; exact hroom)
  obtain ⟨es, t, htour, hst, hlist, -⟩ := hconfined.tour .root rfl (lists_paths rfl)
  have ht := hst.coherent
  have hroot := hst.grown.root
  have hnone := hst.strays_eq.trans hstrays
  rw [← hroot] at hlist
  have hle := placementCount_le ht (hroot ▸ hs.root_wellFormed) hnone
  have hge := size_le_placementCount ht hnone hlist
  exact ⟨es, t, htour, hroot ▸ Nat.le_antisymm hle hge⟩

theorem Reachable.tallied (h : Reachable root v) : v.Tallied root := by
  have hv := h.sound
  have hs := hv.reached.coherent
  refine ⟨hs, fun hp hr ha ha' hi => hs.unique hp hr ha ha' hi, ?_, hv.tally, ?_, ?_, ?_⟩
  · intro w hsteps
    obtain ⟨-, hext⟩ := h.later hsteps
    exact ⟨hext, hext.size_le⟩
  · intro hzero
    rw [← hv.root]
    exact placementCount_le hs hv.reached.root_wellFormed (hv.strays hzero)
  · intro hzero hroom
    obtain ⟨es, t, htour, -⟩ := hv.tour hzero hroom
    exact ⟨es, t, htour⟩
  · intro hzero hroom es t u w r htour hend
    obtain ⟨es', t', htour', hcount⟩ := hv.tour hzero hroom
    obtain ⟨-, rfl⟩ := htour.unique htour' hend rfl
    exact hcount

end Visit

namespace Sample

theorem visit_tallied : Visit.Reachable assignment visit ∧ visit.session.placementCount = 3 ∧
    visit.Tallied assignment :=
  ⟨visit_reachable, rfl, visit_reachable.tallied⟩

end Sample

end LosslessSyntax
