import LosslessSyntax.Proofs.Session.Explore
import LosslessSyntax.Proofs.Session.Gather

namespace LosslessSyntax

inductive Tour : Session → Walk → List Event → Session → Walk → Prop
  | done (s : Session) (w : Walk) : Tour s w [] s w
  | event {s t u : Session} {w w' last : Walk} {e : Event} {es : List Event} :
      w.next s = .ok (some e, w') t → Tour t w' es u last → Tour s w (e :: es) u last

namespace Tour

variable {s t u : Session} {w w' w'' : Walk} {es es' : List Event}

theorem unique {t' u' : Session} {r r' : Walk} (h : Tour s w es t w') (h' : Tour s w es' u w'')
    (hend : w'.next t = .ok (none, r) t') (hend' : w''.next u = .ok (none, r') u') :
    es = es' ∧ t' = u' := by
  induction h generalizing es' with
  | done s w =>
      cases h' with
      | done =>
          cases hend.symm.trans hend'
          exact ⟨rfl, rfl⟩
      | event hnext _ => exact nomatch hend.symm.trans hnext
  | event hnext _ ih =>
      cases h' with
      | done => exact nomatch hend'.symm.trans hnext
      | event hnext' hrest =>
          cases hnext.symm.trans hnext'
          obtain ⟨rfl, rfl⟩ := ih hrest hend
          exact ⟨rfl, rfl⟩

theorem of_trip {es : List (Event × Nat)} (h : Trip Walk.next s w es t w')
    (hzero : ∀ x ∈ es, x.2 = 0) : Tour s w (es.map Prod.fst) t w' := by
  induction h with
  | done s w => exact .done s w
  | @event s t u w w' last e n es hnext _ ih =>
      obtain rfl : n = 0 := hzero (e, n) List.mem_cons_self
      exact .event hnext (ih fun x hx => hzero x (List.mem_cons_of_mem _ hx))

end Tour

namespace Session

variable {s t : Session} {q : List Nat} {qs : List (List Nat)} {start id : Nat} {m : Green}
  {keep : Green → Bool}

def Lists (qs : List (List Nat)) (q : List Nat) (m : Green) : Prop :=
  ∀ r, (m.descend? r).isSome → q ++ r ∈ qs

theorem lists_paths {g : Green} (hm : g.descend? q = some m) : Lists g.paths q m := by
  intro r hr
  rw [Green.mem_paths_iff, Green.descend?_append, hm, Option.bind_some]
  exact hr

theorem nodup_vacant (s : Session) (start : Nat) (g : Green) : (s.vacant start g).Nodup :=
  (Green.nodup_paths g).filter _

theorem Confined.roomy (hs : Confined qs s) (h : s.At q id) (hm : s.root.descend? q = some m)
    (hqs : Lists qs q m) : s.Roomy id m := by
  obtain ⟨p, hp, hg, ho⟩ := h.holds hs.coherent hs.wellFormed
  obtain rfl := Option.some.inj (hm.symm.trans hg)
  have hfits := Green.offsetAt_add_width_le hs.wellFormed hm
  have hmax := hs.wellFormed.width_le
  refine ⟨hs.coherent, ⟨p, hp, rfl, hs.wellFormed.of_descend? hm, by omega⟩, ?_⟩
  -- what is placed and what is vacant below the element are different paths of the list
  have hnodup : (s.placed ++ (s.vacant id p.green).map (q ++ ·)).Nodup := by
    rw [List.nodup_append]
    have hvacant : ((s.vacant id p.green).map (q ++ ·)).Nodup :=
      (nodup_vacant s id p.green).map fun _ _ => List.append_cancel_left
    refine ⟨nodup_placed hs.coherent, hvacant, ?_⟩
    rintro r hr r' hr' rfl
    obtain ⟨v, hv, rfl⟩ := List.mem_map.mp hr'
    obtain ⟨a, ha⟩ := (mem_placed_iff hs.coherent).mp hr
    have hunder := (at_iff_under.mp ha).of_append hs.coherent (at_iff_under.mp h)
    exact ((mem_vacant_iff hs.coherent).mp hv).2 a hunder
  have hsub : s.placed ++ (s.vacant id p.green).map (q ++ ·) ⊆ qs := by
    refine List.append_subset.mpr ⟨hs.placed, fun r hr => ?_⟩
    obtain ⟨v, hv, rfl⟩ := List.mem_map.mp hr
    exact hqs v ((mem_vacant_iff hs.coherent).mp hv).1
  have hle := (List.subperm_of_subset hnodup hsub).length_le
  have hsplit := s.length_placed_add_strays
  have hroom := hs.room
  rw [List.length_append, List.length_map] at hle
  omega

theorem explored_of_grownBelow (hs : s.Coherent) (ht : t.Coherent) (h : s.At q start)
    (hst : GrownBelow start s t) : Explored s t := by
  refine ⟨ht, hst.grown, ?_⟩
  obtain ⟨k, hk⟩ := Nat.exists_eq_add_of_le hst.grown.size_le
  have hnew :
      ((List.range k).map (s.placements.size + ·)).countP (fun id => ¬ t.Attached id) = 0 := by
    rw [List.countP_eq_zero]
    intro id hid
    obtain ⟨j, hj, rfl⟩ := List.mem_map.mp hid
    have hlt := List.mem_range.mp hj
    obtain ⟨r, hr⟩ := hst.fresh (s.placements.size + j) (Nat.le_add_right _ _) (by omega)
    have hat := at_iff_under.mpr ((at_iff_under.mp (h.mono hst.grown)).trans hr)
    simpa using hat.attached ht
  rw [strays, hk, List.range_add, List.countP_append, countP_old hs ht hst.grown, hnew,
    Nat.add_zero]

theorem forall₂_listing {ids : List Nat} (h : s.At q id)
    (hids : List.Forall₂ (s.Under id) m.paths ids) :
    List.Forall₂ (fun id x => s.At x.1 id) ids (m.listing q) := by
  have hshift : m.listing q = (m.listing []).map fun x => (q ++ x.1, x.2) := by
    rw [← Green.listing_append, List.append_nil]
  rw [Green.paths, List.forall₂_map_left_iff] at hids
  rw [hshift, List.forall₂_map_right_iff]
  refine (hids.imp fun x id hid => ?_).flip
  exact at_iff_under.mpr ((at_iff_under.mp h).trans hid)

theorem Confined.tour (hs : Confined qs s) (h : s.At q id) (hm : s.root.descend? q = some m)
    (hqs : Lists qs q m) :
    ∃ es t, Tour s (Walk.ofNode id) es t ⟨id, none, false⟩ ∧ Explored s t ∧
      List.Forall₂ (fun id x => t.At x.1 id) (entered es) (m.listing q) ∧
      es.length = 2 * m.size := by
  obtain ⟨es, t, htrip⟩ := (hs.roomy h hm hqs).fullTrip
  refine ⟨es.map Prod.fst, t, .of_trip htrip.trip htrip.zero,
    explored_of_grownBelow hs.coherent htrip.roomy.coherent h htrip.grown,
    forall₂_listing (h.mono htrip.grown.grown) htrip.enters, ?_⟩
  rw [List.length_map, htrip.length_eq]

theorem forall₂_filter {ids : List Nat} {xs : List Green.Entry} (hs : s.Coherent)
    (hroot : s.root.WellFormed) (h : List.Forall₂ (fun id x => s.At x.1 id) ids xs)
    (hxs : ∀ x ∈ xs, s.root.descend? x.1 = some x.2) :
    List.Forall₂ (fun id x => s.At x.1 id) (ids.filter (kept keep s))
      (xs.filter fun x => keep x.2) := by
  induction h with
  | nil => exact .nil
  | @cons id x ids xs hat _ ih =>
      have hrest := ih fun y hy => hxs y (List.mem_cons_of_mem x hy)
      obtain ⟨p, hp, hm, -⟩ := hat.holds hs hroot
      have hgreen := Option.some.inj (hm.symm.trans (hxs x List.mem_cons_self))
      rw [List.filter_cons, List.filter_cons, kept_of_extends (.refl s) hp, hgreen]
      split
      · exact .cons hat hrest
      · exact hrest

theorem Confined.gather (hs : Confined qs s) (h : s.At q id) (hm : s.root.descend? q = some m)
    (hqs : Lists qs q m) (keep : Green → Bool) :
    ∃ ids t, walk (Walk.ofNode id) (keepEntered fun p => keep p.green) [] s = .ok ids.reverse t ∧
      Explored s t ∧
      List.Forall₂ (fun id x => t.At x.1 id) ids ((m.listing q).filter fun x => keep x.2) := by
  have hroomy := hs.roomy h hm hqs
  obtain ⟨es, t, htrip⟩ := hroomy.fullTrip
  have ht := htrip.roomy.coherent
  have hexplored := explored_of_grownBelow hs.coherent ht h htrip.grown
  refine ⟨_, t, htrip.walk_keepEntered hroomy keep, hexplored, ?_⟩
  refine forall₂_filter ht (hexplored.grown.root ▸ hs.wellFormed)
    (forall₂_listing (h.mono hexplored.grown) htrip.enters) ?_
  intro x hx
  rw [hexplored.grown.root, Green.descend?_of_mem_listing hm hx]

end Session

end LosslessSyntax
