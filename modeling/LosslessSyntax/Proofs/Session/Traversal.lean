import LosslessSyntax.Proofs.Session.Skip

namespace LosslessSyntax

namespace Green

variable {g : Green} {skip : List Nat → Bool} {nodes : Bool} {ws xs : List (Waypoint × Nat)}

theorem RoutedAt.eq_route_onEnter (h : RoutedAt [] g ws)
    (hxs : xs = ws.filter fun x => g.shows nodes x.1)
    (hskip : ∀ x ∈ xs, x.2 = if Waypoint.onEnter skip x.1 then 1 else 0)
    (hzero : ∀ x ∈ ws, g.shows nodes x.1 = false → x.2 = 0) :
    ws.map Prod.fst = g.route (Waypoint.onEnter skip) [] := by
  have hcut : CutAt (fun w => Waypoint.onEnter skip w && g.shows nodes w) ws := by
    intro x hx
    cases hshows : g.shows nodes x.1 with
    | false => simp [hshows, hzero x hx hshows]
    | true =>
        have hmem : x ∈ xs := hxs ▸ List.mem_filter.mpr ⟨hx, hshows⟩
        simp [hshows, hskip x hmem]
  rw [h.eq_route hcut]
  refine route_congr (fun r => rfl) fun r m hm hn => ?_
  have hshows : g.shows nodes (.enter ([] ++ r)) = true := by
    rw [shows, Waypoint.path, List.nil_append, hm, Option.any_some, hn, Bool.or_true]
  rw [hshows, Bool.and_true]

theorem pairwise_entered (h : (xs.map Prod.fst).Sublist (g.route Waypoint.never [])) :
    ((xs.map Prod.fst).filterMap Waypoint.entered?).Pairwise (· < ·) := by
  have hall : ((g.listing []).map Prod.fst).Pairwise (· < ·) :=
    List.pairwise_map.mpr (g.pairwise_listing_lt [])
  rw [← entered_route] at hall
  exact hall.sublist (h.filterMap _)

end Green

namespace Session

variable {s t : Session} {start : Nat} {g : Green} {qs : List (List Nat)} {ids : List Nat}
  {es : List (Event × Nat)}

theorem pairwise_path (ht : t.Coherent) (h : List.Forall₂ (t.Under start) qs ids)
    (hqs : qs.Pairwise (· < ·)) :
    ids.Pairwise fun i j => compare (t.path i) (t.path j) = .lt := by
  have hpaths : ids.map t.path = qs.map fun q => ⟨(t.path start).indices ++ q⟩ := by
    clear hqs
    induction h with
    | nil => rfl
    | cons hid _ ih => rw [List.map_cons, List.map_cons, ih, hid.path_eq ht]
  rw [← List.pairwise_map (f := t.path) (R := fun p r => compare p r = .lt), hpaths,
    List.pairwise_map]
  exact hqs.imp fun hlt => Path.compare_eq_lt_iff.mpr (List.append_left_lt hlt)

theorem entered_filter (t : Session) (es : List (Event × Nat)) :
    entered ((es.filter fun x => t.concernsNode x.1).map Prod.fst) =
      (entered (es.map Prod.fst)).filter (kept Green.isNode t) := by
  simp only [entered, List.filterMap_map, List.filterMap_filter, List.filter_filterMap]
  refine List.filterMap_congr fun x _ => ?_
  obtain ⟨id | id, n⟩ := x
  · cases hnode : kept Green.isNode t id <;>
      simp [Event.entered?, concernsNode, Event.placement, Option.filter, hnode]
  · simp [Event.entered?]

theorem filter_kept_all (ht : t.Roomy start g) (h : List.Forall₂ (t.Under start) qs ids) :
    ids.filter (kept (fun _ => true) t) = ids := by
  obtain ⟨p, hp, -⟩ := ht.held
  refine List.filter_eq_self.mpr ?_
  induction h with
  | nil => exact fun _ hid => absurd hid List.not_mem_nil
  | cons hid _ ih =>
      obtain ⟨r, hr⟩ := hid.exists_placement hp
      exact List.forall_mem_cons.mpr ⟨kept_of_extends (.refl t) hr, ih⟩

theorem FullTrip.gathered (h : s.FullTrip start g es t) (hs : s.Roomy start g)
    (hn : g.isNode = true) :
    descendantsWithTokens start s = .ok (entered (es.map Prod.fst)) t ∧
      descendants start s = .ok ((entered (es.map Prod.fst)).filter (kept Green.isNode t)) t ∧
      descendantTokens start s =
        .ok ((entered (es.map Prod.fst)).filter (kept (fun m => !m.isNode) t)) t := by
  have hall := h.walk_keepEntered hs fun _ => true
  have htokens := h.walk_keepEntered hs fun m => !m.isNode
  rw [filter_kept_all h.roomy h.enters] at hall
  refine ⟨?_, ?_, ?_⟩
  · have hrun : descendantsWithTokens start s = _ := Nav.bind_ok hall
    rwa [List.reverse_reverse] at hrun
  · obtain ⟨p, hp, -⟩ := hs.held
    have hends : ∀ e ∈ es.getLast?, t.concernsNode e.1 = true := by
      rw [h.last]
      rintro e ⟨rfl⟩
      exact (concernsNode_of_meets h.roomy (.leave 0 .self)).trans hn
    have hlimit := h.length_le_bound hs
    have hnodes := nodes_of_trip hs.coherent (has_start hp) h.trip (fun e he _ => h.zero e he) hends
      hlimit
    have hzero : ∀ e ∈ es.filter fun x => t.concernsNode x.1, e.2 = 0 :=
      fun e he => h.zero e (List.mem_of_mem_filter he)
    obtain ⟨w, hend, -⟩ := Walk.advance_of_over (w := ⟨start, none, false⟩) s true rfl t
    have hrun := run_keepEntered (Nav.Finding.stepNode _) (fun _ => true) hs.coherent
      (has_start hp) hnodes hzero hend ((List.length_filter_le _ _).trans hlimit) []
    rw [entered_filter, List.filter_comm, filter_kept_all h.roomy h.enters, List.append_nil] at hrun
    have hget : (get : Nav Session) s = .ok s s := rfl
    have hwalk : walkNodes (Walk.ofNode start) (keepEntered fun _ => true) [] s = _ :=
      (Nav.bind_ok hget).trans hrun
    have hfound : descendants start s = _ := Nav.bind_ok hwalk
    rwa [List.reverse_reverse] at hfound
  · have hrun : descendantTokens start s = _ := Nav.bind_ok htokens
    rwa [List.reverse_reverse] at hrun

theorem Roomy.walk_traverses (h : s.Roomy start g) (hn : g.isNode = true) :
    (∀ (skip : List Nat → Bool) (nodes : Bool), ∃ xs es t, s.Walked start nodes xs es t ∧
      (∀ x ∈ xs, x.2 = if Waypoint.onEnter skip x.1 then 1 else 0) ∧
      xs.map Prod.fst = (g.route (Waypoint.onEnter skip) []).filter (g.shows nodes) ∧
      (entered (es.map Prod.fst)).Pairwise fun i j => compare (t.path i) (t.path j) = .lt) ∧
    ∃ es t, s.Walked start false ((g.route Waypoint.never []).map fun w => (w, 0)) es t ∧
      List.Forall₂ (t.Under start) g.paths (entered (es.map Prod.fst)) ∧
      descendantsWithTokens start s = .ok (entered (es.map Prod.fst)) t ∧
      descendants start s = .ok ((entered (es.map Prod.fst)).filter (kept Green.isNode t)) t ∧
      descendantTokens start s =
        .ok ((entered (es.map Prod.fst)).filter (kept (fun m => !m.isNode) t)) t := by
  constructor
  · intro skip nodes
    obtain ⟨ws, xs, es, t, hwalked, ht, hobeys, hrouted, hxs, hzero⟩ :=
      h.walked hn nodes (toldBy fun w => if Waypoint.onEnter skip w then 1 else 0)
    have hskip := hobeys.of_toldBy
    have hfst : xs.map Prod.fst = (ws.map Prod.fst).filter (g.shows nodes) := by
      rw [hxs, List.filter_map]
      rfl
    have hsub : (xs.map Prod.fst).Sublist (g.route Waypoint.never []) := by
      rw [hfst]
      exact List.filter_sublist.trans hrouted.sublist
    refine ⟨xs, es, t, hwalked, hskip, ?_, ?_⟩
    · rw [hfst, hrouted.eq_route_onEnter hxs hskip hzero]
    · exact pairwise_path ht.coherent (entered_of_meets hwalked.meets) (Green.pairwise_entered hsub)
  · obtain ⟨es, t, htrip⟩ := h.fullTrip
    have hsilent := Walk.silent_of_over (w := ⟨start, none, false⟩) s false rfl
    exact ⟨es, t, ⟨⟨_, htrip.trip, hsilent⟩, htrip.grown, htrip.meets⟩, htrip.enters,
      htrip.gathered h hn⟩

end Session

namespace Sample

open Session

theorem assignment_traversed : visit.session.Roomy rootId assignment ∧ assignment.isNode = true ∧
    ∃ xs es t, visit.session.Walked rootId false xs es t ∧
      xs.map Prod.fst = [.enter [], .enter [0], .leave [0], .enter [1], .leave [1], .enter [2],
        .enter [2, 0], .leave [2, 0], .leave [2], .enter [3], .leave [3], .leave []] := by
  obtain ⟨xs, es, t, hwalked, -, hfst, -⟩ :=
    (visit_roomy.walk_traverses rfl).1 (fun q => q == [0]) false
  exact ⟨visit_roomy, rfl, xs, es, t, hwalked, hfst⟩

end Sample

end LosslessSyntax
