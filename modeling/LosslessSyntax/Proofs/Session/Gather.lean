import LosslessSyntax.Proofs.Session.Search
import LosslessSyntax.Proofs.Session.Trip

namespace LosslessSyntax

open Nav.Finding (concerned passed)

namespace Session

variable {s t u : Session} {w w' last : Walk} {e : Event} {event : Option Event}
  {es : List (Event × Nat)} {keep : Green → Bool} {id n limit : Nat} {p : Placement}
  {step : Walk → Nav (Option Event × Walk)}

def kept (keep : Green → Bool) (s : Session) (id : Nat) : Bool :=
  s.placements[id]?.any fun p => keep p.green

theorem kept_of_extends (hst : Extends s t) (hp : s.placements[id]? = some p) :
    kept keep t id = keep p.green := by
  obtain ⟨r, hr, hgreen, -⟩ := hst.kept hp
  rw [kept, hr, Option.any_some, hgreen]

section Trip

variable (hstep : ∀ {known w}, concerned w.upcoming ⊆ known → Nav.Finding known (step w) passed)

include hstep

theorem grown_of_step (hs : s.Coherent) (hw : s.Has (concerned w.upcoming))
    (hnext : step w s = .ok (event, w') t) :
    t.Coherent ∧ Extends s t ∧ t.Has (concerned event) ∧ t.Has (concerned w'.upcoming) := by
  obtain ⟨hmoves, hfound⟩ := hstep (List.Subset.refl _) s hs hw
  rw [Nav.after_of_ok hnext] at hmoves
  obtain ⟨ht, hst⟩ := hs.moves hmoves
  have hhas := hfound _ _ hnext
  exact ⟨ht, hst, hhas.of_subset (List.subset_append_left _ _),
    hhas.of_subset (List.subset_append_right _ _)⟩

theorem grown_of_trip (hs : s.Coherent) (hw : s.Has (concerned w.upcoming))
    (h : Trip step s w es t last) : Extends s t := by
  induction h with
  | done s w => exact .refl s
  | event hnext _ ih =>
      obtain ⟨ht, hst, -, hhas⟩ := grown_of_step hstep hs hw hnext
      exact hst.trans (ih ht (by rwa [Walk.upcoming_iterate_skipSubtree]))

theorem run_keepEntered (keep : Green → Bool) (hs : s.Coherent) (hw : s.Has (concerned w.upcoming))
    (h : Trip step s w es t last) (hzero : ∀ x ∈ es, x.2 = 0)
    (hend : step last t = .ok (none, w') t) (hlimit : es.length ≤ limit) (found : List Nat) :
    Walk.run step (keepEntered fun p => keep p.green) limit w found s =
      .ok (((entered (es.map Prod.fst)).filter (kept keep t)).reverse ++ found) t := by
  induction h generalizing limit found with
  | done s w =>
      cases limit with
      | zero => rfl
      | succ limit =>
          rw [Walk.run, Nav.bind_ok hend]
          rfl
  | @event s t u w w' last e n es hnext hrest ih =>
      obtain ⟨ht, hst, hevent, hhas⟩ := grown_of_step hstep hs hw hnext
      obtain rfl : n = 0 := hzero (e, n) List.mem_cons_self
      obtain ⟨limit, rfl⟩ := Nat.exists_eq_add_of_lt hlimit
      have htu := grown_of_trip hstep ht hhas hrest
      have hih := fun found => ih ht hhas (fun x hx => hzero x (List.mem_cons_of_mem _ hx)) hend
        (Nat.le_add_right es.length limit) found
      rw [Walk.run, Nav.bind_ok hnext]
      cases e with
      | leave id => exact hih found
      | enter id =>
          obtain ⟨p, hp⟩ : ∃ p, t.placements[id]? = some p :=
            ⟨_, Array.getElem?_eq_getElem (hevent id List.mem_cons_self)⟩
          have hvisit : keepEntered (fun p => keep p.green) (.enter id) found t =
              .ok (if keep p.green then id :: found else found, false) t := by
            rw [keepEntered, Nav.bind_ok (Nav.placement_eq hp)]
            rfl
          dsimp only
          rw [Nav.bind_ok hvisit]
          have hentered : entered (((.enter id, 0) :: es).map Prod.fst) =
              id :: entered (es.map Prod.fst) := rfl
          rw [hentered, List.filter_cons, kept_of_extends htu hp]
          split
          · rw [List.reverse_cons, List.append_assoc]
            exact hih (id :: found)
          · exact hih found

end Trip

section Full

variable {start : Nat} {g : Green}

structure FullTrip (s : Session) (start : Nat) (g : Green) (es : List (Event × Nat))
    (t : Session) : Prop where
  trip : Trip Walk.next s (Walk.ofNode start) es t ⟨start, none, false⟩
  last : es.getLast? = some (.leave start, 0)
  roomy : t.Roomy start g
  grown : GrownBelow start s t
  meets : List.Forall₂ (t.Meets start) ((g.route Waypoint.never []).map fun w => (w, 0)) es

theorem Roomy.fullTrip (h : s.Roomy start g) : ∃ es t, s.FullTrip start g es t := by
  obtain ⟨es, xs, t, n, htrip, hlast, ht, hst, hmeets, hobeys, hrouted⟩ := h.trip fun _ => 0
  have hxs := hobeys.eq_zero
  have hcut : Green.CutAt Waypoint.never xs := fun x hx =>
    iff_of_false Bool.false_ne_true fun hn => hn (hxs x hx)
  have hzero : xs = (g.route Waypoint.never []).map fun w => (w, 0) := by
    rw [← hrouted.eq_route hcut, List.map_map]
    conv_lhs => rw [← List.map_id xs]
    exact List.map_congr_left fun x hx => Prod.ext rfl (hxs x hx)
  obtain rfl : n = 0 := forall_events hmeets hxs (fun h hx => h.snd_eq.trans hx) _
    (List.mem_of_getLast? hlast)
  exact ⟨es, t, htrip, hlast, ht, hst, hzero ▸ hmeets⟩

namespace FullTrip

theorem zero (h : s.FullTrip start g es t) : ∀ x ∈ es, x.2 = 0 := by
  refine forall_events h.meets (P := fun x => x.2 = 0) ?_ fun h hx => h.snd_eq.trans hx
  intro x hx
  obtain ⟨w, -, rfl⟩ := List.mem_map.mp hx
  rfl

theorem length_eq (h : s.FullTrip start g es t) : es.length = 2 * g.size := by
  rw [← h.meets.length_eq, List.length_map, Green.length_full]

theorem enters (h : s.FullTrip start g es t) :
    List.Forall₂ (t.Under start) g.paths (entered (es.map Prod.fst)) := by
  have hentered := entered_of_meets h.meets
  have hfst : ((g.route Waypoint.never []).map fun w => (w, 0)).map Prod.fst =
      g.route Waypoint.never [] := by
    rw [List.map_map]
    exact List.map_id _
  rwa [hfst, Green.entered_route] at hentered

end FullTrip

theorem two_mul_size_lt_bound (hs : s.Coherent) (hp : s.placements[id]? = some p) :
    2 * p.green.size < Walk.bound s id := by
  induction id using Nat.strong_induction_on generalizing p with
  | _ id ih =>
      cases ha : p.parent with
      | none =>
          rw [Walk.bound, lineage_of_no_parent hp ha, List.getLast?_singleton]
          exact Nat.lt_succ_self _
      | some a =>
          obtain ⟨hlt, above, _, habove, hslot, -⟩ := hs.below hp ha
          have hsmaller := Green.size_lt_of_mem (Green.mem_children_of_slot? hslot)
          have habove := ih a hlt habove
          rw [Walk.bound] at habove
          rw [Walk.bound, lineage_of_parent hs hp ha, List.getLast?_cons]
          cases hlast : (s.lineage a).getLast? with
          | none =>
              rw [hlast] at habove
              exact absurd habove (Nat.not_lt_zero _)
          | some x =>
              rw [hlast] at habove
              dsimp only [Option.getD_some] at habove ⊢
              omega

theorem has_start (hp : s.placements[id]? = some p) :
    s.Has (concerned (Walk.ofNode id).upcoming) :=
  List.forall_mem_singleton.mpr (lt_size_of_getElem? hp)

theorem FullTrip.length_le_bound (h : s.FullTrip start g es t) (hs : s.Roomy start g) :
    es.length ≤ Walk.bound s start := by
  obtain ⟨p, hp, rfl, -⟩ := hs.held
  have hbound := two_mul_size_lt_bound hs.coherent hp
  have hlength := h.length_eq
  omega

theorem FullTrip.walk_keepEntered (h : s.FullTrip start g es t) (hs : s.Roomy start g)
    (keep : Green → Bool) :
    walk (Walk.ofNode start) (keepEntered fun p => keep p.green) [] s =
      .ok ((entered (es.map Prod.fst)).filter (kept keep t)).reverse t := by
  obtain ⟨p, hp, -⟩ := hs.held
  have hrun := run_keepEntered Nav.Finding.step keep hs.coherent (has_start hp) h.trip h.zero rfl
    (h.length_le_bound hs) []
  have hget : (get : Nav Session) s = .ok s s := rfl
  rw [walk, Nav.bind_ok hget]
  rwa [List.append_nil] at hrun

end Full

section Nodes

theorem nextNode_of_node (hnext : w.next s = .ok (some e, w') t)
    (hp : t.placements[e.placement]? = some p) (h : p.isNode = true) (limit : Nat) :
    w.nextNode (limit + 1) s = .ok (some e, w') t := by
  rw [Walk.nextNode, Nav.bind_ok hnext]
  dsimp only
  rw [Nav.bind_ok (Nav.placement_eq hp), if_pos h]
  rfl

theorem nextNode_of_token (hnext : w.next s = .ok (some e, w') t)
    (hp : t.placements[e.placement]? = some p) (h : p.isNode = false) (limit : Nat) :
    w.nextNode (limit + 1) s = w'.nextNode limit t := by
  rw [Walk.nextNode, Nav.bind_ok hnext]
  dsimp only
  rw [Nav.bind_ok (Nav.placement_eq hp), h, if_neg Bool.false_ne_true]

theorem nextNode_mono {limit' : Nat} (hle : limit ≤ limit')
    (h : w.nextNode limit s = .ok (some e, w') t) : w.nextNode limit' s = .ok (some e, w') t := by
  induction limit generalizing limit' s w with
  | zero => cases h
  | succ limit ih =>
      obtain ⟨limit', rfl⟩ := Nat.exists_eq_add_of_lt hle
      rw [Walk.nextNode] at h ⊢
      obtain ⟨⟨event, w''⟩, u, hnext, hrest⟩ := Nav.bind_eq_ok_iff.mp h
      rw [Nav.bind_ok hnext]
      cases event with
      | none => exact hrest
      | some e' =>
          dsimp only at hrest ⊢
          obtain ⟨p, v, hp, hlast⟩ := Nav.bind_eq_ok_iff.mp hrest
          rw [Nav.bind_ok hp]
          split at hlast
          · rwa [if_pos ‹_›]
          · rw [if_neg ‹_›]
            exact ih (by omega) hlast

theorem trip_of_token (hnext : w.next s = .ok (some e, w') t)
    (hp : t.placements[e.placement]? = some p) (hnode : p.isNode = false) (hsome : es ≠ [])
    (h : Trip (Walk.nextNode limit) t w' es u last) :
    Trip (Walk.nextNode (limit + 1)) s w es u last := by
  cases h with
  | done => exact absurd rfl hsome
  | event hfirst hrest =>
      refine .event ((nextNode_of_token hnext hp hnode limit).trans hfirst) ?_
      exact hrest.imp fun h => nextNode_mono (Nat.le_succ limit) h

theorem filter_ne_nil_of_last {e : Event × Nat} {keep : Event × Nat → Bool} (he : keep e = false)
    (hlast : ∀ x ∈ (e :: es).getLast?, keep x = true) : es.filter keep ≠ [] := by
  intro hnil
  have hnone : ∀ x ∈ es, ¬ keep x = true := List.filter_eq_nil_iff.mp hnil
  have hend : (e :: es).getLast? = some (es.getLast?.getD e) := List.getLast?_cons
  have hkept := hlast _ hend
  rcases List.mem_cons.mp (List.mem_of_getLast? hend) with heq | hmem
  · rw [heq, he] at hkept
    exact Bool.false_ne_true hkept
  · exact hnone _ hmem hkept

def concernsNode (s : Session) (e : Event) : Bool := kept Green.isNode s e.placement

theorem nodes_of_trip (hs : s.Coherent) (hw : s.Has (concerned w.upcoming))
    (h : Trip Walk.next s w es t last)
    (hzero : ∀ x ∈ es, t.concernsNode x.1 = false → x.2 = 0)
    (hlast : ∀ x ∈ es.getLast?, t.concernsNode x.1 = true) (hlimit : es.length ≤ limit) :
    Trip (Walk.nextNode limit) s w (es.filter fun x => t.concernsNode x.1) t last := by
  induction h generalizing limit with
  | done s w => exact .done s w
  | @event s t u w w' last e n es hnext hrest ih =>
      obtain ⟨ht, hst, hevent, hhas⟩ := grown_of_step Nav.Finding.step hs hw hnext
      rw [← Walk.upcoming_iterate_skipSubtree w' n] at hhas
      have htu := grown_of_trip Nav.Finding.step ht hhas hrest
      obtain ⟨p, hp⟩ : ∃ p, t.placements[e.placement]? = some p :=
        ⟨_, Array.getElem?_eq_getElem (hevent e.placement List.mem_cons_self)⟩
      have hkept : u.concernsNode e = p.isNode := kept_of_extends htu hp
      obtain ⟨limit, rfl⟩ := Nat.exists_eq_add_of_lt hlimit
      have hih {limit : Nat} (hle : es.length ≤ limit) :
          Trip (Walk.nextNode limit) t (Walk.skipSubtree^[n] w')
            (es.filter fun x => u.concernsNode x.1) u last := by
        refine ih ht hhas (fun x hx => hzero x (List.mem_cons_of_mem _ hx)) ?_ hle
        intro x hx
        exact hlast x (by rw [List.getLast?_cons, hx]; rfl)
      cases hnode : p.isNode with
      | true =>
          have hshown : u.concernsNode e = true := hkept.trans hnode
          rw [List.filter_cons, if_pos hshown]
          exact .event (nextNode_of_node hnext hp hnode _) (hih (by omega))
      | false =>
          have hskip : u.concernsNode e = false := hkept.trans hnode
          obtain rfl : n = 0 := hzero (e, n) List.mem_cons_self hskip
          rw [List.filter_cons, hskip, if_neg Bool.false_ne_true]
          have hsome : (es.filter fun x => u.concernsNode x.1) ≠ [] :=
            filter_ne_nil_of_last (e := (e, 0)) hskip hlast
          exact trip_of_token hnext hp hnode hsome (hih (Nat.le_add_right es.length limit))

end Nodes

end Session

end LosslessSyntax
