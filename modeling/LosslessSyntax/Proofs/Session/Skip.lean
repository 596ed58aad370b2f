import LosslessSyntax.Proofs.Session.Gather
import LosslessSyntax.Proofs.Session.Survey

namespace LosslessSyntax

namespace Walk

variable {s t : Session} {start limit : Nat} {event : Option Event} {w w' last : Walk}
  {es : List (Event × Nat)}

def answers (step : Walk → Nav (Option Event × Walk)) :
    List Nat → Walk → Nav (List (Option Event))
  | [], _ => pure []
  | n :: ns, w => do
      let (event, w) ← step (skipSubtree^[n] w)
      let events ← answers step ns w
      pure (event :: events)

def Silent (step : Walk → Nav (Option Event × Walk)) (w : Walk) : Prop :=
  ∀ ns s, answers step ns w s = .ok (List.replicate ns.length none) s

theorem advance_of_over (s : Session) (nodes : Bool) (h : w.upcoming = none) (t : Session) :
    ∃ w', advance s nodes w t = .ok (none, w') t ∧ w'.upcoming = none := by
  cases nodes with
  | false => exact ⟨⟨w.start, none, false⟩, next_of_over w h t, rfl⟩
  | true =>
      rw [advance, if_pos rfl]
      cases bound s w.start with
      | zero => exact ⟨w, rfl, h⟩
      | succ limit =>
          refine ⟨⟨w.start, none, false⟩, ?_, rfl⟩
          rw [nextNode, Nav.bind_ok (next_of_over w h t)]
          rfl

theorem silent_of_over (s : Session) (nodes : Bool) (h : w.upcoming = none) :
    Silent (advance s nodes) w := by
  intro ns t
  induction ns generalizing w with
  | nil => rfl
  | cons n ns ih =>
      obtain ⟨w', hnext, hover⟩ :=
        advance_of_over s nodes ((upcoming_iterate_skipSubtree w n).trans h) t
      rw [answers, Nav.bind_ok hnext]
      dsimp only
      rw [Nav.bind_ok (ih hover)]
      rfl

theorem start_of_next (h : w.next s = .ok (event, w') t) : w'.start = w.start := by
  rw [next_eq] at h
  obtain ⟨pending, u, -, hrest⟩ := Nav.bind_eq_ok_iff.mp h
  cases pending with
  | none =>
      cases hrest
      rfl
  | some e =>
      obtain ⟨upcoming, v, -, hlast⟩ := Nav.bind_eq_ok_iff.mp hrest
      cases hlast
      rfl

theorem start_of_nextNode (h : w.nextNode limit s = .ok (event, w') t) : w'.start = w.start := by
  induction limit generalizing s w with
  | zero =>
      cases h
      rfl
  | succ limit ih =>
      rw [nextNode] at h
      obtain ⟨⟨found, w''⟩, u, hnext, hrest⟩ := Nav.bind_eq_ok_iff.mp h
      have hstart := start_of_next hnext
      cases found with
      | none =>
          cases hrest
          exact hstart
      | some e =>
          dsimp only at hrest
          obtain ⟨p, v, -, hlast⟩ := Nav.bind_eq_ok_iff.mp hrest
          split at hlast
          · cases hlast
            exact hstart
          · exact (ih hlast).trans hstart

theorem trip_advance (h : Trip (nextNode (bound s start)) t w es u last) (hw : w.start = start) :
    Trip (advance s true) t w es u last := by
  induction h with
  | done t w => exact .done t w
  | event hnext _ ih =>
      refine .event ?_ (ih ?_)
      · rw [advance, if_pos rfl, hw]
        exact hnext
      · rw [start_iterate_skipSubtree, start_of_nextNode hnext, hw]

end Walk

def toldBy (often : Waypoint → Nat) : List Waypoint → Nat
  | [] => 0
  | x :: _ => often x

theorem Obeys.of_toldBy {often : Waypoint → Nat} {past : List Waypoint}
    {xs : List (Waypoint × Nat)} (h : Obeys (toldBy often) past xs) :
    ∀ x ∈ xs, x.2 = often x.1 := by
  induction h with
  | nil => exact fun _ hx => absurd hx List.not_mem_nil
  | cons _ ih => exact List.forall_mem_cons.mpr ⟨rfl, ih⟩

namespace Green

def shows (g : Green) (nodes : Bool) (w : Waypoint) : Bool :=
  (g.descend? w.path).any fun m => !nodes || m.isNode

def passing (g : Green) (σ : List Waypoint → Nat) : List Waypoint → Nat
  | [] => 0
  | w :: past => if g.shows true w then σ ((w :: past).filter (g.shows true)) else 0

theorem RoutedAt.shows_all {g : Green} {ws : List (Waypoint × Nat)} (h : RoutedAt [] g ws) :
    ∀ x ∈ ws, g.shows false x.1 = true := by
  intro x hx
  obtain ⟨m, hm⟩ := Option.isSome_iff_exists.mp (h.mem_iff.mp (List.mem_map_of_mem hx)).1
  rw [shows, hm]
  rfl

end Green

theorem Obeys.of_passing {g : Green} {σ : List Waypoint → Nat} {past : List Waypoint}
    {xs : List (Waypoint × Nat)} (h : Obeys (g.passing σ) past xs) :
    Obeys σ (past.filter (g.shows true)) (xs.filter fun x => g.shows true x.1) ∧
      ∀ x ∈ xs, g.shows true x.1 = false → x.2 = 0 := by
  induction h with
  | nil past => exact ⟨.nil _, fun _ hx => absurd hx List.not_mem_nil⟩
  | @cons past x xs _ ih =>
      obtain ⟨hobeys, hzero⟩ := ih
      cases hshows : g.shows true x with
      | true =>
          have hn : g.passing σ (x :: past) = σ (x :: past.filter (g.shows true)) := by
            rw [Green.passing, if_pos hshows, List.filter_cons, if_pos hshows]
          rw [List.filter_cons, if_pos hshows] at hobeys
          rw [hn, List.filter_cons, if_pos hshows]
          refine ⟨.cons hobeys, List.forall_mem_cons.mpr ⟨fun hno => ?_, hzero⟩⟩
          exact nomatch hshows.symm.trans hno
      | false =>
          have hn : g.passing σ (x :: past) = 0 := by
            rw [Green.passing, hshows, if_neg Bool.false_ne_true]
          have hno : ¬ g.shows true x = true := by
            rw [hshows]
            exact Bool.false_ne_true
          rw [List.filter_cons, if_neg hno] at hobeys
          rw [hn, List.filter_cons, if_neg hno]
          exact ⟨hobeys, List.forall_mem_cons.mpr ⟨fun _ => rfl, hzero⟩⟩

namespace Session

structure Walked (s : Session) (start : Nat) (nodes : Bool) (xs : List (Waypoint × Nat))
    (es : List (Event × Nat)) (t : Session) : Prop where
  trip : ∃ last, Trip (Walk.advance s nodes) s (Walk.ofNode start) es t last ∧
    Walk.Silent (Walk.advance s nodes) last
  grown : GrownBelow start s t
  meets : List.Forall₂ (t.Meets start) xs es

variable {s t : Session} {start : Nat} {g : Green} {xs ws : List (Waypoint × Nat)}
  {es : List (Event × Nat)}

theorem concernsNode_of_meets (ht : t.Roomy start g) {x : Waypoint × Nat} {e : Event × Nat}
    (h : t.Meets start x e) : t.concernsNode e.1 = g.shows true x.1 := by
  obtain ⟨top, htop, rfl, hsized⟩ := ht.held
  have hsame {q : List Nat} {id : Nat} (hid : t.Under start q id) :
      kept Green.isNode t id = (top.green.descend? q).any fun m => !true || m.isNode := by
    obtain ⟨p, hp, hm, -⟩ := hid.holds ht.coherent htop hsized.wellFormed
    rw [kept_of_extends (.refl t) hp, hm]
    rfl
  cases h with
  | enter n hid => exact hsame hid
  | leave n hid => exact hsame hid

theorem Roomy.walked (h : s.Roomy start g) (hn : g.isNode = true) (nodes : Bool)
    (σ : List Waypoint → Nat) :
    ∃ ws xs es t, s.Walked start nodes xs es t ∧ t.Roomy start g ∧ Obeys σ [] xs ∧
      Green.RoutedAt [] g ws ∧ xs = (ws.filter fun x => g.shows nodes x.1) ∧
      ∀ x ∈ ws, g.shows nodes x.1 = false → x.2 = 0 := by
  cases nodes with
  | false =>
      obtain ⟨es, xs, t, n, htrip, -, ht, hst, hmeets, hobeys, hrouted⟩ := h.trip σ
      have hshows := hrouted.shows_all
      have hover := Walk.upcoming_iterate_skipSubtree ⟨start, none, false⟩ n
      refine ⟨xs, xs, es, t, ⟨⟨_, htrip, Walk.silent_of_over s false hover⟩, hst, hmeets⟩, ht,
        hobeys, hrouted, (List.filter_eq_self.mpr hshows).symm, fun x hx hno => ?_⟩
      exact nomatch (hshows x hx).symm.trans hno
  | true =>
      obtain ⟨es, ws, t, n, htrip, hlast, ht, hst, hmeets, hobeys, hrouted⟩ :=
        h.trip (g.passing σ)
      obtain ⟨hobeys, hzero⟩ := hobeys.of_passing
      obtain ⟨p, hp, rfl, -⟩ := h.held
      have hzeroes : ∀ e ∈ es, t.concernsNode e.1 = false → e.2 = 0 := by
        refine forall_events hmeets hzero fun hmeets hx hno => hmeets.snd_eq.trans (hx ?_)
        rwa [← concernsNode_of_meets ht hmeets]
      have hends : ∀ e ∈ es.getLast?, t.concernsNode e.1 = true := by
        rw [hlast]
        rintro e ⟨rfl⟩
        exact (concernsNode_of_meets ht (.leave n .self)).trans hn
      have hlength : es.length ≤ Walk.bound s start := by
        have hle := hrouted.sublist.length_le
        have hlt := two_mul_size_lt_bound h.coherent hp
        rw [List.length_map, Green.length_full, hmeets.length_eq] at hle
        omega
      have hnodes := nodes_of_trip h.coherent (has_start hp) htrip hzeroes hends hlength
      have hover := Walk.upcoming_iterate_skipSubtree ⟨start, none, false⟩ n
      have hsilent := Walk.silent_of_over s true hover
      refine ⟨ws, _, _, t, ⟨⟨_, Walk.trip_advance hnodes rfl, hsilent⟩, hst, ?_⟩, ht, hobeys,
        hrouted, rfl, hzero⟩
      refine List.rel_filter ?_ hmeets
      intro x e hmeets
      exact Bool.eq_iff_iff.mp (concernsNode_of_meets ht hmeets).symm

theorem Roomy.walked_toldBy (h : s.Roomy start g) (hn : g.isNode = true)
    (often : Waypoint → Nat) :
    ∃ xs es t, s.Walked start false xs es t ∧ (∀ x ∈ xs, x.2 = often x.1) ∧
      xs.map Prod.fst = g.route (fun w => often w != 0) [] := by
  obtain ⟨ws, xs, es, t, hwalked, -, hobeys, hrouted, hxs, hzero⟩ :=
    h.walked hn false (toldBy often)
  have hall : ws.filter (fun x => g.shows false x.1) = ws :=
    List.filter_eq_self.mpr hrouted.shows_all
  rw [hall] at hxs
  subst hxs
  have hoften := hobeys.of_toldBy
  refine ⟨xs, es, t, hwalked, hoften, hrouted.eq_route fun x hx => ?_⟩
  rw [bne_iff_ne, hoften x hx]

end Session

namespace Sample

open Session

theorem visit_roomy : visit.session.Roomy rootId assignment := by
  have hs := visit_reachable.sound.reached.coherent
  obtain ⟨p, hp, hgreen, hoffset, -⟩ := hs.root
  have hroot : visit.session.root = assignment := rfl
  rw [hroot] at hgreen
  have hsized : p.Sized := by
    refine ⟨hgreen ▸ assignment_wellFormed, ?_⟩
    rw [hgreen, hoffset, Nat.zero_add]
    exact assignment_wellFormed.width_le
  have hroom : visit.session.placements.size + assignment.size ≤ Arena.capacity := by decide
  exact hgreen ▸ Roomy.of_size hs hp hsized (hgreen ▸ hroom)

end Sample

end LosslessSyntax
