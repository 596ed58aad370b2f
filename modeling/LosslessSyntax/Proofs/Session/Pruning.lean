import LosslessSyntax.Proofs.Session.Skip

namespace LosslessSyntax

namespace Green

variable {g : Green} {w : Waypoint} {nodes : Bool} {ws xs : List (Waypoint × Nat)} {q is : List Nat}
  {i : Nat}

theorem isSome_of_shows (h : g.shows nodes w = true) : (g.descend? w.path).isSome := by
  rw [shows] at h
  cases hm : g.descend? w.path with
  | none =>
      rw [hm] at h
      exact absurd h Bool.false_ne_true
  | some m => rfl

theorem shows_enter_of_shows (h : g.shows nodes w = true) (hw : w.path = q ++ i :: is) :
    g.shows nodes (.enter (q ++ [i])) = true := by
  cases is with
  | nil =>
      rw [shows, hw] at h
      exact h
  | cons j is =>
      have hsome := isSome_of_shows h
      rw [hw, List.append_cons, descend?_append] at hsome
      obtain ⟨m, hm⟩ := Option.isSome_iff_exists.mp (Option.isSome_of_isSome_bind hsome)
      rw [hm, Option.bind_some, descend?_cons] at hsome
      obtain ⟨c, hc⟩ := Option.isSome_iff_exists.mp (Option.isSome_of_isSome_bind hsome)
      rw [shows, Waypoint.path, hm, Option.any_some, isNode_of_child?_eq_some hc, Bool.or_true]

theorem RoutedAt.mem_shown_iff (h : RoutedAt [] g ws)
    (hxs : xs = ws.filter fun x => g.shows nodes x.1)
    (hzero : ∀ x ∈ ws, g.shows nodes x.1 = false → x.2 = 0) :
    w ∈ xs.map Prod.fst ↔
      g.shows nodes w = true ∧ ∀ x ∈ xs, x.2 ≠ 0 → ¬ x.1.Cuts w.path := by
  have hmem : w ∈ xs.map Prod.fst ↔ w ∈ ws.map Prod.fst ∧ g.shows nodes w = true := by
    have hfst : xs.map Prod.fst = (ws.map Prod.fst).filter (g.shows nodes) := by
      rw [hxs, List.filter_map]
      rfl
    rw [hfst, List.mem_filter]
  have htold : (∀ x ∈ ws, x.2 ≠ 0 → ¬ x.1.Cuts w.path) ↔
      ∀ x ∈ xs, x.2 ≠ 0 → ¬ x.1.Cuts w.path := by
    refine ⟨fun hnone x hx => hnone x ?_, fun hnone x hx hn => hnone x ?_ hn⟩
    · rw [hxs] at hx
      exact List.mem_of_mem_filter hx
    · rw [hxs, List.mem_filter]
      exact ⟨hx, Bool.eq_true_of_not_eq_false fun hno => hn (hzero x hx hno)⟩
  rw [hmem, h.mem_iff, htold]
  exact ⟨fun hw => ⟨hw.2, hw.1.2⟩, fun hw => ⟨⟨isSome_of_shows hw.1, hw.2⟩, hw.1⟩⟩

theorem RoutedAt.getLast?_shown (h : RoutedAt [] g ws) (hn : g.isNode = true)
    (hxs : xs = ws.filter fun x => g.shows nodes x.1) :
    (xs.map Prod.fst).getLast? = some (.leave []) := by
  obtain ⟨k, -, -⟩ := h
  have hshows : g.shows nodes (.leave []) = true := by
    rw [shows, Waypoint.path, descend?_nil, Option.any_some, hn, Bool.or_true]
  have hlast : [((.leave [], k) : Waypoint × Nat)].filter (fun x => g.shows nodes x.1) =
      [(.leave [], k)] := by
    rw [List.filter_cons, if_pos hshows, List.filter_nil]
  rw [hxs, List.filter_append, hlast, List.map_append]
  exact List.getLast?_concat

end Green

namespace Session

variable {s : Session} {start : Nat} {g : Green} {p : Placement}

/-- Skips take away from a walk what is below the elements that were just entered, and nothing else
as long as none follows when an element is left that has others after it. -/
theorem Roomy.skips_prune (h : s.Roomy start g) (hn : g.isNode = true) (nodes : Bool)
    (σ : List Waypoint → Nat) :
    ∃ xs es t, s.Walked start nodes xs es t ∧ Obeys σ [] xs ∧ (xs.map Prod.fst).Nodup ∧
      (xs.map Prod.fst).Sublist (g.route Waypoint.never []) ∧
      (xs.map Prod.fst).getLast? = some (.leave []) ∧
      (∀ w, w ∈ xs.map Prod.fst ↔
        g.shows nodes w = true ∧ ∀ x ∈ xs, x.2 ≠ 0 → ¬ x.1.Cuts w.path) ∧
      ((∀ q i n, (.leave (q ++ [i]), n) ∈ xs → n ≠ 0 → ∀ j, i < j →
          g.shows nodes (.enter (q ++ [j])) = false) →
        ∀ w, w ∈ xs.map Prod.fst ↔ g.shows nodes w = true ∧
          ∀ q n, (.enter q, n) ∈ xs → n ≠ 0 → ∀ i is, w.path ≠ q ++ i :: is) := by
  obtain ⟨ws, xs, es, t, hwalked, -, hobeys, hrouted, hxs, hzero⟩ := h.walked hn nodes σ
  have hsub : (xs.map Prod.fst).Sublist (g.route Waypoint.never []) := by
    rw [hxs]
    exact (List.filter_sublist.map _).trans hrouted.sublist
  have hmem := fun w => hrouted.mem_shown_iff (w := w) hxs hzero
  refine ⟨xs, es, t, hwalked, hobeys, hsub.nodup (Green.nodup_full g []), hsub,
    hrouted.getLast?_shown hn hxs, hmem, fun hlate w => ?_⟩
  rw [hmem w]
  refine and_congr_right fun hshows => ⟨fun hnone q n hx hn i is hw => ?_, fun hnone => ?_⟩
  · exact hnone _ hx hn (hw ▸ .below q i is)
  · rintro ⟨a, n⟩ hx hn hcuts
    generalize hw : w.path = r at hcuts
    cases hcuts with
    | below q i is => exact hnone q n hx hn i is hw
    | @later q i j is hlt =>
        have hno := hlate q i n hx hn j hlt
        exact nomatch hno.symm.trans (Green.shows_enter_of_shows hshows hw)

end Session

namespace Sample

open Session

theorem name_pruned : visit.session.Roomy rootId assignment ∧ assignment.isNode = true ∧
    ∃ xs es t, visit.session.Walked rootId false xs es t ∧
      ∀ w, w ∈ xs.map Prod.fst ↔ assignment.shows false w = true ∧
        ∀ q n, (.enter q, n) ∈ xs → n ≠ 0 → ∀ i is, w.path ≠ q ++ i :: is := by
  obtain ⟨xs, es, t, hwalked, hobeys, -, -, -, -, hmem⟩ :=
    visit_roomy.skips_prune rfl false (toldBy fun w => if w = .enter [0] then 2 else 0)
  refine ⟨visit_roomy, rfl, xs, es, t, hwalked, hmem ?_⟩
  intro q i n hx hn
  exact absurd (hobeys.of_toldBy _ hx) hn

theorem sign_left_out :
    (∃ xs es t, visit.session.Walked rootId false xs es t ∧
      (∀ q n, (.enter q, n) ∈ xs → n = 0) ∧ assignment.shows false (.enter [1]) = true ∧
      .enter [1] ∉ xs.map Prod.fst) ∧
    Walk.answers Walk.next [1] (Walk.ofNode rootId) visit.session = .ok [none] visit.session := by
  obtain ⟨xs, es, t, hwalked, hoften, hfst⟩ :=
    visit_roomy.walked_toldBy rfl fun w => if w = .leave [0] then 1 else 0
  have hroute : xs.map Prod.fst = [.enter [], .enter [0], .enter [0, 0], .leave [0, 0],
    .leave [0], .leave []] := hfst
  refine ⟨⟨xs, es, t, hwalked, fun q n hx => hoften _ hx, rfl, ?_⟩, rfl⟩
  rw [hroute]
  decide

end Sample

end LosslessSyntax
