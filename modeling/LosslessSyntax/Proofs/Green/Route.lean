import LosslessSyntax.Proofs.Green.Listing
import LosslessSyntax.Proofs.Path.Order

namespace LosslessSyntax

inductive Waypoint where
  | enter (path : List Nat)
  | leave (path : List Nat)
  deriving DecidableEq, Repr

namespace Waypoint

def path : Waypoint → List Nat
  | enter q => q
  | leave q => q

theorem path_eq_iff {w : Waypoint} {q : List Nat} :
    w.path = q ↔ w = enter q ∨ w = leave q := by
  cases w <;> simp [path]

def entered? : Waypoint → Option (List Nat)
  | enter q => some q
  | leave _ => none

def never : Waypoint → Bool := fun _ => false

def onEnter (skip : List Nat → Bool) : Waypoint → Bool
  | enter q => skip q
  | leave _ => false

/-- To skip once an element is entered cuts what is below it. To skip once it is left cuts the
elements after it with the same parent. -/
inductive Cuts : Waypoint → List Nat → Prop
  | below (q : List Nat) (i : Nat) (is : List Nat) : Cuts (enter q) (q ++ i :: is)
  | later (q : List Nat) {i j : Nat} (is : List Nat) :
      i < j → Cuts (leave (q ++ [i])) (q ++ j :: is)

def below (q : List Nat) : Waypoint → Waypoint
  | enter r => enter (q ++ r)
  | leave r => leave (q ++ r)

theorem below_nil (a : Waypoint) : a.below [] = a := by
  cases a <;> rfl

theorem below_below (a : Waypoint) (q r : List Nat) : (a.below r).below q = a.below (q ++ r) := by
  cases a <;> simp [below]

theorem not_cuts_nil (a : Waypoint) : ¬ a.Cuts [] := by
  generalize hr : [] = r
  rintro (⟨q, i, is⟩ | ⟨q, is, -⟩) <;> simp at hr

theorem cuts_cons_iff {a : Waypoint} {i : Nat} {is : List Nat} :
    a.Cuts (i :: is) ↔
      a = enter [] ∨ (∃ j < i, a = leave [j]) ∨ ∃ b : Waypoint, b.Cuts is ∧ a = b.below [i] := by
  constructor
  · generalize hr : i :: is = r
    rintro (⟨q, k, ks⟩ | ⟨q, ks, hlt⟩) <;> rcases q with _ | ⟨l, q⟩ <;> cases hr
    · exact .inl rfl
    · exact .inr (.inr ⟨_, .below q k ks, rfl⟩)
    · exact .inr (.inl ⟨_, hlt, rfl⟩)
    · exact .inr (.inr ⟨_, .later q ks hlt, rfl⟩)
  · rintro (rfl | ⟨j, hlt, rfl⟩ | ⟨b, hb, rfl⟩)
    · exact .below [] i is
    · exact .later [] is hlt
    · cases hb with
      | below q k ks => exact .below (i :: q) k ks
      | later q ks hlt => exact .later (i :: q) ks hlt

end Waypoint

namespace Green

mutual

def route (cut : Waypoint → Bool) (q : List Nat) : Green → List Waypoint
  | token _ _ _ => [.enter q, .leave q]
  | node _ _ _ cs _ =>
      .enter q :: (if cut (.enter q) then [] else routeAmong cut q 0 cs) ++ [.leave q]

def routeAmong (cut : Waypoint → Bool) (q : List Nat) (index : Nat) : List Green → List Waypoint
  | [] => []
  | c :: cs =>
      c.route cut (q ++ [index]) ++
        if cut (.leave (q ++ [index])) then [] else routeAmong cut q (index + 1) cs

end

variable {g m c : Green} {cs : List Green} {cut : Waypoint → Bool} {q is : List Nat} {i j : Nat}
  {w : Waypoint}

theorem route_eq (cut : Waypoint → Bool) (q : List Nat) (g : Green) :
    g.route cut q =
      .enter q :: (if cut (.enter q) then [] else routeAmong cut q 0 g.children) ++ [.leave q] := by
  cases g with
  | token stamp shape ds => simp [route, routeAmong, children]
  | node stamp kind summary cs ds => rfl

section Congruence

variable {cut' : Waypoint → Bool}

theorem routeAmong_congr (hleave : ∀ r, cut (.leave r) = cut' (.leave r))
    (h : ∀ (k : Nat) (c : Green), cs[k]? = some c →
      c.route cut (q ++ [i + k]) = c.route cut' (q ++ [i + k])) :
    routeAmong cut q i cs = routeAmong cut' q i cs := by
  induction cs generalizing i with
  | nil => rfl
  | cons c cs ih =>
      have hcs : routeAmong cut q (i + 1) cs = routeAmong cut' q (i + 1) cs := by
        refine ih fun k b hb => ?_
        rw [Nat.add_right_comm, Nat.add_assoc]
        exact h (k + 1) b hb
      have hc : c.route cut (q ++ [i]) = c.route cut' (q ++ [i]) := h 0 c rfl
      rw [routeAmong, routeAmong, hc, hcs, hleave]

theorem route_congr (hleave : ∀ r, cut (.leave r) = cut' (.leave r))
    (henter : ∀ r m, g.descend? r = some m → m.isNode = true →
      cut (.enter (q ++ r)) = cut' (.enter (q ++ r))) : g.route cut q = g.route cut' q := by
  induction g generalizing q with
  | token stamp shape ds => rfl
  | node stamp kind summary cs ds ih =>
      have hself : cut (.enter q) = cut' (.enter q) := by
        have hq := henter [] _ rfl rfl
        rwa [List.append_nil] at hq
      have hcs : routeAmong cut q 0 cs = routeAmong cut' q 0 cs := by
        refine routeAmong_congr hleave fun k c hc => ?_
        rw [Nat.zero_add]
        refine ih c (List.mem_of_getElem? hc) fun r m hm hn => ?_
        rw [List.append_assoc]
        exact henter (k :: r) m (descend?_cons_eq_some_iff.mpr ⟨c, hc, hm⟩) hn
      rw [route, route, hself, hcs]

end Congruence

section Membership

def Open (cut : Waypoint → Bool) : List Nat → List Nat → Prop
  | _, [] => True
  | q, i :: is => cut (.enter q) = false ∧ (∀ j < i, cut (.leave (q ++ [j])) = false) ∧
      Open cut (q ++ [i]) is

theorem open_iff : Open cut q is ↔ ∀ a : Waypoint, cut (a.below q) = true → ¬ a.Cuts is := by
  induction is generalizing q with
  | nil => exact iff_of_true trivial fun a _ h => Waypoint.not_cuts_nil a h
  | cons i is ih =>
      simp only [Open, ih, Waypoint.cuts_cons_iff, not_or, not_exists, not_and]
      constructor
      · rintro ⟨henter, hleave, hrest⟩ a hcut
        refine ⟨?_, ?_, ?_⟩
        · rintro rfl
          rw [Waypoint.below, List.append_nil, henter] at hcut
          cases hcut
        · rintro j hlt rfl
          rw [Waypoint.below, hleave j hlt] at hcut
          cases hcut
        · rintro b hb rfl
          exact hrest b (Waypoint.below_below b q [i] ▸ hcut) hb
      · intro h
        refine ⟨?_, ?_, ?_⟩
        · refine Bool.eq_false_iff.mpr fun hcut => (h (.enter []) ?_).1 rfl
          rwa [Waypoint.below, List.append_nil]
        · intro j hlt
          exact Bool.eq_false_iff.mpr fun hcut => (h (.leave [j]) hcut).2.1 j hlt rfl
        · intro b hcut hb
          exact (h (b.below [i]) (Waypoint.below_below b q [i] ▸ hcut)).2.2 b hb rfl

theorem mem_routeAmong_iff
    (h : ∀ c ∈ cs, ∀ q w, w ∈ c.route cut q ↔
      ∃ is, w.path = q ++ is ∧ (c.descend? is).isSome ∧ Open cut q is) :
    w ∈ routeAmong cut q i cs ↔ ∃ k c is, cs[k]? = some c ∧ w.path = q ++ (i + k) :: is ∧
      (c.descend? is).isSome ∧ (∀ j < k, cut (.leave (q ++ [i + j])) = false) ∧
        Open cut (q ++ [i + k]) is := by
  induction cs generalizing i with
  | nil => simp [routeAmong]
  | cons c cs ih =>
      have hc := h c List.mem_cons_self (q ++ [i]) w
      have hcs := @ih (i + 1) fun b hb => h b (List.mem_cons_of_mem c hb)
      rw [routeAmong, List.mem_append, hc]
      constructor
      · rintro (⟨is, hw, hm, hopen⟩ | hw)
        · exact ⟨0, c, is, rfl, by simp [hw], hm, fun j hj => absurd hj (Nat.not_lt_zero j), hopen⟩
        · split at hw
          · exact absurd hw List.not_mem_nil
          · rename_i hleave
            obtain ⟨k, b, is, hb, hw, hm, hbefore, hopen⟩ := hcs.mp hw
            have hk : i + 1 + k = i + (k + 1) := by omega
            rw [hk] at hw hopen
            refine ⟨k + 1, b, is, hb, hw, hm, ?_, hopen⟩
            rintro (_ | j) hj
            · exact Bool.eq_false_iff.mpr hleave
            · have hbefore := hbefore j (Nat.lt_of_succ_lt_succ hj)
              rwa [Nat.add_right_comm] at hbefore
      · rintro ⟨_ | k, b, is, hb, hw, hm, hbefore, hopen⟩
        · obtain rfl : c = b := Option.some.inj hb
          exact .inl ⟨is, by simpa using hw, hm, hopen⟩
        · have hleave := hbefore 0 (Nat.succ_pos k)
          rw [Nat.add_zero] at hleave
          have hk : i + (k + 1) = i + 1 + k := by omega
          rw [hk] at hw hopen
          rw [hleave, if_neg Bool.false_ne_true, hcs]
          refine .inr ⟨k, b, is, hb, hw, hm, ?_, hopen⟩
          intro j hj
          rw [Nat.add_right_comm]
          exact hbefore (j + 1) (Nat.succ_lt_succ hj)

theorem mem_route_of_children
    (h : ∀ c ∈ g.children, ∀ q w, w ∈ c.route cut q ↔
      ∃ is, w.path = q ++ is ∧ (c.descend? is).isSome ∧ Open cut q is) :
    w ∈ g.route cut q ↔ ∃ is, w.path = q ++ is ∧ (g.descend? is).isSome ∧ Open cut q is := by
  have hends : w ∈ g.route cut q ↔
      w.path = q ∨ cut (.enter q) = false ∧ w ∈ routeAmong cut q 0 g.children := by
    rw [route_eq, Waypoint.path_eq_iff]
    cases cut (.enter q) <;> simp [or_left_comm, or_comm]
  rw [hends, mem_routeAmong_iff h]
  constructor
  · rintro (hw | ⟨henter, k, c, is, hc, hw, hm, hbefore, hopen⟩)
    · exact ⟨[], by simpa using hw, rfl, trivial⟩
    · simp only [Nat.zero_add] at hw hbefore hopen
      have hc : g.child? k = some c := hc
      exact ⟨k :: is, hw, by rwa [descend?_cons, hc], henter, hbefore, hopen⟩
  · rintro ⟨_ | ⟨k, is⟩, hw, hm, hopen⟩
    · exact .inl (by simpa using hw)
    · obtain ⟨henter, hbefore, hrest⟩ := hopen
      rw [descend?_cons] at hm
      obtain ⟨c, hc⟩ := Option.isSome_iff_exists.mp (Option.isSome_of_isSome_bind hm)
      rw [hc, Option.bind_some] at hm
      refine .inr ⟨henter, k, c, is, hc, ?_⟩
      simp only [Nat.zero_add]
      exact ⟨hw, hm, hbefore, hrest⟩

theorem mem_route_iff : w ∈ g.route cut q ↔
    ∃ is, w.path = q ++ is ∧ (g.descend? is).isSome ∧ Open cut q is := by
  induction g generalizing q w with
  | token stamp shape ds =>
      exact mem_route_of_children fun c hc => absurd hc List.not_mem_nil
  | node stamp kind summary cs ds ih =>
      exact mem_route_of_children (g := .node stamp kind summary cs ds) fun c hc q w => ih c hc

theorem mem_route_nil_iff : w ∈ g.route cut [] ↔
    (g.descend? w.path).isSome ∧ ∀ a, cut a = true → ¬ a.Cuts w.path := by
  rw [mem_route_iff]
  simp only [List.nil_append, exists_eq_left', open_iff, Waypoint.below_nil]

theorem mem_full_iff : w ∈ g.route Waypoint.never q ↔
    ∃ is, w.path = q ++ is ∧ (g.descend? is).isSome := by
  rw [mem_route_iff]
  refine exists_congr fun is => and_congr_right fun _ => and_iff_left ?_
  rw [open_iff]
  exact fun a hcut => absurd hcut Bool.false_ne_true

end Membership

section Order

theorem entered_routeAmong (h : ∀ c ∈ cs, ∀ q,
      (c.route Waypoint.never q).filterMap Waypoint.entered? = (c.listing q).map Prod.fst) :
    (routeAmong Waypoint.never q i cs).filterMap Waypoint.entered? =
      (listingAmong q i cs).map Prod.fst := by
  induction cs generalizing i with
  | nil => rfl
  | cons c cs ih =>
      have hcs := @ih (i + 1) fun b hb => h b (List.mem_cons_of_mem c hb)
      have hgo : Waypoint.never (.leave (q ++ [i])) = false := rfl
      rw [routeAmong, hgo, if_neg Bool.false_ne_true, List.filterMap_append,
        h c List.mem_cons_self, hcs, listingAmong, List.map_append]

theorem entered_route (g : Green) (q : List Nat) :
    (g.route Waypoint.never q).filterMap Waypoint.entered? = (g.listing q).map Prod.fst := by
  induction g generalizing q with
  | token stamp shape ds => rfl
  | node stamp kind summary cs ds ih =>
      have hgo : Waypoint.never (.enter q) = false := rfl
      have henter : Waypoint.entered? (.enter q) = some q := rfl
      have hleave : List.filterMap Waypoint.entered? [.leave q] = [] := rfl
      rw [route, hgo, if_neg Bool.false_ne_true, List.cons_append, List.filterMap_cons, henter,
        List.filterMap_append, hleave, List.append_nil, entered_routeAmong ih]
      rfl

theorem listing_lt_among (h : ∀ c ∈ cs, ∀ q, (c.listing q).Pairwise fun x y => x.1 < y.1) :
    (listingAmong q i cs).Pairwise fun x y => x.1 < y.1 := by
  induction cs generalizing i with
  | nil => exact .nil
  | cons c cs ih =>
      rw [listingAmong, List.pairwise_append]
      refine ⟨h c List.mem_cons_self _, ih fun b hb => h b (List.mem_cons_of_mem c hb), ?_⟩
      rintro ⟨p, m⟩ hp ⟨p', m'⟩ hp'
      obtain ⟨is, rfl, -⟩ := mem_listing_iff.mp hp
      obtain ⟨k, b, is', -, rfl, -⟩ :=
        (mem_listingAmong_iff fun c _ q p m => mem_listing_iff).mp hp'
      rw [List.append_assoc]
      refine List.append_left_lt (List.cons_lt_cons_iff.mpr (.inl ?_))
      omega

theorem pairwise_listing_lt (g : Green) (q : List Nat) :
    (g.listing q).Pairwise fun x y => x.1 < y.1 := by
  induction g generalizing q with
  | token stamp shape ds => exact List.pairwise_singleton _ _
  | node stamp kind summary cs ds ih =>
      rw [listing, List.pairwise_cons]
      refine ⟨?_, listing_lt_among ih⟩
      rintro ⟨p, m⟩ hp
      obtain ⟨k, c, is, -, rfl, -⟩ :=
        (mem_listingAmong_iff fun c _ q p m => mem_listing_iff).mp hp
      conv_lhs => rw [← List.append_nil q]
      exact List.append_left_lt (List.nil_lt_cons _ _)

theorem length_routeAmong (h : ∀ c ∈ cs, ∀ q, (c.route Waypoint.never q).length = 2 * c.size) :
    (routeAmong Waypoint.never q i cs).length = 2 * sizes cs := by
  induction cs generalizing i with
  | nil => rfl
  | cons c cs ih =>
      have hcs := @ih (i + 1) fun b hb => h b (List.mem_cons_of_mem c hb)
      have hgo : Waypoint.never (.leave (q ++ [i])) = false := rfl
      rw [routeAmong, hgo, if_neg Bool.false_ne_true, List.length_append,
        h c List.mem_cons_self, hcs, sizes, Nat.mul_add]

theorem length_full (g : Green) (q : List Nat) :
    (g.route Waypoint.never q).length = 2 * g.size := by
  induction g generalizing q with
  | token stamp shape ds => rfl
  | node stamp kind summary cs ds ih =>
      have hgo : Waypoint.never (.enter q) = false := rfl
      rw [route, hgo, if_neg Bool.false_ne_true, List.length_append, List.length_cons,
        length_routeAmong ih, List.length_singleton, size]
      omega

theorem nodup_routeAmong (h : ∀ c ∈ cs, ∀ q, (c.route Waypoint.never q).Nodup) :
    (routeAmong Waypoint.never q i cs).Nodup := by
  induction cs generalizing i with
  | nil => exact .nil
  | cons c cs ih =>
      have hgo : Waypoint.never (.leave (q ++ [i])) = false := rfl
      rw [routeAmong, hgo, if_neg Bool.false_ne_true, List.nodup_append]
      refine ⟨h c List.mem_cons_self _, ih fun b hb => h b (List.mem_cons_of_mem c hb), ?_⟩
      rintro w hw w' hw' rfl
      obtain ⟨is, hpath, -⟩ := mem_full_iff.mp hw
      obtain ⟨k, b, is', -, hpath', -⟩ := (mem_routeAmong_iff fun c _ q w => mem_route_iff).mp hw'
      rw [hpath', List.append_assoc, List.append_cancel_left_eq, List.singleton_append,
        List.cons.injEq] at hpath
      omega

theorem nodup_full (g : Green) (q : List Nat) : (g.route Waypoint.never q).Nodup := by
  induction g generalizing q with
  | token stamp shape ds => simp [route]
  | node stamp kind summary cs ds ih =>
      have hgo : Waypoint.never (.enter q) = false := rfl
      have hbelow : ∀ w ∈ routeAmong Waypoint.never q 0 cs, w.path ≠ q := by
        intro w hw hpath
        obtain ⟨k, b, is, -, hpath', -⟩ := (mem_routeAmong_iff fun c _ q w => mem_route_iff).mp hw
        exact absurd (List.self_eq_append_right.mp (hpath.symm.trans hpath')) (List.cons_ne_nil _ _)
      have hin := nodup_routeAmong (q := q) (i := 0) ih
      rw [route, hgo, if_neg Bool.false_ne_true, List.cons_append, List.nodup_cons,
        List.nodup_append]
      refine ⟨?_, hin, List.nodup_singleton _, ?_⟩
      · rw [List.mem_append, List.mem_singleton]
        rintro (hw | hw)
        · exact hbelow _ hw rfl
        · cases hw
      · rintro w hw w' hw' rfl
        rw [List.mem_singleton] at hw'
        exact hbelow w hw (hw' ▸ rfl)

end Order

section Routed

inductive Routed : List Nat → Nat → List Green → List (Waypoint × Nat) → Prop
  | nil (q : List Nat) (i : Nat) : Routed q i [] []
  | cons {q : List Nat} {i n k : Nat} {c : Green} {cs : List Green}
      {inner rest : List (Waypoint × Nat)} :
      (n = 0 → Routed (q ++ [i]) 0 c.children inner) → (n ≠ 0 → inner = []) →
      (k = 0 → Routed q (i + 1) cs rest) → (k ≠ 0 → rest = []) →
      Routed q i (c :: cs) ((.enter (q ++ [i]), n) :: inner ++ (.leave (q ++ [i]), k) :: rest)

inductive RoutedAt (q : List Nat) (g : Green) : List (Waypoint × Nat) → Prop
  | visit {n : Nat} {inner : List (Waypoint × Nat)} (k : Nat) :
      (n = 0 → Routed q 0 g.children inner) → (n ≠ 0 → inner = []) →
      RoutedAt q g ((.enter q, n) :: inner ++ [(.leave q, k)])

variable {ws xs : List (Waypoint × Nat)} {n : Nat}

def CutAt (cut : Waypoint → Bool) (ws : List (Waypoint × Nat)) : Prop :=
  ∀ x ∈ ws, cut x.1 = true ↔ x.2 ≠ 0

theorem CutAt.of_subset (h : CutAt cut ws) (hsub : xs ⊆ ws) : CutAt cut xs :=
  fun x hx => h x (hsub hx)

theorem CutAt.rest_eq (h : CutAt cut ws) (hw : (w, n) ∈ ws) {route : List Waypoint}
    (hnone : n = 0 → xs.map Prod.fst = route) (hsome : n ≠ 0 → xs = []) :
    xs.map Prod.fst = if cut w then [] else route := by
  have hcut : cut w = true ↔ n ≠ 0 := h (w, n) hw
  by_cases hn : n = 0
  · rw [if_neg fun hw => hcut.mp hw hn, hnone hn]
  · rw [if_pos (hcut.mpr hn), hsome hn]
    rfl

theorem Routed.eq_routeAmong (h : Routed q i cs ws) (hcut : CutAt cut ws) :
    ws.map Prod.fst = routeAmong cut q i cs := by
  induction h with
  | nil => rfl
  | @cons q i n k c cs inner rest _ hinner _ hrest ihinner ihrest =>
      have hin := hcut.rest_eq (w := .enter (q ++ [i])) (by simp)
        (fun hn => ihinner hn (hcut.of_subset (by simp))) hinner
      have hout := hcut.rest_eq (w := .leave (q ++ [i])) (by simp)
        (fun hk => ihrest hk (hcut.of_subset fun x hx => by simp [hx])) hrest
      rw [routeAmong, route_eq, ← hin, ← hout]
      simp

theorem RoutedAt.eq_route (h : RoutedAt q g ws) (hcut : CutAt cut ws) :
    ws.map Prod.fst = g.route cut q := by
  obtain ⟨k, hnone, hsome⟩ := h
  have hin := hcut.rest_eq (w := .enter q) (by simp)
    (fun hn => (hnone hn).eq_routeAmong (hcut.of_subset (by simp))) hsome
  rw [route_eq, ← hin]
  simp

theorem sublist_rest {route : List Waypoint}
    (hnone : n = 0 → (xs.map Prod.fst).Sublist route) (hsome : n ≠ 0 → xs = []) :
    (xs.map Prod.fst).Sublist route := by
  by_cases hn : n = 0
  · exact hnone hn
  · rw [hsome hn]
    exact List.nil_sublist _

theorem Routed.sublist (h : Routed q i cs ws) :
    (ws.map Prod.fst).Sublist (routeAmong Waypoint.never q i cs) := by
  induction h with
  | nil => exact .slnil
  | @cons q i n k c cs inner rest _ hinner _ hrest ihinner ihrest =>
      have hin := sublist_rest ihinner hinner
      have hout := sublist_rest ihrest hrest
      rw [routeAmong, route_eq]
      have hleave := (hin.append (List.Sublist.refl [Waypoint.leave (q ++ [i])])).append hout
      have hsplit := hleave.cons_cons (Waypoint.enter (q ++ [i]))
      simpa [Waypoint.never] using hsplit

theorem RoutedAt.sublist (h : RoutedAt q g ws) :
    (ws.map Prod.fst).Sublist (g.route Waypoint.never q) := by
  obtain ⟨k, hnone, hsome⟩ := h
  have hin := sublist_rest (fun hn => (hnone hn).sublist) hsome
  rw [route_eq]
  have hsplit := (hin.append (List.Sublist.refl [Waypoint.leave q])).cons_cons (Waypoint.enter q)
  simpa [Waypoint.never] using hsplit

theorem RoutedAt.nodup (h : RoutedAt q g ws) : (ws.map Prod.fst).Nodup :=
  h.sublist.nodup (nodup_full g q)

def toldAt (ws : List (Waypoint × Nat)) (w : Waypoint) : Bool :=
  ws.any fun x => x.1 == w && x.2 != 0

theorem toldAt_iff : toldAt ws w = true ↔ ∃ x ∈ ws, x.1 = w ∧ x.2 ≠ 0 := by
  simp only [toldAt, List.any_eq_true, Bool.and_eq_true, beq_iff_eq, bne_iff_ne]

theorem RoutedAt.cutAt_toldAt (h : RoutedAt q g ws) : CutAt (toldAt ws) ws := by
  intro x hx
  rw [toldAt_iff]
  constructor
  · rintro ⟨y, hy, hxy, hn⟩
    rwa [List.inj_on_of_nodup_map h.nodup hy hx hxy] at hn
  · intro hn
    exact ⟨x, hx, rfl, hn⟩

theorem RoutedAt.mem_iff (h : RoutedAt [] g ws) : w ∈ ws.map Prod.fst ↔
    (g.descend? w.path).isSome ∧ ∀ x ∈ ws, x.2 ≠ 0 → ¬ x.1.Cuts w.path := by
  rw [h.eq_route h.cutAt_toldAt, mem_route_nil_iff]
  refine and_congr_right fun _ => ⟨fun hnone x hx hn => ?_, fun hnone a ha => ?_⟩
  · exact hnone x.1 (toldAt_iff.mpr ⟨x, hx, rfl, hn⟩)
  · obtain ⟨x, hx, rfl, hn⟩ := toldAt_iff.mp ha
    exact hnone x hx hn

end Routed

end Green

end LosslessSyntax
