import LosslessSyntax.Proofs.Green.Route
import LosslessSyntax.Proofs.Session.Following
import LosslessSyntax.Proofs.Session.Vacancy

namespace LosslessSyntax

namespace Event

def entered? : Event → Option Nat
  | enter id => some id
  | leave _ => none

end Event

def entered (es : List Event) : List Nat := es.filterMap Event.entered?

/-- Events that are handed out one after another, and how often the walk is told to skip after each
of them. -/
inductive Trip (step : Walk → Nav (Option Event × Walk)) :
    Session → Walk → List (Event × Nat) → Session → Walk → Prop
  | done (s : Session) (w : Walk) : Trip step s w [] s w
  | event {s t u : Session} {w w' last : Walk} {e : Event} {n : Nat} {es : List (Event × Nat)} :
      step w s = .ok (some e, w') t → Trip step t (Walk.skipSubtree^[n] w') es u last →
      Trip step s w ((e, n) :: es) u last

inductive Obeys (σ : List Waypoint → Nat) : List Waypoint → List (Waypoint × Nat) → Prop
  | nil (past : List Waypoint) : Obeys σ past []
  | cons {past : List Waypoint} {x : Waypoint} {xs : List (Waypoint × Nat)} :
      Obeys σ (x :: past) xs → Obeys σ past ((x, σ (x :: past)) :: xs)

inductive Session.Meets (s : Session) (start : Nat) : Waypoint × Nat → Event × Nat → Prop
  | enter {q : List Nat} {id : Nat} (n : Nat) :
      s.Under start q id → Meets s start (.enter q, n) (.enter id, n)
  | leave {q : List Nat} {id : Nat} (n : Nat) :
      s.Under start q id → Meets s start (.leave q, n) (.leave id, n)

structure Walk.Due (s : Session) (start : Nat) (e : Event) (w : Walk) : Prop where
  start_eq : w.start = start
  due_eq : w.due s = .ok (some e) s

theorem Obeys.eq_zero {past : List Waypoint} {xs : List (Waypoint × Nat)}
    (h : Obeys (fun _ => 0) past xs) : ∀ x ∈ xs, x.2 = 0 := by
  induction h with
  | nil => exact fun _ hx => absurd hx List.not_mem_nil
  | cons _ ih => exact List.forall_mem_cons.mpr ⟨rfl, ih⟩

theorem Trip.trans {step : Walk → Nav (Option Event × Walk)} {s t u : Session} {w w' w'' : Walk}
    {es es' : List (Event × Nat)} (h : Trip step s w es t w') (h' : Trip step t w' es' u w'') :
    Trip step s w (es ++ es') u w'' := by
  induction h with
  | done s w => exact h'
  | event hnext _ ih => exact .event hnext (ih h')

theorem Trip.imp {step step' : Walk → Nav (Option Event × Walk)} {s t : Session} {w last : Walk}
    {es : List (Event × Nat)}
    (hstep : ∀ {s t w e w'}, step w s = .ok (some e, w') t → step' w s = .ok (some e, w') t)
    (h : Trip step s w es t last) : Trip step' s w es t last := by
  induction h with
  | done s w => exact .done s w
  | event hnext _ ih => exact .event (hstep hnext) ih

theorem Obeys.append {σ : List Waypoint → Nat} {past : List Waypoint}
    {xs ys : List (Waypoint × Nat)} (h : Obeys σ past xs)
    (h' : Obeys σ ((xs.map Prod.fst).reverse ++ past) ys) : Obeys σ past (xs ++ ys) := by
  induction h with
  | nil past => exact h'
  | cons _ ih =>
      refine .cons (ih ?_)
      rwa [List.map_cons, List.reverse_cons, List.append_assoc, List.singleton_append] at h'

namespace Walk

variable {s t : Session} {start above n : Nat} {e : Event} {upcoming : Option Event}
  {found : Option Nat} {w : Walk}

theorem iterate_skipSubtree (w : Walk) (n : Nat) :
    skipSubtree^[n] w = if n = 0 then w else w.skipSubtree := by
  cases n with
  | zero => rfl
  | succ n =>
      rw [if_neg (Nat.succ_ne_zero n)]
      induction n with
      | zero => rfl
      | succ n ih => rw [Function.iterate_succ_apply', ih]; rfl

theorem start_iterate_skipSubtree (w : Walk) (n : Nat) : (skipSubtree^[n] w).start = w.start := by
  rw [iterate_skipSubtree]
  split <;> rfl

theorem upcoming_iterate_skipSubtree (w : Walk) (n : Nat) :
    (skipSubtree^[n] w).upcoming = w.upcoming := by
  rw [iterate_skipSubtree]
  split <;> rfl

theorem next_of_over (w : Walk) (h : w.upcoming = none) (s : Session) :
    w.next s = .ok (none, ⟨w.start, none, false⟩) s := by
  obtain ⟨start, upcoming, skipping⟩ := w
  obtain rfl : upcoming = none := h
  cases skipping <;> rfl

theorem Due.next (h : w.Due s start e) (hf : following start e s = .ok upcoming t) :
    w.next s = .ok (some e, ⟨start, upcoming, false⟩) t := by
  rw [next_eq, Nav.bind_ok h.due_eq, handOut, h.start_eq, Nav.bind_ok hf]
  rfl

theorem due_of_upcoming (s : Session) (start : Nat) (e : Event) :
    Due s start e ⟨start, some e, false⟩ := ⟨rfl, rfl⟩

theorem due_skipSubtree (start : Nat)
    (hfound : ∀ id ∈ found, ∃ p, s.placements[id]? = some p ∧ p.parent = some above) :
    Due s start (.leave above) (skipSubtree ⟨start, some (.enterOr found above), false⟩) := by
  refine ⟨rfl, ?_⟩
  cases found with
  | none => rfl
  | some id =>
      obtain ⟨p, hp, hparent⟩ := hfound id rfl
      change skipped (some (.enter id)) s = _
      rw [skipped, Nav.bind_ok (Nav.placement_eq hp), hparent]
      rfl

end Walk

namespace Session

variable {s t : Session} {start id above i : Nat} {q : List Nat} {g m : Green}
  {found : Option Nat} {upcoming : Option Event} {w : Walk} {e last mid : Event}
  {σ : List Waypoint → Nat} {past : List Waypoint} {x : Waypoint}
  {P Q : List (Waypoint × Nat) → Prop}

theorem Meets.mono {x : Waypoint × Nat} {e : Event × Nat} (h : s.Meets start x e)
    (hst : Extends s t) : t.Meets start x e := by
  cases h with
  | enter n h => exact .enter n (h.mono hst)
  | leave n h => exact .leave n (h.mono hst)

def Passes (σ : List Waypoint → Nat) (start : Nat) (g : Green) (past : List Waypoint) (s : Session)
    (w : Walk) (last : Event) (P : List (Waypoint × Nat) → Prop) : Prop :=
  ∃ es xs t w', Trip Walk.next s w es t w' ∧ w'.Due t start last ∧ t.Roomy start g ∧
    GrownBelow start s t ∧ List.Forall₂ (t.Meets start) xs es ∧ Obeys σ past xs ∧ P xs

namespace Passes

theorem nothing (h : s.Roomy start g) (hdue : w.Due s start last) :
    Passes σ start g past s w last fun xs => xs = [] :=
  ⟨[], [], s, w, .done s w, hdue, h, .refl start s, .nil, .nil past, rfl⟩

theorem mono (h : Passes σ start g past s w last P) (hPQ : ∀ xs, P xs → Q xs) :
    Passes σ start g past s w last Q := by
  obtain ⟨es, xs, t, w', htrip, hdue, ht, hst, hmeets, hobeys, hxs⟩ := h
  exact ⟨es, xs, t, w', htrip, hdue, ht, hst, hmeets, hobeys, hPQ xs hxs⟩

theorem event (hdue : w.Due s start e) (hf : Walk.following start e s = .ok upcoming t)
    (hst : GrownBelow start s t) (hmeets : ∀ n, t.Meets start (x, n) (e, n))
    (hn : σ (x :: past) = n)
    (h : Passes σ start g (x :: past) t (Walk.skipSubtree^[n] ⟨start, upcoming, false⟩) last P) :
    Passes σ start g past s w last fun xs => ∃ ys, xs = (x, n) :: ys ∧ P ys := by
  subst hn
  obtain ⟨es, xs, u, w', htrip, hlast, hu, htu, hall, hobeys, hxs⟩ := h
  exact ⟨_, _, u, w', .event (hdue.next hf) htrip, hlast, hu, hst.trans htu,
    .cons ((hmeets _).mono htu.grown) hall, .cons hobeys, xs, rfl, hxs⟩

theorem trans (h : Passes σ start g past s w mid P)
    (hrest : ∀ {xs : List (Waypoint × Nat)} {t w'}, w'.Due t start mid → t.Roomy start g →
      Extends s t → Passes σ start g ((xs.map Prod.fst).reverse ++ past) t w' last Q) :
    Passes σ start g past s w last fun zs => ∃ xs ys, zs = xs ++ ys ∧ P xs ∧ Q ys := by
  obtain ⟨es, xs, t, w', htrip, hdue, ht, hst, hall, hobeys, hxs⟩ := h
  obtain ⟨es', ys, u, w'', htrip', hlast, hu, htu, hall', hobeys', hys⟩ :=
    hrest hdue ht hst.grown
  refine ⟨es ++ es', xs ++ ys, u, w'', htrip.trans htrip', hlast, hu, hst.trans htu, ?_,
    hobeys.append hobeys', xs, ys, rfl, hxs, hys⟩
  exact List.rel_append (hall.imp fun _ _ h => h.mono htu.grown) hall'

theorem after (n : Nat) (hs : s.Roomy start g)
    (hfound : ∀ id ∈ found, ∃ p, s.placements[id]? = some p ∧ p.parent = some above)
    (hgo : ∀ {w}, w.Due s start (.enterOr found above) →
      Passes σ start g past s w (.leave above) P) :
    Passes σ start g past s (Walk.skipSubtree^[n] ⟨start, some (.enterOr found above), false⟩)
      (.leave above) fun xs => (n = 0 → P xs) ∧ (n ≠ 0 → xs = []) := by
  rw [Walk.iterate_skipSubtree]
  by_cases hn : n = 0
  · rw [if_pos hn]
    exact (hgo (Walk.due_of_upcoming s start _)).mono fun xs hxs =>
      ⟨fun _ => hxs, fun h => absurd hn h⟩
  · rw [if_neg hn]
    exact (nothing hs (Walk.due_skipSubtree start hfound)).mono fun xs hxs =>
      ⟨fun h => absurd h hn, fun _ => hxs⟩

end Passes

theorem parents_of_under (hs : s.Coherent) (hid : s.Under start q above)
    (hat : ∀ cid ∈ found, s.Under start (q ++ [i]) cid) :
    ∀ cid ∈ found, ∃ p, s.placements[cid]? = some p ∧ p.parent = some above := by
  intro cid hcid
  obtain ⟨a, p, ha, hp, hparent, -⟩ := (hat cid hcid).of_concat
  exact ⟨p, hp, ha.id_unique hs hid ▸ hparent⟩

def Entered (q : List Nat) (m : Green) (xs : List (Waypoint × Nat)) : Prop :=
  ∃ n inner, xs = (.enter q, n) :: inner ∧ (n = 0 → Green.Routed q 0 m.children inner) ∧
    (n ≠ 0 → inner = [])

def Left (q : List Nat) (i : Nat) (cs : List Green) (xs : List (Waypoint × Nat)) : Prop :=
  ∃ k rest, xs = (.leave (q ++ [i]), k) :: rest ∧ (k = 0 → Green.Routed q (i + 1) cs rest) ∧
    (k ≠ 0 → rest = [])

def Passable (σ : List Waypoint → Nat) (start : Nat) (g m : Green) : Prop :=
  ∀ {s w q id past}, s.Roomy start g → s.Under start q id → g.descend? q = some m →
    w.Due s start (.enter id) → Passes σ start g past s w (.leave id) (Entered q m)

theorem passes_among {cs : List Green} (hs : s.Roomy start g) (hid : s.Under start q id)
    (hm : g.descend? q = some m) (hchildren : m.ChildrenFrom i cs)
    (hfound : found.isSome = (m.child? i).isSome)
    (hat : ∀ cid ∈ found, s.Under start (q ++ [i]) cid) (hdue : w.Due s start (.enterOr found id))
    (ih : ∀ c ∈ cs, Passable σ start g c) :
    Passes σ start g past s w (.leave id) (Green.Routed q i cs) := by
  -- `found` is the placement of the first of the children that are left to come by
  induction cs generalizing s w found i past with
  | nil =>
      obtain rfl : found = none := by rwa [hchildren.none, Option.isSome_none,
        Option.isSome_eq_false_iff, Option.isNone_iff_eq_none] at hfound
      exact (Passes.nothing hs hdue).mono fun xs hxs => hxs ▸ .nil q i
  | cons c cs ihcs =>
      have hc := hchildren.head
      rw [hc] at hfound
      obtain ⟨cid, rfl⟩ := Option.isSome_iff_exists.mp hfound
      have hcid := hat cid rfl
      have hfirst : Passes σ start g past s w (.leave cid) (Entered (q ++ [i]) c) :=
        ih c List.mem_cons_self hs hcid ((Green.descend?_concat hm i).trans hc) hdue
      have hrest {past t w'} (hleft : w'.Due t start (.leave cid)) (ht : t.Roomy start g)
          (hst : Extends s t) : Passes σ start g past t w' (.leave id) (Left q i cs) := by
        obtain ⟨next, u, hnext, htu, hu, hfound', hat'⟩ := ht.ask (hid.mono hst) hm (i + 1)
        obtain ⟨top, htop, -⟩ := ht.held
        have hleave := following_leave_under ht.coherent htop (hid.mono hst) (hcid.mono hst)
          hnext htu.grown
        have hidu := (hid.mono hst).mono htu.grown
        have hgo {w} (hdue : w.Due u start (.enterOr next id)) :
            Passes σ start g (.leave (q ++ [i]) :: past) u w (.leave id)
              (Green.Routed q (i + 1) cs) :=
          ihcs hu hidu hchildren.tail hfound' hat' hdue fun b hb => ih b (List.mem_cons_of_mem c hb)
        have hafter := Passes.after (σ (.leave (q ++ [i]) :: past)) hu
          (parents_of_under hu.coherent hidu hat') hgo
        refine (Passes.event hleft hleave htu
          (fun n => .leave n ((hcid.mono hst).mono htu.grown)) rfl hafter).mono ?_
        rintro _ ⟨rest, rfl, hgo, hskip⟩
        exact ⟨_, rest, rfl, hgo, hskip⟩
      refine (hfirst.trans hrest).mono ?_
      rintro _ ⟨_, _, rfl, ⟨n, inner, rfl, hgo, hskip⟩, k, rest, rfl, hgo', hskip'⟩
      exact .cons hgo hskip hgo' hskip'

theorem passable_of_children (m : Green) (ih : ∀ c ∈ m.children, Passable σ start g c) :
    Passable σ start g m := by
  intro s w q id past hs hid hm hdue
  obtain ⟨p, hp, -⟩ := hs.holds hid hm
  obtain ⟨first, t, hfirst, hst, ht, hfound, hat⟩ := hs.ask hid hm 0
  have henter := following_enter start hs.coherent hp hfirst
  have hgo {w} (hdue : w.Due t start (.enterOr first id)) :
      Passes σ start g (.enter q :: past) t w (.leave id) (Green.Routed q 0 m.children) :=
    passes_among ht (hid.mono hst.grown) hm (Green.childrenFrom_zero m) hfound hat hdue ih
  have hafter := Passes.after (σ (.enter q :: past)) ht
    (parents_of_under ht.coherent (hid.mono hst.grown) hat) hgo
  refine (Passes.event hdue henter hst (fun n => .enter n (hid.mono hst.grown)) rfl hafter).mono ?_
  rintro _ ⟨inner, rfl, hgo, hskip⟩
  exact ⟨_, inner, rfl, hgo, hskip⟩

theorem passable (σ : List Waypoint → Nat) (start : Nat) (g m : Green) : Passable σ start g m := by
  induction m with
  | token stamp shape ds =>
      exact passable_of_children _ fun c hc => absurd hc List.not_mem_nil
  | node stamp kind summary cs ds ih =>
      exact passable_of_children (.node stamp kind summary cs ds) ih

theorem Roomy.trip (h : s.Roomy start g) (σ : List Waypoint → Nat) :
    ∃ es xs t n,
      Trip Walk.next s (Walk.ofNode start) es t (Walk.skipSubtree^[n] ⟨start, none, false⟩) ∧
      es.getLast? = some (.leave start, n) ∧ t.Roomy start g ∧ GrownBelow start s t ∧
      List.Forall₂ (t.Meets start) xs es ∧ Obeys σ [] xs ∧ Green.RoutedAt [] g xs := by
  obtain ⟨es, _, t, w, htrip, hdue, ht, hst, hmeets, hobeys, n, inner, rfl, hgo, hskip⟩ :=
    passable σ start g g h .self rfl (Walk.due_of_upcoming s start (.enter start))
  have hend := hdue.next (following_leave_start t start)
  exact ⟨_, _, t, _, htrip.trans (.event hend (.done _ _)), List.getLast?_concat, ht, hst,
    List.rel_append hmeets (.cons (.leave _ .self) .nil), hobeys.append (.cons (.nil _)),
    .visit _ hgo hskip⟩

section Meets

variable {xs : List (Waypoint × Nat)} {es : List (Event × Nat)}

theorem forall_events {P : Waypoint × Nat → Prop} {Q : Event × Nat → Prop}
    (h : List.Forall₂ (s.Meets start) xs es) (hP : ∀ x ∈ xs, P x)
    (hPQ : ∀ {x e}, s.Meets start x e → P x → Q e) : ∀ e ∈ es, Q e := by
  induction h with
  | nil => exact fun _ he => absurd he List.not_mem_nil
  | cons hmeets _ ih =>
      rw [List.forall_mem_cons] at hP ⊢
      exact ⟨hPQ hmeets hP.1, ih hP.2⟩

theorem Meets.snd_eq {x : Waypoint × Nat} {e : Event × Nat} (h : s.Meets start x e) :
    e.2 = x.2 := by
  cases h <;> rfl

theorem entered_of_meets (h : List.Forall₂ (s.Meets start) xs es) :
    List.Forall₂ (s.Under start) ((xs.map Prod.fst).filterMap Waypoint.entered?)
      (entered (es.map Prod.fst)) := by
  induction h with
  | nil => exact .nil
  | cons hmeets _ ih =>
      cases hmeets with
      | enter n hid => exact .cons hid ih
      | leave n _ => exact ih

end Meets

end Session

end LosslessSyntax
