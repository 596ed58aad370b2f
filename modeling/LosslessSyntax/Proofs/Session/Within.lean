import LosslessSyntax.Proofs.Session.Derived
import LosslessSyntax.Proofs.Session.Tour

namespace LosslessSyntax

theorem Nav.getElem?_of_placement_ok {s t : Session} {id : Nat} {p : Placement}
    (h : Nav.placement id s = .ok p t) : s.placements[id]? = some p ∧ t = s := by
  cases hp : s.placements[id]? with
  | none => cases h.symm.trans (placement_eq_error hp)
  | some q =>
      cases h.symm.trans (placement_eq hp)
      exact ⟨rfl, rfl⟩

namespace Session

structure Rooted (s : Session) : Prop where
  reached : s.Reached
  strays : s.strays = 0

def Below (s : Session) (top id : Nat) : Prop := ∃ q r, s.At q top ∧ s.At (q ++ r) id

variable {s t : Session} {top id a i : Nat} {p : Placement} {upcoming : Option Event} {e : Event}

namespace Rooted

theorem coherent (h : s.Rooted) : s.Coherent := h.reached.coherent

theorem below_self (h : s.Rooted) (hid : id < s.placements.size) : s.Below id id := by
  have hat := (attached_of_strays h.strays hid).at_path h.coherent
  exact ⟨_, [], hat, (List.append_nil _).symm ▸ hat⟩

theorem moves (h : s.Rooted) (hst : Relation.ReflTransGen (Move fun _ => False) s t) :
    t.Rooted ∧ Extends s t :=
  ⟨⟨h.reached.moves hst, strays_of_moves h.reached h.strays hst⟩, (h.coherent.moves hst).2⟩

variable {α : Type} {m : Nav α} {known : List Nat} {found : α → List Nat}

theorem after (h : s.Rooted) (hm : Nav.Finding known m found) (hknown : s.Has known) :
    (Nav.after m s).Rooted ∧ Extends s (Nav.after m s) :=
  h.moves (hm s h.coherent hknown).1

theorem of_ok (h : s.Rooted) (hm : Nav.Finding [] m found) {b : α} (hok : m s = .ok b t) :
    t.Rooted ∧ Extends s t :=
  Nav.after_of_ok hok ▸ h.after hm fun _ hid => absurd hid List.not_mem_nil

end Rooted

namespace Below

theorem mono (h : s.Below top id) (hst : Extends s t) : t.Below top id := by
  obtain ⟨q, r, htop, hid⟩ := h
  exact ⟨q, r, htop.mono hst, hid.mono hst⟩

theorem lt_size (h : s.Below top id) (hs : s.Coherent) : id < s.placements.size := by
  obtain ⟨q, r, -, hid⟩ := h
  exact hid.lt_size hs

theorem equivalent_eq (h : s.Below top id) (hs : s.Coherent) :
    s.equivalent id s top = decide (id = top) := by
  obtain ⟨q, r, htop, hid⟩ := h
  by_cases heq : id = top
  · rw [heq, equivalent_self, decide_eq_true rfl]
  · -- what is below the start has the longer lineage
    have hr : r ≠ [] := by
      rintro rfl
      exact heq (hid.id_unique hs ((List.append_nil q).symm ▸ htop))
    have hpos := List.length_pos_iff.mpr hr
    rw [not_equivalent hs hid htop (by rw [List.length_append]; omega), decide_eq_false heq]

theorem child (h : s.Below top id) (hs : s.Rooted) (hok : Session.child id i s = .ok (some a) t) :
    t.Below top a ∧ a ≠ top := by
  obtain ⟨q, r, htop, hid⟩ := h
  obtain ⟨hst, ha⟩ := child_of_ok hs.coherent hs.reached.root_wellFormed hid hok
  rw [List.append_assoc] at ha
  refine ⟨⟨q, r ++ [i], htop.mono hst.grown, ha⟩, ?_⟩
  rintro rfl
  have hlen := congrArg List.length (ha.path_unique hst.coherent (htop.mono hst.grown))
  rw [List.length_append, List.length_append, List.length_singleton] at hlen
  omega

theorem parent (h : s.Below top id) (hs : s.Coherent) (hne : id ≠ top)
    (hp : s.placements[id]? = some p) : ∃ a, p.parent = some a ∧ s.Below top a := by
  obtain ⟨q, r, htop, hid⟩ := h
  rcases r.eq_nil_or_concat with rfl | ⟨r, i, rfl⟩
  · exact absurd (hid.id_unique hs ((List.append_nil q).symm ▸ htop)) hne
  · rw [List.concat_eq_append, ← List.append_assoc] at hid
    obtain ⟨a, p', ha, hp', hparent, -⟩ := hid.of_concat hs
    obtain rfl := Option.some.inj (hp.symm.trans hp')
    exact ⟨a, hparent, q, r, htop, ha⟩

end Below

section Following

theorem within_following_enter (hs : s.Rooted) (h : s.Below top id)
    (hok : Walk.following top (.enter id) s = .ok upcoming t) :
    upcoming ≠ none ∧ ∀ e ∈ upcoming, t.Below top e.placement ∧ e ≠ .enter top := by
  obtain ⟨p, u, hp, hrest⟩ := Nav.bind_eq_ok_iff.mp hok
  obtain ⟨hplaced, rfl⟩ := Nav.getElem?_of_placement_ok hp
  cases hn : p.isNode with
  | false =>
      rw [hn, if_neg Bool.false_ne_true] at hrest
      cases hrest
      refine ⟨Option.some_ne_none _, ?_⟩
      rintro e ⟨rfl⟩
      exact ⟨h, nofun⟩
  | true =>
      rw [hn, if_pos rfl] at hrest
      obtain ⟨first, u', hfirst, hlast⟩ := Nav.bind_eq_ok_iff.mp hrest
      cases first with
      | none =>
          cases hlast
          refine ⟨Option.some_ne_none _, ?_⟩
          rintro e ⟨rfl⟩
          exact ⟨h.mono (hs.of_ok (Nav.Finding.firstChild id) hfirst).2, nofun⟩
      | some c =>
          cases hlast
          refine ⟨Option.some_ne_none _, ?_⟩
          rintro e ⟨rfl⟩
          obtain ⟨hbelow, hne⟩ :=
            h.child hs ((firstChild_eq_child hs.coherent hplaced).symm.trans hfirst)
          exact ⟨hbelow, fun heq => hne (Event.enter.inj heq)⟩

theorem within_following_leave (hs : s.Rooted) (h : s.Below top id)
    (hok : Walk.following top (.leave id) s = .ok upcoming t) :
    (upcoming = none ↔ id = top) ∧ ∀ e ∈ upcoming, t.Below top e.placement ∧ e ≠ .enter top := by
  have hget : (get : Nav Session) s = .ok s s := rfl
  rw [Walk.following, Nav.bind_ok hget, h.equivalent_eq hs.coherent] at hok
  by_cases hid : id = top
  · rw [decide_eq_true hid, if_pos rfl] at hok
    cases hok
    exact ⟨iff_of_true rfl hid, fun e he => absurd he (Option.not_mem_none e)⟩
  · rw [decide_eq_false hid, if_neg Bool.false_ne_true] at hok
    obtain ⟨sibling, u, hsibling, hrest⟩ := Nav.bind_eq_ok_iff.mp hok
    obtain ⟨-, hst⟩ := hs.of_ok (Nav.Finding.nextSibling id) hsibling
    obtain ⟨p, hp⟩ : ∃ p, s.placements[id]? = some p :=
      ⟨_, Array.getElem?_eq_getElem (h.lt_size hs.coherent)⟩
    obtain ⟨a, hparent, ha⟩ := h.parent hs.coherent hid hp
    cases sibling with
    | some c =>
        cases hrest
        refine ⟨iff_of_false (Option.some_ne_none _) hid, ?_⟩
        rintro e ⟨rfl⟩
        obtain ⟨hbelow, hne⟩ := ha.child hs ((nextSibling_of_parent hp hparent).symm.trans hsibling)
        exact ⟨hbelow, fun heq => hne (Event.enter.inj heq)⟩
    | none =>
        obtain ⟨p', u', hp', hlast⟩ := Nav.bind_eq_ok_iff.mp hrest
        obtain ⟨hplaced', rfl⟩ := Nav.getElem?_of_placement_ok hp'
        obtain ⟨r, hr, -, -, hkept, -⟩ := hst.kept hp
        obtain rfl := Option.some.inj (hplaced'.symm.trans hr)
        cases hlast
        rw [hkept, hparent]
        refine ⟨iff_of_false (Option.some_ne_none _) hid, ?_⟩
        rintro e ⟨rfl⟩
        exact ⟨ha.mono hst, fun heq => by cases heq⟩

theorem within_following (hs : s.Rooted) (h : s.Below top e.placement)
    (hok : Walk.following top e s = .ok upcoming t) :
    (upcoming = none ↔ e = .leave top) ∧
      ∀ e' ∈ upcoming, t.Below top e'.placement ∧ e' ≠ .enter top := by
  cases e with
  | enter id =>
      obtain ⟨hnext, hwithin⟩ := within_following_enter hs h hok
      exact ⟨iff_of_false hnext (by simp), hwithin⟩
  | leave id =>
      obtain ⟨hends, hwithin⟩ := within_following_leave hs h hok
      exact ⟨hends.trans ⟨congrArg Event.leave, Event.leave.inj⟩, hwithin⟩

theorem within_skipped (hs : s.Coherent)
    (h : ∀ e ∈ upcoming, s.Below top e.placement ∧ e ≠ .enter top) {skipped : Option Event}
    (hok : Walk.skipped upcoming s = .ok skipped t) :
    t = s ∧ ∀ e ∈ skipped, s.Below top e.placement := by
  rcases upcoming with _ | id | id
  · cases hok
    exact ⟨rfl, nofun⟩
  · obtain ⟨hbelow, hne⟩ := h _ rfl
    obtain ⟨p, u, hp, hrest⟩ := Nav.bind_eq_ok_iff.mp hok
    obtain ⟨hplaced, rfl⟩ := Nav.getElem?_of_placement_ok hp
    obtain ⟨a, hparent, ha⟩ := hbelow.parent hs (fun heq => hne (congrArg _ heq)) hplaced
    cases hrest
    rw [hparent]
    refine ⟨rfl, ?_⟩
    rintro e ⟨rfl⟩
    exact ha
  · cases hok
    exact ⟨rfl, fun e he => (h e he).1⟩

end Following

end Session

namespace Walk

open Session

def Begun (w : Walk) : Prop := ∀ e ∈ w.upcoming, e ≠ .enter w.start

structure Within (s : Session) (w : Walk) : Prop where
  below : ∀ e ∈ w.upcoming, s.Below w.start e.placement
  begun : w.skipping = true → w.Begun

structure Advanced (s : Session) (w : Walk) (found : Option Event) (t : Session) (w' : Walk) :
    Prop where
  rooted : t.Rooted
  grown : Extends s t
  start : w'.start = w.start
  within : w'.Within t
  begun : found.isSome ∨ w.Begun → w'.Begun
  ends : ∀ e ∈ found, w'.upcoming = none ↔ e = .leave w.start

variable {s t u : Session} {w w' w'' : Walk} {found found' : Option Event} {id limit : Nat}

theorem within_ofNode (hs : s.Rooted) (hid : id < s.placements.size) : (ofNode id).Within s := by
  refine ⟨?_, nofun⟩
  rintro e ⟨rfl⟩
  exact hs.below_self hid

namespace Within

theorem mono (h : w.Within s) (hst : Extends s t) : w.Within t :=
  ⟨fun e he => (h.below e he).mono hst, h.begun⟩

theorem has (h : w.Within s) (hs : s.Coherent) : s.Has (Nav.Finding.concerned w.upcoming) := by
  intro id hid
  obtain ⟨e, he, rfl⟩ := List.mem_map.mp hid
  exact (h.below e (Option.mem_toList.mp he)).lt_size hs

theorem skipSubtree (h : w.Within s) (hbegun : w.Begun) : w.skipSubtree.Within s :=
  ⟨h.below, fun _ => hbegun⟩

end Within

theorem Advanced.trans (h : Advanced s w found t w') (h' : Advanced t w' found' u w'') :
    Advanced s w found' u w'' :=
  ⟨h'.rooted, h.grown.trans h'.grown, h'.start.trans h.start, h'.within,
    fun hbegun => h'.begun (hbegun.imp_right fun hw => h.begun (.inr hw)),
    fun e he => h.start ▸ h'.ends e he⟩

theorem Within.due (h : w.Within s) (hs : s.Coherent) (hok : w.due s = .ok found t) :
    t = s ∧ ∀ e ∈ found, s.Below w.start e.placement := by
  cases hskip : w.skipping with
  | true =>
      rw [Walk.due, hskip, if_pos rfl] at hok
      exact within_skipped hs (fun e he => ⟨h.below e he, h.begun hskip e he⟩) hok
  | false =>
      rw [Walk.due, hskip, if_neg Bool.false_ne_true] at hok
      cases hok
      exact ⟨rfl, h.below⟩

theorem Within.next (h : w.Within s) (hs : s.Rooted) (hok : w.next s = .ok (found, w') t) :
    Advanced s w found t w' := by
  rw [next_eq] at hok
  obtain ⟨event, u, hdue, hrest⟩ := Nav.bind_eq_ok_iff.mp hok
  obtain ⟨rfl, hbelow⟩ := h.due hs.coherent hdue
  cases event with
  | none =>
      cases hrest
      exact ⟨hs, .refl _, rfl, ⟨nofun, nofun⟩, fun _ => nofun, nofun⟩
  | some e =>
      obtain ⟨upcoming, u', hupcoming, hlast⟩ := Nav.bind_eq_ok_iff.mp hrest
      obtain ⟨hu, hst⟩ := hs.of_ok (Nav.Finding.following w.start e) hupcoming
      obtain ⟨hends, hwithin⟩ := within_following hs (hbelow e rfl) hupcoming
      cases hlast
      refine ⟨hu, hst, rfl, ⟨fun e he => (hwithin e he).1, nofun⟩, fun _ e he => (hwithin e he).2, ?_⟩
      rintro e ⟨rfl⟩
      exact hends

theorem Within.nextNode (h : w.Within s) (hs : s.Rooted)
    (hok : w.nextNode limit s = .ok (found, w') t) : Advanced s w found t w' := by
  induction limit generalizing s w with
  | zero =>
      cases hok
      exact ⟨hs, .refl _, rfl, h, fun hbegun => hbegun.resolve_left nofun, nofun⟩
  | succ limit ih =>
      obtain ⟨⟨event, rest⟩, u, hnext, hrest⟩ := Nav.bind_eq_ok_iff.mp hok
      have hadvanced := h.next hs hnext
      cases event with
      | none =>
          cases hrest
          exact hadvanced
      | some e =>
          obtain ⟨p, u', hp, hlast⟩ := Nav.bind_eq_ok_iff.mp hrest
          obtain ⟨-, rfl⟩ := Nav.getElem?_of_placement_ok hp
          cases hn : p.isNode with
          | true =>
              rw [hn, if_pos rfl] at hlast
              cases hlast
              exact hadvanced
          | false =>
              rw [hn, if_neg Bool.false_ne_true] at hlast
              exact hadvanced.trans (ih hadvanced.within hadvanced.rooted hlast)

end Walk

end LosslessSyntax
