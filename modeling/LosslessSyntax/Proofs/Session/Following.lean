import LosslessSyntax.Proofs.Session.Equality
import LosslessSyntax.Session.Walk

namespace LosslessSyntax

def Event.enterOr (found : Option Nat) (above : Nat) : Event := found.elim (.leave above) .enter

namespace Walk

def due (w : Walk) : Nav (Option Event) :=
  if w.skipping then skipped w.upcoming else pure w.upcoming

def handOut (start : Nat) : Option Event → Nav (Option Event × Walk)
  | none => pure (none, ⟨start, none, false⟩)
  | some e => do
      let upcoming ← following start e
      pure (some e, ⟨start, upcoming, false⟩)

theorem next_eq (w : Walk) : w.next = w.due >>= handOut w.start := by
  rw [next, due]
  split <;> rfl

end Walk

namespace Session

variable {s t : Session} {q q' : List Nat} {start id cid i j : Nat} {p : Placement}
  {found : Option Nat}

section Equivalent

theorem equivalent_self (s : Session) (id : Nat) : s.equivalent id s id = true := by
  rw [equivalent, beq_self_eq_true, beq_self_eq_true, Bool.and_self, if_pos rfl]

theorem not_equivalent_of_depth (hs : s.Coherent) {p r : Placement}
    (hp : s.placements[i]? = some p) (hr : s.placements[j]? = some r)
    (hdepth : (s.path i).depth ≠ (s.path j).depth) : s.equivalent i s j = false := by
  obtain ⟨ps, hps⟩ := exists_chain hs hp
  obtain ⟨rs, hrs⟩ := exists_chain hs hr
  refine Bool.eq_false_iff.mpr fun heq => ?_
  have hlen := ((equivalent_iff_forall₂ hs hs (fun _ => rfl) hps hrs).mp heq).length_eq
  rw [hps.length_eq hs, hrs.length_eq hs] at hlen
  exact hdepth (Nat.succ.inj hlen)

theorem not_equivalent (hs : s.Coherent) (h : s.At q i) (h' : s.At q' j)
    (hlen : q.length ≠ q'.length) : s.equivalent i s j = false := by
  obtain ⟨p, hp, -⟩ := hs.root
  obtain ⟨r, hr⟩ := (at_iff_under.mp h).exists_placement hp
  obtain ⟨r', hr'⟩ := (at_iff_under.mp h').exists_placement hp
  refine not_equivalent_of_depth hs hr hr' ?_
  rwa [h.path_eq hs, h'.path_eq hs]

theorem not_equivalent_under (hs : s.Coherent) (hp : s.placements[start]? = some p)
    (h : s.Under start q id) (hq : q ≠ []) : s.equivalent id s start = false := by
  obtain ⟨r, hr⟩ := h.exists_placement hp
  refine not_equivalent_of_depth hs hr hp ?_
  have hpos := List.length_pos_iff.mpr hq
  rw [h.path_eq hs, Path.depth, Path.depth, List.length_append]
  omega

end Equivalent

section Following

theorem firstChild_eq_child (hs : s.Coherent) (hp : s.placements[id]? = some p) :
    firstChild id s = child id 0 s := by
  rw [firstChild, Nav.bind_ok (Nav.placement_eq hp)]
  split
  · rename_i hempty
    have hmemo : p.memo[0]? = none := by
      rw [Array.getElem?_eq_none_iff, hs.memo_size hp, List.isEmpty_iff.mp hempty]
      exact Nat.le_refl _
    exact (child_of_outside hp hmemo).symm
  · rfl

theorem following_enter (start : Nat) (hs : s.Coherent) (hp : s.placements[id]? = some p)
    (hchild : child id 0 s = .ok found t) :
    Walk.following start (.enter id) s = .ok (some (.enterOr found id)) t := by
  rw [Walk.following, Nav.bind_ok (Nav.placement_eq hp)]
  cases hg : p.green with
  | node stamp kind summary cs ds =>
      rw [if_pos (by rw [Placement.isNode, hg]; rfl),
        Nav.bind_ok ((firstChild_eq_child hs hp).trans hchild)]
      cases found <;> rfl
  | token stamp shape ds =>
      have hmemo : p.memo[0]? = none := by
        rw [Array.getElem?_eq_none_iff, hs.memo_size hp, hg]
        exact Nat.le_refl _
      cases (child_of_outside hp hmemo).symm.trans hchild
      rw [if_neg (by rw [Placement.isNode, hg]; exact Bool.false_ne_true)]
      rfl

theorem following_leave_under (hs : s.Coherent) (hp : s.placements[start]? = some p)
    (hid : s.Under start q id) (hcid : s.Under start (q ++ [i]) cid)
    (hchild : child id (i + 1) s = .ok found t) (hst : Extends s t) :
    Walk.following start (.leave cid) s = .ok (some (.enterOr found id)) t := by
  have hne := not_equivalent_under hs hp hcid (by simp)
  obtain ⟨a, r, ha, hr, hparent, rfl⟩ := hcid.of_concat
  obtain rfl := ha.id_unique hs hid
  have hget : (get : Nav Session) s = .ok s s := rfl
  have hnext : nextSibling cid s = .ok found t := by
    rw [nextSibling, Nav.bind_ok (Nav.placement_eq hr)]
    simp only [hparent, hchild]
  rw [Walk.following, Nav.bind_ok hget, hne, if_neg Bool.false_ne_true, Nav.bind_ok hnext]
  cases found with
  | some sibling => rfl
  | none =>
      obtain ⟨r', hr', -, -, hkept, -⟩ := hst.kept hr
      dsimp only
      rw [Nav.bind_ok (Nav.placement_eq hr'), hkept, hparent]
      rfl

theorem following_leave_start (s : Session) (start : Nat) :
    Walk.following start (.leave start) s = .ok none s := by
  have hget : (get : Nav Session) s = .ok s s := rfl
  rw [Walk.following, Nav.bind_ok hget, equivalent_self]
  rfl

end Following

end Session

end LosslessSyntax
