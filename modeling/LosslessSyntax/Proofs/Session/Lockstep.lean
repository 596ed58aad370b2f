import LosslessSyntax.Proofs.Session.Agree
import LosslessSyntax.Proofs.Session.Within

namespace LosslessSyntax

open Nav (Agree AgreeAt)

namespace Session

structure Paired (s t : Session) : Prop where
  twin : s.Twin t
  left : s.Rooted
  right : t.Rooted

variable {s t : Session} {top id : Nat} {w : Walk}

namespace Paired

theorem below (h : s.Paired t) (hbelow : s.Below top id) : t.Below top id := by
  obtain ⟨q, r, htop, hid⟩ := hbelow
  exact ⟨q, r, h.twin.at htop, h.twin.at hid⟩

theorem within (h : s.Paired t) (hw : w.Within s) : w.Within t :=
  ⟨fun e he => h.below (hw.below e he), hw.begun⟩

theorem equivalent_eq (h : s.Paired t) (hbelow : s.Below top id) :
    s.equivalent id s top = t.equivalent id t top := by
  rw [hbelow.equivalent_eq h.left.coherent, (h.below hbelow).equivalent_eq h.right.coherent]

end Paired

end Session

namespace Walk

open Session

variable {s t : Session} {w : Walk} {e : Event}

theorem agree_following_enter (top id : Nat) :
    Agree Eq (following top (.enter id)) (following top (.enter id)) := by
  refine (Agree.placement id).bind fun p q hpq => ?_
  rw [hpq.isNode_eq]
  split
  · refine (agree_firstChild id).bindEq fun first => ?_
    cases first <;> exact .pure rfl
  · exact .pure rfl

theorem agreeAt_following {top : Nat} (h : s.Paired t) (hbelow : s.Below top e.placement) :
    AgreeAt Eq (following top e) (following top e) s t := by
  cases e with
  | enter id => exact agree_following_enter top id s t h.twin
  | leave id =>
      have hequivalent : s.equivalent id s top = t.equivalent id t top := h.equivalent_eq hbelow
      refine .getBind ?_
      rw [hequivalent]
      split
      · exact Agree.pure rfl s t h.twin
      · refine ((agree_nextSibling id).bindEq fun sibling => ?_) s t h.twin
        cases sibling with
        | some sibling => exact .pure rfl
        | none =>
            refine (Agree.placement id).bind fun p q hpq => ?_
            rw [hpq.parent]
            exact .pure rfl

theorem agree_skipped (upcoming : Option Event) :
    Agree Eq (skipped upcoming) (skipped upcoming) := by
  rcases upcoming with _ | id | id
  · exact .pure rfl
  · refine (Agree.placement id).bind fun p q hpq => ?_
    rw [hpq.parent]
    exact .pure rfl
  · exact .pure rfl

theorem agree_due (w : Walk) : Agree Eq w.due w.due := by
  rw [due]
  split
  · exact agree_skipped w.upcoming
  · exact .pure rfl

structure Steady (step : Walk → Nav (Option Event × Walk)) : Prop where
  advanced : ∀ {s t : Session} {w w' : Walk} {found : Option Event}, w.Within s → s.Rooted →
    step w s = .ok (found, w') t → Advanced s w found t w'
  agreeAt : ∀ {s t : Session} {w : Walk}, s.Paired t → w.Within s →
    AgreeAt Eq (step w) (step w) s t

theorem agreeAt_next (h : s.Paired t) (hw : w.Within s) : AgreeAt Eq w.next w.next s t := by
  rw [next_eq]
  refine (agree_due w s t h.twin).bind ?_
  rintro event _ s' t' hs ht rfl -
  obtain ⟨rfl, hbelow⟩ := hw.due h.left.coherent hs
  obtain ⟨rfl, -⟩ := (h.within hw).due h.right.coherent ht
  cases event with
  | none => exact Agree.pure rfl _ _ h.twin
  | some e =>
      refine (agreeAt_following h (hbelow e rfl)).bind ?_
      rintro upcoming _ s' t' - - rfl hst
      exact Agree.pure rfl s' t' hst

theorem steady_next : Steady next :=
  ⟨fun hw hs hok => hw.next hs hok, agreeAt_next⟩

theorem agreeAt_nextNode (limit : Nat) (h : s.Paired t) (hw : w.Within s) :
    AgreeAt Eq (w.nextNode limit) (w.nextNode limit) s t := by
  induction limit generalizing s t w with
  | zero => exact Agree.pure rfl s t h.twin
  | succ limit ih =>
      refine (agreeAt_next h hw).bind ?_
      rintro ⟨event, rest⟩ _ s' t' hs ht rfl hst
      have hadvanced := hw.next h.left hs
      have hadvanced' := (h.within hw).next h.right ht
      cases event with
      | none => exact Agree.pure rfl s' t' hst
      | some e =>
          refine .placementBind hst fun p q hpq => ?_
          rw [hpq.isNode_eq]
          split
          · exact Agree.pure rfl _ _ hst
          · exact ih ⟨hst, hadvanced.rooted, hadvanced'.rooted⟩ hadvanced.within

theorem steady_nextNode (limit : Nat) : Steady (nextNode limit) :=
  ⟨fun hw hs hok => hw.nextNode hs hok, agreeAt_nextNode limit⟩

structure Blind {σ : Type} (visit : Event → σ → Nav (σ × Bool)) : Prop where
  agree : ∀ e state, Agree Eq (visit e state) (visit e state)
  finding : ∀ e state, Nav.Finding [] (visit e state) fun _ => []

section Run

variable {σ : Type} {step : Walk → Nav (Option Event × Walk)}
  {visit : Event → σ → Nav (σ × Bool)}

theorem agreeAt_run (hstep : Steady step) (hvisit : Blind visit) (limit : Nat) (state : σ)
    (h : s.Paired t) (hw : w.Within s) :
    AgreeAt Eq (run step visit limit w state) (run step visit limit w state) s t := by
  induction limit generalizing s t w state with
  | zero => exact Agree.pure rfl s t h.twin
  | succ limit ih =>
      refine (hstep.agreeAt h hw).bind ?_
      rintro ⟨event, rest⟩ _ s' t' hs ht rfl hst
      have hadvanced := hstep.advanced hw h.left hs
      have hadvanced' := hstep.advanced (h.within hw) h.right ht
      cases event with
      | none => exact Agree.pure rfl s' t' hst
      | some e =>
          refine (hvisit.agree e state s' t' hst).bind ?_
          rintro ⟨state, skip⟩ _ u v hu hv rfl huv
          obtain ⟨hru, hsu⟩ := hadvanced.rooted.of_ok (hvisit.finding e _) hu
          obtain ⟨hrv, -⟩ := hadvanced'.rooted.of_ok (hvisit.finding e _) hv
          have hrest := hadvanced.within.mono hsu
          refine ih state ⟨huv, hru, hrv⟩ ?_
          cases skip with
          | true => exact hrest.skipSubtree (hadvanced.begun (.inl rfl))
          | false => exact hrest

end Run

end Walk

namespace Session

open Walk

section Run

variable {σ : Type} {visit : Event → σ → Nav (σ × Bool)} {s t : Session} {id : Nat}

theorem agreeAt_walk (hvisit : Blind visit) (state : σ) (h : s.Paired t)
    (hid : id < s.placements.size) :
    AgreeAt Eq (walk (ofNode id) visit state) (walk (ofNode id) visit state) s t := by
  refine .getBind ?_
  rw [h.twin.bound_eq]
  exact agreeAt_run steady_next hvisit _ state h (within_ofNode h.left hid)

theorem agreeAt_walkNodes (hvisit : Blind visit) (state : σ) (h : s.Paired t)
    (hid : id < s.placements.size) :
    AgreeAt Eq (walkNodes (ofNode id) visit state) (walkNodes (ofNode id) visit state) s t := by
  refine .getBind ?_
  rw [h.twin.bound_eq]
  exact agreeAt_run (steady_nextNode _) hvisit _ state h (within_ofNode h.left hid)

end Run

variable {s t : Session} {id : Nat}

theorem blind_keepEntered (keep : Placement → Bool)
    (hkeep : ∀ p q : Placement, p.Twin q → keep p = keep q) : Blind (keepEntered keep) := by
  refine ⟨agree_keepEntered keep hkeep, ?_⟩
  rintro (id | id) found
  · exact (Nav.Finding.placement id).bind fun p => .pure (List.nil_subset _)
  · exact .pure (List.nil_subset _)

theorem blind_collectVisit : Blind collectVisit :=
  ⟨agree_collectVisit, fun e found => .collectVisit e found⟩

theorem agreeAt_descendants (h : s.Paired t) (hid : id < s.placements.size) :
    AgreeAt Eq (descendants id) (descendants id) s t := by
  have hkeep := blind_keepEntered (fun _ => true) fun _ _ _ => rfl
  exact (agreeAt_walkNodes hkeep [] h hid).map List.reverse

theorem agreeAt_descendantsWithTokens (h : s.Paired t) (hid : id < s.placements.size) :
    AgreeAt Eq (descendantsWithTokens id) (descendantsWithTokens id) s t := by
  have hkeep := blind_keepEntered (fun _ => true) fun _ _ _ => rfl
  exact (agreeAt_walk hkeep [] h hid).map List.reverse

theorem agreeAt_descendantTokens (h : s.Paired t) (hid : id < s.placements.size) :
    AgreeAt Eq (descendantTokens id) (descendantTokens id) s t := by
  have hkeep := blind_keepEntered (fun p => !p.isNode) fun p q hpq => congrArg (!·) hpq.isNode_eq
  exact (agreeAt_walk hkeep [] h hid).map List.reverse

theorem agreeAt_diagnostics (h : s.Paired t) (hid : id < s.placements.size) :
    AgreeAt Eq (diagnostics id) (diagnostics id) s t := by
  refine .placementBind h.twin fun p q hpq => ?_
  rw [hpq.isNode_eq, hpq.green.containsDiagnostics_eq]
  split
  · split
    · exact agreeAt_walk blind_collectVisit [] h hid
    · exact Agree.pure rfl _ _ h.twin
  · exact agree_locateOwn id _ _ h.twin

end Session

end LosslessSyntax
