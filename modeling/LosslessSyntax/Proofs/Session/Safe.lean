import LosslessSyntax.Proofs.Session.Earliest
import LosslessSyntax.Session.ChildQueue

namespace LosslessSyntax

/-- All that can stop an action that is given placements within the largest text. The text that a
range is cut from is the caller's. -/
inductive Failure.Excused (s : Session) : Failure → Prop
  | rejected (e : TreeError) : Excused s (.rejected e)
  | full : Arena.capacity ≤ s.placements.size → Excused s (.aborted .arenaFull)
  | slice : Excused s (.aborted .badSlice)

namespace Placement.Sized

variable {p : Placement}

theorem textRange (h : p.Sized) :
    p.textRange = .ok ⟨p.offset, p.offset + p.green.width, Nat.le_add_right _ _⟩ := by
  rw [Placement.textRange, h.wellFormed.checkedWidth_eq]
  exact Checked.rangeOfLength_eq h.stop_le

theorem display_eq (h : p.Sized) :
    p.display = .ok (p.kind.name ++ "@" ++
      (toString p.offset ++ ".." ++ toString (p.offset + p.green.width)) ++
        if p.green.isMissing then " missing" else "") := by
  rw [Placement.display, h.textRange]
  rfl

theorem token_stop_le {stamp : Nat} {shape : TokenShape} {ds : List Diagnostic} (h : p.Sized)
    (hg : p.green = .token stamp shape ds) : p.offset + shape.width ≤ maxSize := by
  have hstop := h.stop_le
  rwa [hg] at hstop

theorem tokenTextRange (h : p.Sized) : ∃ range, p.tokenTextRange = .ok range := by
  cases hg : p.green with
  | token stamp shape ds => exact ⟨_, tokenTextRange_eq hg (h.token_stop_le hg)⟩
  | node stamp kind summary cs ds =>
      rw [Placement.tokenTextRange, hg]
      exact ⟨_, h.textRange⟩

theorem leadingRange (h : p.Sized) : ∃ range, p.leadingRange = .ok range := by
  cases hg : p.green with
  | token stamp shape ds => exact ⟨_, leadingRange_eq hg (h.token_stop_le hg)⟩
  | node stamp kind summary cs ds =>
      rw [Placement.leadingRange, hg]
      exact ⟨_, rfl⟩

theorem trailingRange (h : p.Sized) : ∃ range, p.trailingRange = .ok range := by
  cases hg : p.green with
  | token stamp shape ds => exact ⟨_, trailingRange_eq hg (h.token_stop_le hg)⟩
  | node stamp kind summary cs ds =>
      rw [Placement.trailingRange, hg, h.textRange]
      exact ⟨_, rfl⟩

end Placement.Sized

namespace Nav

open Session

variable {α β : Type} {known known' : List Nat} {m : Nav α} {f : α → Nav β}
  {found : α → List Nat} {found' : β → List Nat} {id : Nat}

structure SafeAt (s : Session) (m : Nav α) (found : α → List Nat) : Prop where
  ok : ∀ a t, m s = .ok a t → t.Coherent ∧ Extends s t ∧ ∀ id ∈ found a, t.Fits id
  error : ∀ e t, m s = .error e t → e.Excused t

def Safe (known : List Nat) (m : Nav α) (found : α → List Nat) : Prop :=
  ∀ s : Session, s.Coherent → (∀ id ∈ known, s.Fits id) → SafeAt s m found

theorem SafeAt.bind {s : Session} (hm : SafeAt s m found)
    (hf : ∀ a t, m s = .ok a t → t.Coherent → Extends s t → (∀ id ∈ found a, t.Fits id) →
      SafeAt t (f a) found') : SafeAt s (m >>= f) found' := by
  cases h : m s with
  | error e t =>
      have hrun : (m >>= f) s = .error e t := bind_error h
      refine ⟨fun _ _ hb => (nomatch hrun.symm.trans hb), fun e' t' he => ?_⟩
      cases hrun.symm.trans he
      exact hm.error e t h
  | ok a t =>
      obtain ⟨ht, hst, hfound⟩ := hm.ok a t h
      have hrun : (m >>= f) s = f a t := bind_ok h
      have hrest := hf a t h ht hst hfound
      refine ⟨fun b u hb => ?_, fun e u he => hrest.error e u (hrun.symm.trans he)⟩
      obtain ⟨hu, htu, hfound'⟩ := hrest.ok b u (hrun.symm.trans hb)
      exact ⟨hu, hst.trans htu, hfound'⟩

theorem SafeAt.placement {s : Session} {p : Placement} {f : Placement → Nav β}
    (hp : s.placements[id]? = some p) (hf : SafeAt s (f p) found') :
    SafeAt s (placement id >>= f) found' := by
  have hrun : (Nav.placement id >>= f) s = f p s := bind_ok (placement_eq hp)
  exact ⟨fun a t h => hf.ok a t (hrun.symm.trans h), fun e t h => hf.error e t (hrun.symm.trans h)⟩

namespace Safe

theorem mono (h : Safe known m found) (hsub : known ⊆ known') : Safe known' m found :=
  fun s hs hknown => h s hs fun id hid => hknown id (hsub hid)

theorem pure {a : α} (h : found a ⊆ known) : Safe known (pure a : Nav α) found := by
  refine fun s hs hknown => ⟨fun b t hb => ?_, fun _ _ h => nomatch h⟩
  cases hb
  exact ⟨hs, .refl _, fun id hid => hknown id (h hid)⟩

theorem rejected (e : TreeError) : Safe known (fail (.rejected e) : Nav α) found := by
  refine fun s _ _ => ⟨fun _ _ h => (nomatch h), fun e' t he => ?_⟩
  cases he
  exact .rejected e

theorem get : Safe known (get : Nav Session) fun _ => [] := by
  refine fun s hs _ => ⟨fun a t h => ?_, fun _ _ h => nomatch h⟩
  cases h
  exact ⟨hs, .refl _, fun _ hid => absurd hid List.not_mem_nil⟩

theorem ofExcept {r : Except Failure α} (h : ∀ e, r = .error e → ∀ t, e.Excused t) :
    Safe known (ofExcept r) fun _ => [] := by
  cases r with
  | ok a => exact pure (List.nil_subset _)
  | error e =>
      refine fun s _ _ => ⟨fun _ _ h => (nomatch h), fun e' t he => ?_⟩
      cases he
      exact h e rfl _

theorem ofOk {r : Except Failure α} (h : ∃ a, r = .ok a) :
    Safe known (Nav.ofExcept r) fun _ => [] := by
  obtain ⟨a, rfl⟩ := h
  exact ofExcept fun _ he => (nomatch he)

theorem slice (range : TextRange) (source : String) :
    Safe known (Nav.ofExcept (Checked.slice range source)) fun _ => [] := by
  refine ofExcept fun e he t => ?_
  rw [Checked.slice] at he
  split at he
  · cases he
  · cases he
    exact .slice

theorem bind (hm : Safe known m found) (hf : ∀ a, Safe (found a ++ known) (f a) found') :
    Safe known (m >>= f) found' := by
  intro s hs hknown
  refine (hm s hs hknown).bind fun a t _ ht hst hfound => hf a t ht ?_
  exact List.forall_mem_append.mpr ⟨hfound, fun id hid => (hknown id hid).mono hst⟩

theorem placement {f : Placement → Nav β} (hid : id ∈ known)
    (hf : ∀ p : Placement, p.Sized → Safe (id :: p.parent.toList ++ known) (f p) found') :
    Safe known (placement id >>= f) found' := by
  intro s hs hknown
  obtain ⟨p, hp, hsized⟩ := (hknown id hid).sized hs
  have hparent : ∀ a ∈ p.parent.toList, s.Fits a := fun a ha =>
    (hknown id hid).parent hp (Option.mem_toList.mp ha)
  refine .placement hp (hf p hsized s hs ?_)
  exact List.forall_mem_cons.mpr
    ⟨hknown id hid, List.forall_mem_append.mpr ⟨hparent, hknown⟩⟩

theorem child (hid : id ∈ known) (index : Nat) :
    Safe known (Session.child id index) Option.toList := by
  intro s hs hknown
  obtain ⟨p, hp, hsized⟩ := (hknown id hid).sized hs
  have hanswer := childAnswer hs hp hsized index
  refine ⟨fun a t hok => ?_, fun e t herror => ?_⟩
  · obtain ⟨ht, hst, -, hunder⟩ := hanswer.of_ok hs hok
    exact ⟨ht, hst, fun cid hcid =>
      ((hknown id hid).mono hst).under (hunder cid (Option.mem_toList.mp hcid))⟩
  · cases hanswer with
    | absent _ he => exact nomatch herror.symm.trans he
    | remembered _ _ he => exact nomatch herror.symm.trans he
    | placed _ _ _ _ _ _ he => exact nomatch herror.symm.trans he
    | full _ _ hfull he =>
        cases herror.symm.trans he
        exact .full hfull

theorem childAt (hid : id ∈ known) (index : Nat) :
    Safe known (Session.childAt id index) fun id => [id] := by
  refine (child hid index).bind fun found => ?_
  cases found with
  | none => exact placement hid fun p _ => rejected _
  | some cid => exact pure (by simp)

section Step

theorem firstChild (hid : id ∈ known) : Safe known (Session.firstChild id) Option.toList := by
  refine placement hid fun p _ => ?_
  split
  · exact pure (by simp)
  · exact child List.mem_cons_self 0

theorem lastChild (hid : id ∈ known) : Safe known (Session.lastChild id) Option.toList := by
  refine placement hid fun p _ => ?_
  split
  · exact pure (by simp)
  · exact child List.mem_cons_self _

theorem nextSibling (hid : id ∈ known) : Safe known (Session.nextSibling id) Option.toList := by
  refine placement hid fun p _ => ?_
  split
  · exact pure (by simp)
  · exact child (by simp [*]) _

theorem prevSibling (hid : id ∈ known) : Safe known (Session.prevSibling id) Option.toList := by
  refine placement hid fun p _ => ?_
  split
  · exact child (by simp [*]) _
  · exact pure (by simp)

variable {accept : Green → Bool} {cs : List Green}

theorem firstTokenAmong
    (h : ∀ c ∈ cs, ∀ id, Safe [id] (Session.firstTokenIn accept id c) Option.toList)
    (hid : id ∈ known) (index : Nat) :
    Safe known (Session.firstTokenAmong accept id index cs) Option.toList := by
  induction cs generalizing known index with
  | nil => exact pure (by simp)
  | cons c cs ih =>
      refine (child hid index).bind fun found => ?_
      cases found with
      | none => exact pure (by simp)
      | some cid =>
          refine ((h c List.mem_cons_self cid).mono (by simp)).bind fun found => ?_
          cases found with
          | some token => exact pure (by simp)
          | none =>
              exact ih (fun b hb => h b (List.mem_cons_of_mem c hb)) (by simp [hid]) (index + 1)

theorem firstTokenIn (accept : Green → Bool) (id : Nat) (g : Green) :
    Safe [id] (Session.firstTokenIn accept id g) Option.toList := by
  induction g generalizing id with
  | token stamp shape ds => exact pure (by split <;> simp)
  | node stamp kind summary cs ds ih => exact firstTokenAmong ih List.mem_cons_self 0

theorem lastTokenAmong
    (h : ∀ c ∈ cs, ∀ id, Safe [id] (Session.lastTokenIn accept id c) Option.toList)
    (hid : id ∈ known) (index : Nat) :
    Safe known (Session.lastTokenAmong accept id index cs) Option.toList := by
  induction cs generalizing known index with
  | nil => exact pure (by simp)
  | cons c cs ih =>
      refine (ih (fun b hb => h b (List.mem_cons_of_mem c hb)) hid (index + 1)).bind fun found => ?_
      cases found with
      | some token => exact pure (by simp)
      | none =>
          refine (child (by simp [hid]) index).bind fun found => ?_
          cases found with
          | none => exact pure (by simp)
          | some cid => exact (h c List.mem_cons_self cid).mono (by simp)

theorem lastTokenIn (accept : Green → Bool) (id : Nat) (g : Green) :
    Safe [id] (Session.lastTokenIn accept id g) Option.toList := by
  induction g generalizing id with
  | token stamp shape ds => exact pure (by split <;> simp)
  | node stamp kind summary cs ds ih => exact lastTokenAmong ih List.mem_cons_self 0

theorem firstToken (hid : id ∈ known) : Safe known (Session.firstToken id) Option.toList :=
  placement hid fun p _ => (firstTokenIn _ id p.green).mono (by simp)

theorem lastToken (hid : id ∈ known) : Safe known (Session.lastToken id) Option.toList :=
  placement hid fun p _ => (lastTokenIn _ id p.green).mono (by simp)

theorem nextToken (hid : id ∈ known) : Safe known (Session.nextToken id) Option.toList := by
  induction id using Nat.strong_induction_on generalizing known with
  | _ id ih =>
      rw [Session.nextToken]
      refine placement hid fun p _ => ?_
      cases p.parent with
      | none => exact pure (by simp)
      | some parent =>
          refine placement (by simp) fun above _ => ?_
          refine (firstTokenAmong (fun c _ id => firstTokenIn _ id c) (by simp) _).bind
            fun found => ?_
          cases found with
          | some token => exact pure (by simp)
          | none =>
              dsimp only
              split
              · exact ih parent ‹_› (by simp)
              · exact pure (by simp)

theorem prevToken (hid : id ∈ known) : Safe known (Session.prevToken id) Option.toList := by
  induction id using Nat.strong_induction_on generalizing known with
  | _ id ih =>
      rw [Session.prevToken]
      refine placement hid fun p _ => ?_
      cases p.parent with
      | none => exact pure (by simp)
      | some parent =>
          refine placement (by simp) fun above _ => ?_
          refine (lastTokenAmong (fun c _ id => lastTokenIn _ id c) (by simp) _).bind
            fun found => ?_
          cases found with
          | some token => exact pure (by simp)
          | none =>
              dsimp only
              split
              · exact ih parent ‹_› (by simp)
              · exact pure (by simp)

end Step

section Queue

theorem ofNode (hid : id ∈ known) :
    Safe known (ChildQueue.ofNode id) fun q => [q.parent] :=
  placement hid fun p _ => pure (by simp)

def taken (r : Option Nat × ChildQueue) : List Nat := r.2.parent :: r.1.toList

variable {q : ChildQueue} {take : ChildQueue → Nav (Option Nat × ChildQueue)}

theorem next (hq : q.parent ∈ known) : Safe known q.next taken := by
  rw [ChildQueue.next]
  split
  · exact pure (by simp [taken, hq])
  · refine (child hq _).bind fun found => ?_
    cases found <;> exact pure (by simp [taken, ChildQueue.dropFront, hq])

theorem nextBack (hq : q.parent ∈ known) : Safe known q.nextBack taken := by
  rw [ChildQueue.nextBack]
  split
  · exact pure (by simp [taken, hq])
  · refine (child hq _).bind fun found => ?_
    cases found <;> exact pure (by simp [taken, ChildQueue.dropBack, hq])

theorem nextWhere (h : ∀ {known q}, q.parent ∈ known → Safe known (take q) taken)
    (accept : Placement → Bool) (limit : Nat) (hq : q.parent ∈ known) :
    Safe known (ChildQueue.nextWhere take accept limit q) taken := by
  induction limit generalizing known q with
  | zero => exact pure (by simp [taken, hq])
  | succ limit ih =>
      refine (h hq).bind fun ⟨found, rest⟩ => ?_
      cases found with
      | none => exact pure (by simp [taken])
      | some cid =>
          refine placement (by simp [taken]) fun p _ => ?_
          split
          · exact pure (by simp [taken])
          · exact ih (by simp [taken])

theorem takeAll (h : ∀ {known q}, q.parent ∈ known → Safe known (take q) taken) (limit : Nat)
    (hq : q.parent ∈ known) : Safe known (ChildQueue.takeAll take limit q) fun ids => ids := by
  induction limit generalizing known q with
  | zero => exact pure (by simp)
  | succ limit ih =>
      refine (h hq).bind fun ⟨found, rest⟩ => ?_
      cases found with
      | none => exact pure (by simp)
      | some cid => exact (ih (by simp [taken])).bind fun ids => pure (by simp [taken])

end Queue

end Safe

end Nav

end LosslessSyntax
