import LosslessSyntax.Proofs.Session.Reached
import LosslessSyntax.Session.ChildQueue
import LosslessSyntax.Session.Step

namespace LosslessSyntax

namespace Session

def Has (s : Session) (ids : List Nat) : Prop := ∀ id ∈ ids, id < s.placements.size

variable {s t : Session} {allowed : Green → Prop}

theorem Coherent.moves (hs : s.Coherent) (h : Relation.ReflTransGen (Move allowed) s t) :
    t.Coherent ∧ Extends s t := by
  induction h with
  | refl => exact ⟨hs, .refl s⟩
  | tail _ hmove ih =>
      obtain ⟨hu, hsu⟩ := ih
      obtain ⟨ht, hut⟩ := hu.move hmove
      exact ⟨ht, hsu.trans hut⟩

theorem Coherent.applied (hs : s.Coherent) (edits : List Edit) (supply : Supply) :
    (Nav.after (Session.apply edits supply) s).Coherent ∧
      Extends s (Nav.after (Session.apply edits supply) s) := by
  have hmoving : Nav.Moving (fun _ => True) (Session.apply edits supply) := .apply edits supply
  exact hs.moves (hmoving s)

theorem Has.mono {ids : List Nat} (h : s.Has ids) (hst : Extends s t) : t.Has ids :=
  fun id hid => Nat.lt_of_lt_of_le (h id hid) hst.size_le

theorem Has.append {xs ys : List Nat} (hx : s.Has xs) (hy : s.Has ys) : s.Has (xs ++ ys) := by
  intro id hid
  rcases List.mem_append.mp hid with hid | hid
  · exact hx id hid
  · exact hy id hid

theorem Has.of_subset {xs ys : List Nat} (h : s.Has ys) (hsub : xs ⊆ ys) : s.Has xs :=
  fun id hid => h id (hsub hid)

theorem lt_size_of_child (hs : s.Coherent) {parent index id : Nat}
    (h : child parent index s = .ok (some id) t) : id < t.placements.size := by
  cases hp : s.placements[parent]? with
  | none =>
      have he : child parent index s = .error (.aborted (.unknownPlacement parent)) s :=
        Nav.bind_error (Nav.placement_eq_error hp)
      cases h.symm.trans he
  | some p =>
      rcases hm : p.memo[index]? with _ | _ | cid
      · cases h.symm.trans (child_of_outside hp hm)
      · rcases hc : p.green.slot? index with _ | ⟨start, green⟩
        · cases h.symm.trans (child_of_slot_none hp hm hc)
        · have he := h.symm.trans (child_of_slot hp hm hc)
          split at he
          · cases he
          · split at he
            · cases he
              rw [withChild, Array.size_modify, Array.size_push]
              exact Nat.lt_succ_self _
            · cases he
      · cases h.symm.trans (child_of_memo hp hm)
        obtain ⟨r, hr, -⟩ := hs.memoized hp hm
        exact lt_size_of_getElem? hr

end Session

namespace Nav

open Session

variable {α β σ : Type} {known known' : List Nat} {m : Nav α} {f : α → Nav β}
  {found : α → List Nat} {found' : β → List Nat}

def Finding (known : List Nat) (m : Nav α) (found : α → List Nat) : Prop :=
  ∀ s : Session, s.Coherent → s.Has known →
    Relation.ReflTransGen (Move fun _ => False) s (after m s) ∧
      ∀ a t, m s = .ok a t → t.Has (found a)

namespace Finding

theorem of_moving (hm : Moving (fun _ => False) m) : Finding known m fun _ => [] :=
  fun s _ _ => ⟨hm s, fun _ _ _ _ hid => absurd hid List.not_mem_nil⟩

theorem mono (h : Finding known m found) (hsub : known ⊆ known') : Finding known' m found :=
  fun s hs hknown => h s hs (hknown.of_subset hsub)

theorem pure {a : α} (h : found a ⊆ known) : Finding known (pure a : Nav α) found := by
  refine fun s _ hknown => ⟨.refl, ?_⟩
  intro b t hb
  cases hb
  exact hknown.of_subset h

theorem fail (e : Failure) : Finding known (fail e : Nav α) found :=
  fun _ _ _ => ⟨.refl, fun _ _ h => nomatch h⟩

theorem ofExcept (r : Except Failure α) : Finding known (ofExcept r) fun _ => [] :=
  of_moving (Moving.ofExcept r)

theorem get : Finding known (get : Nav Session) fun _ => [] :=
  of_moving fun _ => .refl

theorem placement (id : Nat) :
    Finding known (placement id) fun p => id :: p.parent.toList := by
  refine fun s hs _ => ⟨Moving.placement id s, ?_⟩
  intro p t h
  cases hp : s.placements[id]? with
  | none => exact nomatch h.symm.trans (placement_eq_error hp)
  | some q =>
      cases h.symm.trans (placement_eq hp)
      intro a ha
      rcases List.mem_cons.mp ha with rfl | ha
      · exact lt_size_of_getElem? hp
      · obtain ⟨-, r, -, hr, -⟩ := hs.below hp (Option.mem_toList.mp ha)
        exact lt_size_of_getElem? hr

theorem bind (hm : Finding known m found) (hf : ∀ a, Finding (found a ++ known) (f a) found') :
    Finding known (m >>= f) found' := by
  intro s hs hknown
  obtain ⟨hmoves, hfound⟩ := hm s hs hknown
  cases h : m s with
  | ok a t =>
      rw [after_of_ok h] at hmoves
      obtain ⟨ht, hst⟩ := hs.moves hmoves
      obtain ⟨hmoves', hfound'⟩ := hf a t ht ((hfound a t h).append (hknown.mono hst))
      have hrun : (m >>= f) s = f a t := bind_ok h
      rw [after, hrun]
      exact ⟨hmoves.trans hmoves', hfound'⟩
  | error e t =>
      rw [after_of_error h] at hmoves
      have hrun : (m >>= f) s = .error e t := bind_error h
      rw [after, hrun]
      refine ⟨hmoves, ?_⟩
      intro b t hb
      cases hb

theorem child (parent index : Nat) : Finding known (Session.child parent index) Option.toList := by
  refine fun s hs _ => ⟨Moving.child parent index s, ?_⟩
  intro found t h id hid
  rw [Option.mem_toList] at hid
  subst hid
  exact lt_size_of_child hs h

theorem childAt (parent index : Nat) : Finding known (Session.childAt parent index) fun id => [id] := by
  refine (child parent index).bind fun found => ?_
  cases found with
  | none => exact (placement parent).bind fun p => fail _
  | some id => exact pure (by simp)

section Step

theorem firstChild (id : Nat) : Finding known (Session.firstChild id) Option.toList := by
  refine (placement id).bind fun p => ?_
  split
  · exact pure (by simp)
  · exact child id 0

theorem lastChild (id : Nat) : Finding known (Session.lastChild id) Option.toList := by
  refine (placement id).bind fun p => ?_
  split
  · exact pure (by simp)
  · exact child id _

theorem nextSibling (id : Nat) : Finding known (Session.nextSibling id) Option.toList := by
  refine (placement id).bind fun p => ?_
  split
  · exact pure (by simp)
  · exact child _ _

theorem prevSibling (id : Nat) : Finding known (Session.prevSibling id) Option.toList := by
  refine (placement id).bind fun p => ?_
  split
  · exact child _ _
  · exact pure (by simp)

variable {accept : Green → Bool} {cs : List Green}

theorem firstTokenAmong
    (h : ∀ c ∈ cs, ∀ id, Finding [id] (Session.firstTokenIn accept id c) Option.toList)
    (parent index : Nat) :
    Finding known (Session.firstTokenAmong accept parent index cs) Option.toList := by
  induction cs generalizing known index with
  | nil => exact pure (by simp)
  | cons c cs ih =>
      refine (child parent index).bind fun found => ?_
      cases found with
      | none => exact pure (by simp)
      | some id =>
          refine ((h c List.mem_cons_self id).mono (by simp)).bind fun found => ?_
          cases found with
          | none => exact ih (fun b hb => h b (List.mem_cons_of_mem c hb)) (index + 1)
          | some token => exact pure (by simp)

theorem firstTokenIn (accept : Green → Bool) (id : Nat) (g : Green) :
    Finding [id] (Session.firstTokenIn accept id g) Option.toList := by
  induction g generalizing id with
  | token stamp shape ds => exact pure (by split <;> simp)
  | node stamp kind summary cs ds ih => exact firstTokenAmong ih id 0

theorem lastTokenAmong
    (h : ∀ c ∈ cs, ∀ id, Finding [id] (Session.lastTokenIn accept id c) Option.toList)
    (parent index : Nat) :
    Finding known (Session.lastTokenAmong accept parent index cs) Option.toList := by
  induction cs generalizing known index with
  | nil => exact pure (by simp)
  | cons c cs ih =>
      refine (ih (fun b hb => h b (List.mem_cons_of_mem c hb)) (index + 1)).bind fun found => ?_
      cases found with
      | some token => exact pure (by simp)
      | none =>
          refine (child parent index).bind fun found => ?_
          cases found with
          | none => exact pure (by simp)
          | some id => exact (h c List.mem_cons_self id).mono (by simp)

theorem lastTokenIn (accept : Green → Bool) (id : Nat) (g : Green) :
    Finding [id] (Session.lastTokenIn accept id g) Option.toList := by
  induction g generalizing id with
  | token stamp shape ds => exact pure (by split <;> simp)
  | node stamp kind summary cs ds ih => exact lastTokenAmong ih id 0

theorem firstToken (id : Nat) : Finding known (Session.firstToken id) Option.toList :=
  (placement id).bind fun p => (firstTokenIn _ id p.green).mono (by simp)

theorem lastToken (id : Nat) : Finding known (Session.lastToken id) Option.toList :=
  (placement id).bind fun p => (lastTokenIn _ id p.green).mono (by simp)

theorem nextToken (id : Nat) : Finding known (Session.nextToken id) Option.toList := by
  induction id using Nat.strong_induction_on generalizing known with
  | _ id ih =>
      rw [Session.nextToken]
      refine (placement id).bind fun p => ?_
      cases p.parent with
      | none => exact pure (by simp)
      | some parent =>
          refine (placement parent).bind fun above => ?_
          refine (firstTokenAmong (fun c _ id => firstTokenIn _ id c) _ _).bind fun found => ?_
          cases found with
          | some token => exact pure (by simp)
          | none =>
              dsimp only
              split
              · exact ih parent ‹_›
              · exact pure (by simp)

theorem prevToken (id : Nat) : Finding known (Session.prevToken id) Option.toList := by
  induction id using Nat.strong_induction_on generalizing known with
  | _ id ih =>
      rw [Session.prevToken]
      refine (placement id).bind fun p => ?_
      cases p.parent with
      | none => exact pure (by simp)
      | some parent =>
          refine (placement parent).bind fun above => ?_
          refine (lastTokenAmong (fun c _ id => lastTokenIn _ id c) _ _).bind fun found => ?_
          cases found with
          | some token => exact pure (by simp)
          | none =>
              dsimp only
              split
              · exact ih parent ‹_›
              · exact pure (by simp)

end Step

section Queue

theorem ofNode (id : Nat) : Finding known (ChildQueue.ofNode id) fun _ => [] :=
  (placement id).bind fun p => pure (by simp)

theorem next (q : ChildQueue) : Finding known q.next fun r => r.1.toList := by
  rw [ChildQueue.next]
  split
  · exact pure (by simp)
  · refine (child _ _).bind fun found => ?_
    cases found <;> exact pure (by simp)

theorem nextBack (q : ChildQueue) : Finding known q.nextBack fun r => r.1.toList := by
  rw [ChildQueue.nextBack]
  split
  · exact pure (by simp)
  · refine (child _ _).bind fun found => ?_
    cases found <;> exact pure (by simp)

variable {take : ChildQueue → Nav (Option Nat × ChildQueue)}

theorem nextWhere (h : ∀ known q, Finding known (take q) fun r => r.1.toList)
    (accept : Placement → Bool) (limit : Nat) (q : ChildQueue) :
    Finding known (ChildQueue.nextWhere take accept limit q) fun r => r.1.toList := by
  induction limit generalizing known q with
  | zero => exact pure (by simp)
  | succ limit ih =>
      refine (h _ q).bind fun ⟨found, rest⟩ => ?_
      cases found with
      | none => exact pure (by simp)
      | some id =>
          refine (placement id).bind fun p => ?_
          split
          · exact pure (by simp)
          · exact ih rest

theorem takeAll (h : ∀ known q, Finding known (take q) fun r => r.1.toList) (limit : Nat)
    (q : ChildQueue) : Finding known (ChildQueue.takeAll take limit q) id := by
  induction limit generalizing known q with
  | zero => exact pure (by simp)
  | succ limit ih =>
      refine (h _ q).bind fun ⟨found, rest⟩ => ?_
      cases found with
      | none => exact pure (by simp)
      | some id => exact (ih rest).bind fun ids => pure (by simp)

end Queue

end Finding

end Nav

end LosslessSyntax
