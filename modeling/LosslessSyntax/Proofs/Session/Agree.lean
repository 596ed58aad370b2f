import LosslessSyntax.Proofs.Session.Twin

namespace LosslessSyntax

open Green

namespace Session

variable {a b : Green} {as bs : List Green} {accept : Green → Bool}

theorem agree_childAt (parent index : Nat) :
    Nav.Agree Eq (childAt parent index) (childAt parent index) := by
  refine (agree_child parent index).bindEq fun found => ?_
  cases found with
  | some id => exact .pure rfl
  | none =>
      refine (Nav.Agree.placement parent).bind fun p q hpq => ?_
      rw [Placement.kind, Placement.kind, hpq.green.kind_eq, hpq.green.children.length_eq]
      exact .fail _

theorem agree_resolve (path : Path) : Nav.Agree Eq (resolve path) (resolve path) :=
  agree_descendFrom path 0 rootId path.indices

section Step

theorem agree_firstChild (id : Nat) : Nav.Agree Eq (firstChild id) (firstChild id) := by
  refine (Nav.Agree.placement id).bind fun p q hpq => ?_
  rw [hpq.green.children.isEmpty_eq]
  split
  · exact .pure rfl
  · exact agree_child id 0

theorem agree_lastChild (id : Nat) : Nav.Agree Eq (lastChild id) (lastChild id) := by
  refine (Nav.Agree.placement id).bind fun p q hpq => ?_
  rw [hpq.green.children.isEmpty_eq, hpq.green.children.length_eq]
  split
  · exact .pure rfl
  · exact agree_child id _

theorem agree_nextSibling (id : Nat) : Nav.Agree Eq (nextSibling id) (nextSibling id) := by
  refine (Nav.Agree.placement id).bind fun p q hpq => ?_
  rw [hpq.parent, hpq.index]
  cases q.parent with
  | none => exact .pure rfl
  | some parent => exact agree_child parent _

theorem agree_prevSibling (id : Nat) : Nav.Agree Eq (prevSibling id) (prevSibling id) := by
  refine (Nav.Agree.placement id).bind fun p q hpq => ?_
  rw [hpq.parent, hpq.index]
  cases q.index with
  | zero => exact .pure rfl
  | succ index =>
      cases q.parent with
      | none => exact .pure rfl
      | some parent => exact agree_child parent index

theorem agree_firstTokenAmong
    (h : List.Forall₂ (fun a b => ∀ id,
      Nav.Agree Eq (firstTokenIn accept id a) (firstTokenIn accept id b)) as bs)
    (parent index : Nat) :
    Nav.Agree Eq (firstTokenAmong accept parent index as)
      (firstTokenAmong accept parent index bs) := by
  induction h generalizing index with
  | nil => exact .pure rfl
  | cons hab _ ih =>
      refine (agree_child parent index).bindEq fun found => ?_
      cases found with
      | none => exact .pure rfl
      | some id =>
          refine (hab id).bindEq fun token => ?_
          cases token with
          | some token => exact .pure rfl
          | none => exact ih (index + 1)

theorem agree_firstTokenIn (accept : Green → Bool)
    (haccept : ∀ a b : Green, a.Twin b → accept a = accept b) (h : a.Twin b) (id : Nat) :
    Nav.Agree Eq (firstTokenIn accept id a) (firstTokenIn accept id b) := by
  induction h using Twin.induction generalizing id with
  | token i j shape es h =>
      rw [firstTokenIn, firstTokenIn, haccept _ _ h]
      exact .pure rfl
  | node i j kind summary cs ds es _ hcs =>
      exact agree_firstTokenAmong (hcs.imp fun _ _ => Exists.snd) id 0

theorem agree_lastTokenAmong
    (h : List.Forall₂ (fun a b => ∀ id,
      Nav.Agree Eq (lastTokenIn accept id a) (lastTokenIn accept id b)) as bs)
    (parent index : Nat) :
    Nav.Agree Eq (lastTokenAmong accept parent index as)
      (lastTokenAmong accept parent index bs) := by
  induction h generalizing index with
  | nil => exact .pure rfl
  | cons hab _ ih =>
      refine (ih (index + 1)).bindEq fun later => ?_
      cases later with
      | some token => exact .pure rfl
      | none =>
          refine (agree_child parent index).bindEq fun found => ?_
          cases found with
          | none => exact .pure rfl
          | some id => exact hab id

theorem agree_lastTokenIn (accept : Green → Bool)
    (haccept : ∀ a b : Green, a.Twin b → accept a = accept b) (h : a.Twin b) (id : Nat) :
    Nav.Agree Eq (lastTokenIn accept id a) (lastTokenIn accept id b) := by
  induction h using Twin.induction generalizing id with
  | token i j shape es h =>
      rw [lastTokenIn, lastTokenIn, haccept _ _ h]
      exact .pure rfl
  | node i j kind summary cs ds es _ hcs =>
      exact agree_lastTokenAmong (hcs.imp fun _ _ => Exists.snd) id 0

theorem agree_firstToken (id : Nat) : Nav.Agree Eq (firstToken id) (firstToken id) :=
  (Nav.Agree.placement id).bind fun _ _ hpq => agree_firstTokenIn _ (fun _ _ _ => rfl) hpq.green id

theorem agree_lastToken (id : Nat) : Nav.Agree Eq (lastToken id) (lastToken id) :=
  (Nav.Agree.placement id).bind fun _ _ hpq => agree_lastTokenIn _ (fun _ _ _ => rfl) hpq.green id

theorem agree_nextToken (id : Nat) : Nav.Agree Eq (nextToken id) (nextToken id) := by
  induction id using Nat.strong_induction_on with
  | _ id ih =>
      rw [nextToken]
      refine (Nav.Agree.placement id).bind fun p q hpq => ?_
      rw [hpq.parent, hpq.index]
      cases q.parent with
      | none => exact .pure rfl
      | some parent =>
          refine (Nav.Agree.placement parent).bind fun above above' habove => ?_
          have hlater := (List.forall₂_drop (q.index + 1) habove.green.children).imp
            fun _ _ => agree_firstTokenIn (fun _ => true) fun _ _ _ => rfl
          refine (agree_firstTokenAmong hlater parent _).bindEq fun found => ?_
          cases found with
          | some token => exact .pure rfl
          | none =>
              dsimp only
              split
              · exact ih parent ‹_›
              · exact .pure rfl

theorem agree_prevToken (id : Nat) : Nav.Agree Eq (prevToken id) (prevToken id) := by
  induction id using Nat.strong_induction_on with
  | _ id ih =>
      rw [prevToken]
      refine (Nav.Agree.placement id).bind fun p q hpq => ?_
      rw [hpq.parent, hpq.index]
      cases q.parent with
      | none => exact .pure rfl
      | some parent =>
          refine (Nav.Agree.placement parent).bind fun above above' habove => ?_
          have hearlier := (List.forall₂_take q.index habove.green.children).imp
            fun _ _ => agree_lastTokenIn (fun _ => true) fun _ _ _ => rfl
          refine (agree_lastTokenAmong hearlier parent 0).bindEq fun found => ?_
          cases found with
          | some token => exact .pure rfl
          | none =>
              dsimp only
              split
              · exact ih parent ‹_›
              · exact .pure rfl

end Step

section Offset

variable {offset : Nat} {range : TextRange}

theorem agree_touches (offset id : Nat) : Nav.Agree Eq (touches offset id) (touches offset id) := by
  refine (Nav.Agree.placement id).bind fun p q hpq => ?_
  rw [hpq.textRange_eq]
  refine (Nav.Agree.ofExcept _).bindEq fun range => ?_
  exact .pure rfl

theorem agree_laterTokenAtOffset
    (h : List.Forall₂ (fun a b => ∀ id,
      Nav.Agree Eq (tokenAtOffsetIn offset id a) (tokenAtOffsetIn offset id b)) as bs)
    (parent index : Nat) :
    Nav.Agree Eq (laterTokenAtOffset offset parent index as)
      (laterTokenAtOffset offset parent index bs) := by
  induction h generalizing index with
  | nil => exact .pure rfl
  | cons hab _ ih =>
      refine (agree_child parent index).bindEq fun found => ?_
      cases found with
      | none => exact .pure rfl
      | some id =>
          refine (agree_touches offset id).bindEq fun touched => ?_
          cases touched with
          | true => exact (hab id).bindEq fun right => .pure rfl
          | false => exact ih (index + 1)

theorem agree_tokenAtOffsetAmong
    (h : List.Forall₂ (fun a b => ∀ id,
      Nav.Agree Eq (tokenAtOffsetIn offset id a) (tokenAtOffsetIn offset id b)) as bs)
    (parent index : Nat) :
    Nav.Agree Eq (tokenAtOffsetAmong offset parent index as)
      (tokenAtOffsetAmong offset parent index bs) := by
  induction h generalizing index with
  | nil => exact .pure rfl
  | cons hab hs ih =>
      refine (agree_child parent index).bindEq fun found => ?_
      cases found with
      | none => exact .pure rfl
      | some id =>
          refine (agree_touches offset id).bindEq fun touched => ?_
          cases touched with
          | true =>
              refine (hab id).bindEq fun left => ?_
              refine (agree_laterTokenAtOffset hs parent (index + 1)).bindEq fun later => ?_
              cases later <;> exact .pure rfl
          | false => exact ih (index + 1)

theorem agree_tokenAtOffsetIn (h : a.Twin b) (id : Nat) :
    Nav.Agree Eq (tokenAtOffsetIn offset id a) (tokenAtOffsetIn offset id b) := by
  induction h using Twin.induction generalizing id with
  | token i j shape es =>
      refine (agree_touches offset id).bindEq fun touched => ?_
      cases touched <;> exact .pure rfl
  | node i j kind summary cs ds es _ hcs =>
      refine (agree_touches offset id).bindEq fun touched => ?_
      cases touched with
      | true => exact agree_tokenAtOffsetAmong (hcs.imp fun _ _ => Exists.snd) id 0
      | false => exact .pure rfl

theorem agree_tokenAtOffset (id offset : Nat) :
    Nav.Agree Eq (tokenAtOffset id offset) (tokenAtOffset id offset) :=
  (Nav.Agree.placement id).bind fun _ _ hpq => agree_tokenAtOffsetIn hpq.green id

theorem agree_coversRange (range : TextRange) (id : Nat) :
    Nav.Agree Eq (coversRange range id) (coversRange range id) := by
  refine (Nav.Agree.placement id).bind fun p q hpq => ?_
  rw [hpq.textRange_eq]
  refine (Nav.Agree.ofExcept _).bindEq fun own => ?_
  exact .pure rfl

theorem agree_coveringAmong
    (h : List.Forall₂ (fun a b => ∀ id,
      Nav.Agree Eq (coveringIn range id a) (coveringIn range id b)) as bs)
    (parent index : Nat) :
    Nav.Agree Eq (coveringAmong range parent index as) (coveringAmong range parent index bs) := by
  induction h generalizing index with
  | nil => exact .pure rfl
  | cons hab _ ih =>
      refine (agree_child parent index).bindEq fun found => ?_
      cases found with
      | none => exact .pure rfl
      | some id =>
          refine (agree_coversRange range id).bindEq fun covers => ?_
          cases covers with
          | true => exact hab id
          | false => exact ih (index + 1)

theorem agree_coveringIn (h : a.Twin b) (id : Nat) :
    Nav.Agree Eq (coveringIn range id a) (coveringIn range id b) := by
  induction h using Twin.induction generalizing id with
  | token i j shape es => exact .pure rfl
  | node i j kind summary cs ds es _ hcs =>
      exact agree_coveringAmong (hcs.imp fun _ _ => Exists.snd) id 0

theorem agree_coveringElement (id : Nat) (range : TextRange) :
    Nav.Agree Eq (coveringElement id range) (coveringElement id range) := by
  refine (Nav.Agree.placement id).bind fun p q hpq => ?_
  rw [hpq.textRange_eq]
  refine (Nav.Agree.ofExcept _).bindEq fun own => ?_
  split
  · refine (agree_coveringIn hpq.green id).bindEq fun found => ?_
    exact .pure rfl
  · exact .pure rfl

end Offset

section Trivia

theorem agree_trimmedRange (id : Nat) : Nav.Agree Eq (trimmedRange id) (trimmedRange id) := by
  have haccept : ∀ a b : Green, a.Twin b → isPresent a = isPresent b := fun a b h => by
    rw [isPresent, isPresent, h.isMissing_eq]
  refine (Nav.Agree.placement id).bind fun p q hpq => ?_
  rw [hpq.isNode_eq, hpq.tokenTextRange_eq, hpq.offset]
  split
  · refine (agree_firstTokenIn isPresent haccept hpq.green id).bindEq fun first => ?_
    refine (agree_lastTokenIn isPresent haccept hpq.green id).bindEq fun last => ?_
    cases first with
    | none => exact .pure rfl
    | some first =>
        cases last with
        | none => exact .pure rfl
        | some last =>
            refine (Nav.Agree.placement first).bind fun p q hfirst => ?_
            refine (Nav.Agree.placement last).bind fun p' q' hlast => ?_
            rw [hfirst.tokenTextRange_eq, hlast.tokenTextRange_eq]
            refine (Nav.Agree.ofExcept _).bindEq fun opening => ?_
            refine (Nav.Agree.ofExcept _).bindEq fun closing => ?_
            exact .ofExcept _
  · exact .ofExcept _

theorem agree_text (id : Nat) (source : String) :
    Nav.Agree Eq (text id source) (text id source) := by
  refine (Nav.Agree.placement id).bind fun p q hpq => ?_
  rw [hpq.textRange_eq]
  refine (Nav.Agree.ofExcept _).bindEq fun range => ?_
  exact .ofExcept _

theorem agree_trimmedText (id : Nat) (source : String) :
    Nav.Agree Eq (trimmedText id source) (trimmedText id source) := by
  refine (agree_trimmedRange id).bindEq fun range => ?_
  exact .ofExcept _

theorem agree_locateOwn (id : Nat) : Nav.Agree Eq (locateOwn id) (locateOwn id) := by
  refine (Nav.Agree.placement id).bind fun p q hpq => ?_
  refine (agree_trimmedRange id).bindEq fun range => ?_
  rw [hpq.green.diagnostics_eq]
  exact .pure rfl

theorem agree_collectVisit (e : Event) (found : List LocatedDiagnostic) :
    Nav.Agree Eq (collectVisit e found) (collectVisit e found) := by
  cases e with
  | leave id => exact .pure rfl
  | enter id =>
      refine (Nav.Agree.placement id).bind fun p q hpq => ?_
      rw [hpq.green.containsDiagnostics_eq]
      split
      · refine (agree_locateOwn id).bindEq fun own => ?_
        exact .pure rfl
      · exact .pure rfl

theorem agree_keepEntered (keep : Placement → Bool)
    (hkeep : ∀ p q : Placement, p.Twin q → keep p = keep q) (e : Event) (found : List Nat) :
    Nav.Agree Eq (keepEntered keep e found) (keepEntered keep e found) := by
  cases e with
  | leave id => exact .pure rfl
  | enter id =>
      refine (Nav.Agree.placement id).bind fun p q hpq => ?_
      rw [hkeep p q hpq]
      exact .pure rfl

end Trivia

end Session

namespace ChildQueue

theorem agree_ofNode (id : Nat) : Nav.Agree Eq (ofNode id) (ofNode id) := by
  refine (Nav.Agree.placement id).bind fun p q hpq => ?_
  exact .pure (by simp only [hpq.green.children.length_eq])

theorem agree_next (queue : ChildQueue) : Nav.Agree Eq queue.next queue.next := by
  rw [next]
  split
  · exact .pure rfl
  · refine (Session.agree_child _ _).bindEq fun found => ?_
    cases found <;> exact .pure rfl

theorem agree_nextBack (queue : ChildQueue) : Nav.Agree Eq queue.nextBack queue.nextBack := by
  rw [nextBack]
  split
  · exact .pure rfl
  · refine (Session.agree_child _ _).bindEq fun found => ?_
    cases found <;> exact .pure rfl

section Taking

variable {take : ChildQueue → Nav (Option Nat × ChildQueue)}

theorem agree_nextWhere (htake : ∀ queue, Nav.Agree Eq (take queue) (take queue))
    {accept : Placement → Bool} (haccept : ∀ p q : Placement, p.Twin q → accept p = accept q)
    (limit : Nat) (queue : ChildQueue) :
    Nav.Agree Eq (nextWhere take accept limit queue) (nextWhere take accept limit queue) := by
  induction limit generalizing queue with
  | zero => exact .pure rfl
  | succ limit ih =>
      refine (htake queue).bindEq fun ⟨found, rest⟩ => ?_
      cases found with
      | none => exact .pure rfl
      | some id =>
          refine (Nav.Agree.placement id).bind fun p q hpq => ?_
          rw [haccept p q hpq]
          split
          · exact .pure rfl
          · exact ih rest

theorem agree_takeAll (htake : ∀ queue, Nav.Agree Eq (take queue) (take queue)) (limit : Nat)
    (queue : ChildQueue) :
    Nav.Agree Eq (takeAll take limit queue) (takeAll take limit queue) := by
  induction limit generalizing queue with
  | zero => exact .pure rfl
  | succ limit ih =>
      refine (htake queue).bindEq fun ⟨found, rest⟩ => ?_
      cases found with
      | none => exact .pure rfl
      | some id =>
          refine (ih rest).bindEq fun ids => ?_
          exact .pure rfl

end Taking

end ChildQueue

end LosslessSyntax
