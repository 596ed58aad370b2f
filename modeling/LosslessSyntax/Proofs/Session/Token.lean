import LosslessSyntax.Proofs.Green.Neighbours
import LosslessSyntax.Proofs.Session.Yields
import LosslessSyntax.Proofs.Text.Lossless
import LosslessSyntax.Session.Step

namespace LosslessSyntax

namespace Green

def accepted (accept : Green → Bool) (xs : List Entry) : List Entry :=
  xs.filter fun x => x.2.isToken && accept x.2

theorem accepted_all (xs : List Entry) : accepted (fun _ => true) xs = tokenEntries xs := by
  simp only [accepted, Bool.and_true, tokenEntries]

theorem accepted_listing_token (accept : Green → Bool) (q : List Nat) (stamp : Nat)
    (shape : TokenShape) (ds : List Diagnostic) :
    accepted accept ((token stamp shape ds).listing q) =
      if accept (token stamp shape ds) then [(q, token stamp shape ds)] else [] := by
  rw [listing, accepted, List.filter_singleton, isToken, Bool.true_and, Bool.cond_eq_ite]

end Green

namespace Session

variable {s t : Session} {accept : Green → Bool} {q : List Nat} {id i : Nat} {m : Green}
  {cs : List Green}

theorem Tokens.places {ids : List Nat} {xs : List Green.Entry} (h : s.Tokens ids xs) :
    s.Places ids xs :=
  h.imp fun _ _ h => h.1

section First

def SeeksFirst (accept : Green → Bool) (m : Green) : Prop :=
  ∀ {s : Session} {q : List Nat} {id : Nat}, s.Grounded → s.At q id →
    s.root.descend? q = some m → Nav.Yields s (firstTokenIn accept id m) fun t found =>
      t.Found (Green.accepted accept (m.listing q)).head? found

theorem yields_firstTokenAmong (ih : ∀ c ∈ cs, SeeksFirst accept c) (hs : s.Grounded)
    (h : s.At q id) (hm : s.root.descend? q = some m) (hcs : m.HasChildren i cs) :
    Nav.Yields s (firstTokenAmong accept id i cs) fun t found =>
      t.Found (Green.accepted accept (Green.listingAmong q i cs)).head? found := by
  induction cs generalizing s i with
  | nil => exact .pure hs .none
  | cons c cs ihcs =>
      have hc := hcs.head
      rw [firstTokenAmong, Green.listingAmong, Green.accepted, List.filter_append,
        List.head?_append]
      refine .child hs h hm hc fun cid t hst hat => ?_
      have hpath := (Green.descend?_concat hm i).trans hc
      have hinside := ih c List.mem_cons_self (hs.explored hst) hat (hst.grown.root ▸ hpath)
      refine hinside.bind fun found u htu hfound => ?_
      have hu := (hs.explored hst).explored htu
      have hsu := hst.trans htu
      cases found with
      | some token => exact .pure hu hfound.or_some
      | none =>
          have hrest := ihcs (fun b hb => ih b (List.mem_cons_of_mem c hb)) hu (h.mono hsu.grown)
            (hsu.grown.root ▸ hm) hcs.tail
          exact hrest.mono fun found v huv hfound' => (hfound.mono huv.grown).or_none hfound'

theorem seeksFirst (accept : Green → Bool) (m : Green) : SeeksFirst accept m := by
  induction m with
  | token stamp shape ds =>
      intro s q id hs h hm
      refine .pure hs ?_
      rw [Green.accepted_listing_token]
      split
      · exact .some h
      · exact .none
  | node stamp kind summary cs ds ih =>
      intro s q id hs h hm
      exact yields_firstTokenAmong ih hs h hm (Green.hasChildren_all _)

end First

section Last

def SeeksLast (accept : Green → Bool) (m : Green) : Prop :=
  ∀ {s : Session} {q : List Nat} {id : Nat}, s.Grounded → s.At q id →
    s.root.descend? q = some m → Nav.Yields s (lastTokenIn accept id m) fun t found =>
      t.Found (Green.accepted accept (m.listing q)).getLast? found

theorem yields_lastTokenAmong (ih : ∀ c ∈ cs, SeeksLast accept c) (hs : s.Grounded)
    (h : s.At q id) (hm : s.root.descend? q = some m) (hcs : m.HasChildren i cs) :
    Nav.Yields s (lastTokenAmong accept id i cs) fun t found =>
      t.Found (Green.accepted accept (Green.listingAmong q i cs)).getLast? found := by
  induction cs generalizing s i with
  | nil => exact .pure hs .none
  | cons c cs ihcs =>
      have hc := hcs.head
      rw [lastTokenAmong, Green.listingAmong, Green.accepted, List.filter_append,
        List.getLast?_append]
      have hrest := ihcs (fun b hb => ih b (List.mem_cons_of_mem c hb)) hs h hm hcs.tail
      refine hrest.bind fun found t hst hfound => ?_
      have ht := hs.explored hst
      cases found with
      | some token => exact .pure ht hfound.or_some
      | none =>
          have hm' := hst.grown.root ▸ hm
          refine .child ht (h.mono hst.grown) hm' hc fun cid u htu hat => ?_
          have hpath := (Green.descend?_concat hm' i).trans hc
          have hinside := ih c List.mem_cons_self (ht.explored htu) hat (htu.grown.root ▸ hpath)
          exact hinside.mono fun found v huv hfound' =>
            (hfound.mono (htu.trans huv).grown).or_none hfound'

theorem seeksLast (accept : Green → Bool) (m : Green) : SeeksLast accept m := by
  induction m with
  | token stamp shape ds =>
      intro s q id hs h hm
      refine .pure hs ?_
      rw [Green.accepted_listing_token]
      split
      · exact .some h
      · exact .none
  | node stamp kind summary cs ds ih =>
      intro s q id hs h hm
      exact yields_lastTokenAmong ih hs h hm (Green.hasChildren_all _)

end Last

section Steps

theorem Grounded.parent (hs : s.Grounded) (h : s.At (q ++ [i]) id) :
    ∃ a p above c, s.placements[id]? = some p ∧ p.parent = some a ∧ p.index = i ∧ a < id ∧
      s.At q a ∧ s.placements[a]? = some above ∧ s.root.descend? q = some above.green ∧
      above.green.child? i = some c := by
  obtain ⟨a, p, ha, hp, hparent, hindex⟩ := h.of_concat hs.coherent
  obtain ⟨above, habove, hm, -⟩ := ha.holds hs.coherent hs.wellFormed
  obtain ⟨r, -, hg, -⟩ := h.holds hs.coherent hs.wellFormed
  exact ⟨a, p, above, r.green, hp, hparent, hindex, (hs.coherent.below hp hparent).1, ha, habove,
    hm, (Green.descend?_concat hm i).symm.trans hg⟩

theorem yields_nextToken (hs : s.Grounded) (h : s.At q id) :
    Nav.Yields s (nextToken id) fun t found =>
      t.Found (Green.tokenEntries (s.root.behind [] q)).head? found := by
  induction q using List.reverseRecOn generalizing s id with
  | nil =>
      obtain rfl := h.eq_rootId hs.coherent
      obtain ⟨p, hp, -, -, hparent⟩ := hs.coherent.root
      rw [nextToken]
      refine .of_ok (Nav.placement_eq hp) ?_
      rw [hparent]
      exact .pure hs .none
  | append_singleton q i ih =>
      obtain ⟨a, p, above, c, hp, hparent, rfl, hlt, ha, habove, hm, hc⟩ := hs.parent h
      rw [Green.behind_concat [] hm hc, List.nil_append, Green.tokenEntries_append,
        List.head?_append, nextToken]
      refine .of_ok (Nav.placement_eq hp) ?_
      rw [hparent]
      refine .of_ok (Nav.placement_eq habove) ?_
      have hlater := yields_firstTokenAmong (fun c _ => seeksFirst (fun _ => true) c) hs ha hm
        (above.green.hasChildren_drop (p.index + 1))
      refine hlater.bind fun found t hst hfound => ?_
      rw [Green.accepted_all] at hfound
      cases found with
      | some token => exact .pure (hs.explored hst) hfound.or_some
      | none =>
          have hrest := ih (hs.explored hst) (ha.mono hst.grown)
          rw [hst.grown.root] at hrest
          dsimp only
          rw [if_pos hlt]
          exact hrest.mono fun found u htu hfound' => (hfound.mono htu.grown).or_none hfound'

theorem yields_prevToken (hs : s.Grounded) (h : s.At q id) :
    Nav.Yields s (prevToken id) fun t found =>
      t.Found (Green.tokenEntries (s.root.before [] q)).getLast? found := by
  induction q using List.reverseRecOn generalizing s id with
  | nil =>
      obtain rfl := h.eq_rootId hs.coherent
      obtain ⟨p, hp, -, -, hparent⟩ := hs.coherent.root
      rw [prevToken]
      refine .of_ok (Nav.placement_eq hp) ?_
      rw [hparent]
      exact .pure hs .none
  | append_singleton q i ih =>
      obtain ⟨a, p, above, c, hp, hparent, rfl, hlt, ha, habove, hm, hc⟩ := hs.parent h
      rw [Green.before_concat [] hm hc, List.nil_append, Green.tokenEntries_append,
        Green.tokenEntries_cons_node (Green.isNode_of_child?_eq_some hc), List.getLast?_append,
        prevToken]
      refine .of_ok (Nav.placement_eq hp) ?_
      rw [hparent]
      refine .of_ok (Nav.placement_eq habove) ?_
      have hearlier := yields_lastTokenAmong (fun c _ => seeksLast (fun _ => true) c) hs ha hm
        (above.green.hasChildren_take p.index)
      refine hearlier.bind fun found t hst hfound => ?_
      rw [Green.accepted_all] at hfound
      cases found with
      | some token => exact .pure (hs.explored hst) hfound.or_some
      | none =>
          have hrest := ih (hs.explored hst) (ha.mono hst.grown)
          rw [hst.grown.root] at hrest
          dsimp only
          rw [if_pos hlt]
          exact hrest.mono fun found u htu hfound' => (hfound.mono htu.grown).or_none hfound'

end Steps

end Session

end LosslessSyntax
