import LosslessSyntax.Proofs.Session.Token

namespace LosslessSyntax

theorem getLast?_take_of_lt {α : Type} {xs : List α} {i : Nat} (hi : i < xs.length) :
    (xs.take i).getLast? = if i = 0 then none else xs[i - 1]? := by
  rw [List.getLast?_take, List.getElem?_eq_getElem (Nat.lt_of_le_of_lt (Nat.sub_le i 1) hi),
    Option.some_or]

namespace Green

variable {root m : Green} {q : List Nat} {x : Entry} {i : Nat}

theorem nodup_tokenEntries (root : Green) (q : List Nat) :
    (tokenEntries (root.listing q)).Nodup := by
  have hpaths := (root.pairwise_listing q).filter fun x => x.2.isToken
  exact hpaths.imp fun hne heq => hne (congrArg Prod.fst heq)

theorem tokens_around (hx : (tokenEntries (root.listing []))[i]? = some x) :
    tokenEntries (root.before [] x.1) = (tokenEntries (root.listing [])).take i ∧
      tokenEntries (root.behind [] x.1) = (tokenEntries (root.listing [])).drop (i + 1) := by
  have hcut := eq_cut_of_getElem? hx
  obtain ⟨q, m⟩ := x
  obtain ⟨hlisted, htoken⟩ := List.mem_filter.mp (List.mem_of_getElem? hx)
  obtain ⟨is, rfl, hm⟩ := mem_listing_iff.mp hlisted
  have hone : tokenEntries [(q, m)] = [(q, m)] := List.filter_eq_self.mpr (by simpa using htoken)
  have hsplit := congrArg tokenEntries (listing_split [] hm)
  rw [listing_of_isToken _ htoken, List.nil_append, tokenEntries_append, tokenEntries_append, hone,
    List.append_assoc, List.singleton_append] at hsplit
  have hnodup := nodup_tokenEntries root []
  rw [hsplit, List.nodup_middle, List.nodup_cons, List.mem_append, not_or] at hnodup
  obtain ⟨hbefore, -, hbehind⟩ := (List.append_cons_inj_of_notMem hnodup.1.1 hnodup.1.2).mp
    (hsplit.symm.trans hcut)
  exact ⟨hbefore, hbehind⟩

end Green

namespace Session

def follow (step : Nat → Nav (Option Nat)) : Nat → Nat → Nav (List Nat)
  | 0, _ => pure []
  | limit + 1, id => do
      match ← step id with
      | none => pure []
      | some token =>
          let rest ← follow step limit token
          pure (token :: rest)

variable {s t : Session} {q : List Nat} {id i limit : Nat} {m : Green} {x : Green.Entry}
  {y : Option Green.Entry} {found found' : Option Nat} {ids : List Nat}

section Step

theorem nextToken_answersAt (hs : s.Grounded) (hroom : ¬ s.Crowded)
    (hx : (Green.tokenEntries (s.root.listing []))[i]? = some x) (h : s.At x.1 id) :
    s.AnswersAt (nextToken id) (Green.tokenEntries (s.root.listing []))[i + 1]? := by
  have hnext := yields_nextToken hs h
  rw [(Green.tokens_around hx).2, List.head?_drop] at hnext
  exact hnext.ok hroom

theorem prevToken_answersAt (hs : s.Grounded) (hroom : ¬ s.Crowded)
    (hx : (Green.tokenEntries (s.root.listing []))[i]? = some x) (h : s.At x.1 id) :
    s.AnswersAt (prevToken id)
      (if i = 0 then none else (Green.tokenEntries (s.root.listing []))[i - 1]?) := by
  have hprev := yields_prevToken hs h
  have hi := (List.getElem?_eq_some_iff.mp hx).1
  rw [(Green.tokens_around hx).1, getLast?_take_of_lt hi] at hprev
  exact hprev.ok hroom

end Step

def Lined (s : Session) (ids : List Nat) : Prop :=
  s.Places ids (Green.tokenEntries (s.root.listing []))

theorem Lined.mono (h : s.Lined ids) (hst : Extends s t) : t.Lined ids := by
  rw [Lined, hst.root]
  exact Places.mono h hst

theorem Lined.entry (h : s.Lined ids) (hid : ids[i]? = some id) :
    ∃ x, (Green.tokenEntries (s.root.listing []))[i]? = some x ∧ s.At x.1 id := by
  have hfound := Places.found_getElem? h i
  rw [hid] at hfound
  cases hx : (Green.tokenEntries (s.root.listing []))[i]? with
  | none =>
      rw [hx] at hfound
      exact nomatch hfound
  | some x =>
      rw [hx] at hfound
      cases hfound with
      | some hat => exact ⟨x, rfl, hat⟩

section Follow

variable (hs : s.Grounded) (hroom : ¬ s.Crowded) (h : s.Lined ids) (hid : ids[i]? = some id)
include hs hroom h hid

theorem nextToken_answers : s.Answers (nextToken id) ids[i + 1]? := by
  obtain ⟨x, hx, hat⟩ := h.entry hid
  exact (nextToken_answersAt hs hroom hx hat).answers (Places.found_getElem? h (i + 1))

theorem prevToken_answers :
    s.Answers (prevToken id) (if i = 0 then none else ids[i - 1]?) := by
  obtain ⟨x, hx, hat⟩ := h.entry hid
  refine (prevToken_answersAt hs hroom hx hat).answers ?_
  split
  · exact .none
  · exact Places.found_getElem? h (i - 1)

theorem follow_nextToken (hlimit : ids.length ≤ i + limit) :
    s.Answers (follow nextToken limit id) (ids.drop (i + 1)) := by
  have hi := (List.getElem?_eq_some_iff.mp hid).1
  induction limit generalizing s i id with
  | zero => omega
  | succ limit ih =>
      obtain ⟨t, hnext, hst⟩ := nextToken_answers hs hroom h hid
      rw [follow, Answers]
      cases hsome : ids[i + 1]? with
      | none =>
          rw [hsome] at hnext
          rw [List.drop_eq_nil_of_le (List.getElem?_eq_none_iff.mp hsome)]
          exact ⟨t, Nav.bind_ok hnext, hst⟩
      | some token =>
          rw [hsome] at hnext
          obtain ⟨hlt, rfl⟩ := List.getElem?_eq_some_iff.mp hsome
          obtain ⟨u, hrest, htu⟩ := ih (hs.explored hst) (mt hst.crowded_iff.mp hroom)
            (h.mono hst.grown) hsome (by omega) hlt
          rw [List.drop_eq_getElem_cons hlt]
          exact ⟨u, (Nav.bind_ok hnext).trans (Nav.bind_ok hrest), hst.trans htu⟩

theorem follow_prevToken (hlimit : i < limit) :
    s.Answers (follow prevToken limit id) (ids.take i).reverse := by
  induction limit generalizing s i id with
  | zero => omega
  | succ limit ih =>
      obtain ⟨t, hprev, hst⟩ := prevToken_answers hs hroom h hid
      rw [follow, Answers]
      cases i with
      | zero => exact ⟨t, Nav.bind_ok hprev, hst⟩
      | succ i =>
          have hi := Nat.lt_of_succ_lt (List.getElem?_eq_some_iff.mp hid).1
          have hsome : ids[i]? = some ids[i] := List.getElem?_eq_getElem hi
          rw [if_neg (Nat.succ_ne_zero i), Nat.add_sub_cancel, hsome] at hprev
          obtain ⟨u, hrest, htu⟩ := ih (hs.explored hst) (mt hst.crowded_iff.mp hroom)
            (h.mono hst.grown) hsome (by omega)
          rw [List.take_succ_eq_append_getElem hi, List.reverse_append]
          exact ⟨u, (Nav.bind_ok hprev).trans (Nav.bind_ok hrest), hst.trans htu⟩

end Follow

section Ends

variable (hs : s.Grounded) (hroom : ¬ s.Crowded) (h : s.At q id) (hm : s.root.descend? q = some m)
include hs hroom h hm

theorem firstToken_answersAt :
    s.AnswersAt (firstToken id) (Green.tokenEntries (m.listing q)).head? := by
  obtain ⟨p, hp, rfl, -⟩ := hs.held h hm
  have hfirst : Nav.Yields s (firstToken id) _ :=
    .of_ok (Nav.placement_eq hp) (seeksFirst (fun _ => true) p.green hs h hm)
  rw [Green.accepted_all] at hfirst
  exact hfirst.ok hroom

theorem lastToken_answersAt :
    s.AnswersAt (lastToken id) (Green.tokenEntries (m.listing q)).getLast? := by
  obtain ⟨p, hp, rfl, -⟩ := hs.held h hm
  have hlast : Nav.Yields s (lastToken id) _ :=
    .of_ok (Nav.placement_eq hp) (seeksLast (fun _ => true) p.green hs h hm)
  rw [Green.accepted_all] at hlast
  exact hlast.ok hroom

end Ends

theorem Reached.token_order (hs : s.Reached) (hroom : s.root.size + s.strays ≤ Arena.capacity) :
    (∀ i x id, (Green.tokenEntries (s.root.listing []))[i]? = some x → s.At x.1 id →
      s.AnswersAt (nextToken id) (Green.tokenEntries (s.root.listing []))[i + 1]? ∧
        s.AnswersAt (prevToken id)
          (if i = 0 then none else (Green.tokenEntries (s.root.listing []))[i - 1]?)) ∧
      (∃ ids t, descendantTokens rootId s = .ok ids t ∧ Explored s t ∧ t.Lined ids ∧
        ∀ u i id, Explored t u → ids[i]? = some id →
          u.Answers (nextToken id) ids[i + 1]? ∧
            u.Answers (prevToken id) (if i = 0 then none else ids[i - 1]?) ∧
            ∀ limit, ids.length ≤ limit →
              u.Answers (follow nextToken limit id) (ids.drop (i + 1)) ∧
                u.Answers (follow prevToken limit id) (ids.take i).reverse) ∧
      ∀ q m id, s.At q id → s.root.descend? q = some m →
        s.AnswersAt (firstToken id) (Green.tokenEntries (m.listing q)).head? ∧
          s.AnswersAt (lastToken id) (Green.tokenEntries (m.listing q)).getLast? ∧
          ∃ ids t, descendantTokens id s = .ok ids t ∧ Explored s t ∧
            ∀ u, Explored t u → u.Answers (firstToken id) ids.head? ∧
              u.Answers (lastToken id) ids.getLast? := by
  have hground := hs.grounded
  have hfree : ¬ s.Crowded := Nat.not_lt.mpr hroom
  refine ⟨?_, ?_, ?_⟩
  · intro i x id hx hat
    exact ⟨nextToken_answersAt hground hfree hx hat, prevToken_answersAt hground hfree hx hat⟩
  · obtain ⟨ids, t, hids, hst, htokens⟩ := descendantTokens_eq hs hroom .root (Green.descend?_nil _)
    have hlined : t.Lined ids := by
      rw [Lined, hst.grown.root]
      exact htokens.places
    refine ⟨ids, t, hids, hst, hlined, ?_⟩
    intro u i id htu hid
    have hu := hground.explored (hst.trans htu)
    have hfree' := mt (hst.trans htu).crowded_iff.mp hfree
    have hlined' := hlined.mono htu.grown
    refine ⟨nextToken_answers hu hfree' hlined' hid, prevToken_answers hu hfree' hlined' hid, ?_⟩
    intro limit hlimit
    have hi := (List.getElem?_eq_some_iff.mp hid).1
    exact ⟨follow_nextToken hu hfree' hlined' hid (by omega),
      follow_prevToken hu hfree' hlined' hid (by omega)⟩
  · intro q m id hat hm
    refine ⟨firstToken_answersAt hground hfree hat hm, lastToken_answersAt hground hfree hat hm, ?_⟩
    obtain ⟨ids, t, hids, hst, htokens⟩ := descendantTokens_eq hs hroom hat hm
    refine ⟨ids, t, hids, hst, ?_⟩
    intro u htu
    have hsu := hst.trans htu
    have hu := hground.explored hsu
    have hfree' := mt hsu.crowded_iff.mp hfree
    have hat' := hat.mono hsu.grown
    have hm' := hsu.grown.root ▸ hm
    have hlist := htokens.places.mono htu.grown
    exact ⟨(firstToken_answersAt hu hfree' hat' hm').answers hlist.found_head?,
      (lastToken_answersAt hu hfree' hat' hm').answers hlist.found_getLast?⟩

end Session

namespace Sample

theorem assignment_token_order : session.Reached ∧
    session.root.size + session.strays ≤ Arena.capacity ∧
    ∃ ids t first, Session.descendantTokens Session.rootId session = .ok ids t ∧ ids.length = 4 ∧
      ids[0]? = some first ∧ t.Answers (Session.follow Session.nextToken 4 first) (ids.drop 1) := by
  have ho : Session.ofRoot assignment ⟨7⟩ = .ok (session, ⟨8⟩) := rfl
  have hroom : session.root.size + session.strays ≤ Arena.capacity := by
    rw [Session.strays_of_ofRoot ho]
    decide
  obtain ⟨ids, t, hids, hst, hlined, hsteps⟩ := (session_reached.token_order hroom).2.1
  have hfour : ids.length = 4 := by
    rw [hlined.length_eq, hst.grown.root]
    rfl
  have hfirst : ids[0]? = some ids[0] := List.getElem?_eq_getElem (hfour ▸ Nat.succ_pos 3)
  have hfollow := (hsteps t 0 _ (.refl hst.coherent) hfirst).2.2 4 (Nat.le_of_eq hfour)
  exact ⟨session_reached, hroom, ids, t, _, hids, hfour, hfirst, hfollow.1⟩

end Sample

end LosslessSyntax
