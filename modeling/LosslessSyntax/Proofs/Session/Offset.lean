import LosslessSyntax.Proofs.Session.TextOrder
import LosslessSyntax.Proofs.Session.Token
import LosslessSyntax.Proofs.Text.Touching
import LosslessSyntax.Session.Offset

namespace LosslessSyntax

theorem TokenAtOffset.toList_eq_nil_iff {answer : TokenAtOffset} :
    answer.toList = [] ↔ answer = none := by
  cases answer <;> simp [toList]

theorem TokenAtOffset.eq_single {answer : TokenAtOffset} (h : answer.toList.length = 1) :
    ∃ id, answer = single id := by
  cases answer with
  | none => exact nomatch h
  | single id => exact ⟨id, rfl⟩
  | between left right => exact nomatch h

namespace Session

variable {s t : Session} {q : List Nat} {id i offset : Nat} {m : Green} {cs : List Green}

theorem touches_eq (hs : s.Grounded) (h : s.At q id) (offset : Nat) :
    touches offset id s = .ok ((s.root.rangeAt q).hits offset) s := by
  obtain ⟨p, hp, hrange⟩ := h.spans hs.coherent hs.wellFormed
  rw [touches, Nav.bind_ok (Nav.placement_eq hp), hrange]
  rfl

def FindsTouching (offset : Nat) (m : Green) : Prop :=
  ∀ {s : Session} {q : List Nat} {id : Nat}, s.Grounded → s.At q id →
    s.root.descend? q = some m → Nav.Yields s (tokenAtOffsetIn offset id m) fun t answer =>
      t.Places answer.toList (Green.touching s.root offset (m.listing q))

section Children

variable (ih : ∀ c ∈ cs, FindsTouching offset c) (hs : s.Grounded) (h : s.At q id)
  (hm : s.root.descend? q = some m) (hchildren : m.ChildrenFrom i cs)
include ih hs h hm hchildren

theorem yields_laterTokenAtOffset
    (hle : offset ≤ s.root.offsetAt q + Green.widths (m.children.take i)) :
    Nav.Yields s (laterTokenAtOffset offset id i cs) fun t found =>
      t.Places (found.elim [] TokenAtOffset.toList)
          (Green.touching s.root offset (Green.listingAmong q i cs)) ∧
        (found.isSome = true → Green.touching s.root offset (Green.listingAmong q i cs) ≠ []) := by
  induction cs generalizing s i with
  | nil => exact .pure hs ⟨.nil, nofun⟩
  | cons c cs ihcs =>
      have hc := hchildren.head
      have hpath := (Green.descend?_concat hm i).trans hc
      have hnil := Green.touching_eq_nil_iff hs.wellFormed hpath offset
      rw [laterTokenAtOffset, Green.listingAmong, Green.touching_append]
      refine .child hs h hm hc fun cid t hst hat => ?_
      have ht := hs.explored hst
      have hroot := hst.grown.root
      refine .of_ok (touches_eq ht hat offset) ?_
      rw [hroot]
      cases hhit : (s.root.rangeAt (q ++ [i])).hits offset with
      | true =>
          have hlt := (TextRange.hits_iff.mp hhit).1
          have hstart := Green.offsetAt_concat hm hc
          have hnone := Green.touching_later_eq_nil hs.wellFormed hm hchildren
            (Nat.lt_of_le_of_lt (hstart ▸ hle) hlt)
          have hsome := Green.touching_ne_nil hs.wellFormed hpath hhit
          have hinside := ih c List.mem_cons_self ht hat (hroot ▸ hpath)
          rw [hroot] at hinside
          rw [hnone, List.append_nil, if_pos rfl]
          refine hinside.bind fun answer u htu hplaces => ?_
          exact .pure (ht.explored htu) ⟨hplaces, fun _ => hsome⟩
      | false =>
          have hwidth := Green.widths_take_succ hc
          have hlater := ihcs (fun b hb => ih b (List.mem_cons_of_mem c hb)) ht (h.mono hst.grown)
            (hroot ▸ hm) hchildren.tail (by rw [hroot]; omega)
          rw [hroot] at hlater
          rwa [hnil.mpr hhit, List.nil_append, if_neg Bool.false_ne_true]

theorem yields_tokenAtOffsetAmong :
    Nav.Yields s (tokenAtOffsetAmong offset id i cs) fun t answer =>
      t.Places answer.toList (Green.touching s.root offset (Green.listingAmong q i cs)) := by
  induction cs generalizing s i with
  | nil => exact .pure hs .nil
  | cons c cs ihcs =>
      have hc := hchildren.head
      have hpath := (Green.descend?_concat hm i).trans hc
      have hnil := Green.touching_eq_nil_iff hs.wellFormed hpath offset
      have ih' : ∀ b ∈ cs, FindsTouching offset b := fun b hb => ih b (List.mem_cons_of_mem c hb)
      rw [tokenAtOffsetAmong, Green.listingAmong, Green.touching_append]
      refine .child hs h hm hc fun cid t hst hat => ?_
      have ht := hs.explored hst
      have hroot := hst.grown.root
      refine .of_ok (touches_eq ht hat offset) ?_
      rw [hroot]
      cases hhit : (s.root.rangeAt (q ++ [i])).hits offset with
      | true =>
          have hsome := Green.touching_ne_nil hs.wellFormed hpath hhit
          have hinside := ih c List.mem_cons_self ht hat (hroot ▸ hpath)
          rw [hroot] at hinside
          rw [if_pos rfl]
          refine hinside.bind fun left u htu hleft => ?_
          have hu := ht.explored htu
          have hsu := hst.trans htu
          have hend : offset ≤ s.root.offsetAt q + Green.widths (m.children.take (i + 1)) :=
            Green.stop_rangeAt_child hm hc ▸ (TextRange.hits_iff.mp hhit).2.2
          have hlater := yields_laterTokenAtOffset ih' hu (h.mono hsu.grown) (hsu.grown.root ▸ hm)
            hchildren.tail (hsu.grown.root ▸ hend)
          rw [hsu.grown.root] at hlater
          refine hlater.bind fun found v huv hfound => ?_
          obtain ⟨hright, hsome'⟩ := hfound
          have hall := (hleft.mono huv.grown).append hright
          cases found with
          | none => exact .pure (hu.explored huv) (List.append_nil left.toList ▸ hall)
          | some right =>
              -- both children touch the offset, so that each of them has one token there
              obtain ⟨hone, hone'⟩ := Green.touching_length_eq_one hs.wellFormed hm hchildren hsome
                (hsome' rfl)
              obtain ⟨l, rfl⟩ := TokenAtOffset.eq_single (hleft.length_eq.trans hone)
              obtain ⟨r, rfl⟩ := TokenAtOffset.eq_single (hright.length_eq.trans hone')
              exact .pure (hu.explored huv) hall
      | false =>
          have hrest := ihcs ih' ht (h.mono hst.grown) (hroot ▸ hm) hchildren.tail
          rw [hroot] at hrest
          rwa [hnil.mpr hhit, List.nil_append, if_neg Bool.false_ne_true]

end Children

theorem findsTouching (offset : Nat) (m : Green) : FindsTouching offset m := by
  induction m with
  | token stamp shape ds =>
      intro s q id hs h hm
      rw [tokenAtOffsetIn, Green.touching_listing_token]
      refine .of_ok (touches_eq hs h offset) ?_
      split
      · exact .pure hs (.cons h .nil)
      · exact .pure hs .nil
  | node stamp kind summary cs ds ih =>
      intro s q id hs h hm
      rw [tokenAtOffsetIn]
      refine .of_ok (touches_eq hs h offset) ?_
      cases hhit : (s.root.rangeAt q).hits offset with
      | true =>
          rw [if_pos rfl, Green.touching_listing_node s.root offset q rfl]
          exact yields_tokenAtOffsetAmong ih hs h hm (Green.childrenFrom_zero _)
      | false =>
          rw [if_neg Bool.false_ne_true,
            (Green.touching_eq_nil_iff hs.wellFormed hm offset).mpr hhit]
          exact .pure hs .nil

theorem yields_tokenAtOffset (hs : s.Grounded) (h : s.At q id) (hm : s.root.descend? q = some m)
    (offset : Nat) : Nav.Yields s (tokenAtOffset id offset) fun t answer =>
      t.Places answer.toList (Green.touching s.root offset (m.listing q)) := by
  obtain ⟨p, hp, rfl, -⟩ := hs.held h hm
  exact .of_ok (Nav.placement_eq hp) (findsTouching offset p.green hs h hm)

section Gathered

def hitAt (s : Session) (offset id : Nat) : Bool :=
  s.placements[id]?.any fun p => p.textRange.toOption.any fun r => r.hits offset

theorem At.hitAt_eq (hs : s.Grounded) (h : s.At q id) (offset : Nat) :
    s.hitAt offset id = (s.root.rangeAt q).hits offset := by
  obtain ⟨p, hp, hrange⟩ := h.spans hs.coherent hs.wellFormed
  rw [hitAt, hp, Option.any_some, hrange]
  rfl

theorem Places.filter_hitAt {ids : List Nat} {xs : List Green.Entry} (hs : s.Grounded)
    (h : s.Places ids (Green.tokenEntries xs)) (offset : Nat) :
    s.Places (ids.filter (s.hitAt offset)) (Green.touching s.root offset xs) :=
  List.rel_filter (fun _ _ hat => Bool.eq_iff_iff.mp (hat.hitAt_eq hs offset)) h

end Gathered

theorem Reached.token_at_offset (hs : s.Reached) (h : s.At q id)
    (hm : s.root.descend? q = some m) (offset : Nat) :
    ((Green.touching s.root offset (m.listing q)).length ≤ 2 ∧
      ∀ x y, Green.touching s.root offset (m.listing q) = [x, y] →
        (s.root.rangeAt x.1).stop = offset ∧ (s.root.rangeAt y.1).start = offset) ∧
    (Nav.Yields s (tokenAtOffset id offset) fun t answer =>
      t.Places answer.toList (Green.touching s.root offset (m.listing q)) ∧
        (answer = .none ↔ (s.root.rangeAt q).hits offset = false)) ∧
    (s.root.size + s.strays ≤ Arena.capacity → ∃ ids t, descendantTokens id s = .ok ids t ∧
      Explored s t ∧ ∀ u, Explored t u → ∃ answer, u.Answers (tokenAtOffset id offset) answer ∧
        answer.toList = ids.filter (u.hitAt offset)) := by
  have hground := hs.grounded
  have hstruck := Green.struck_listing hs.root_wellFormed hm offset
  refine ⟨⟨?_, ?_⟩, ?_, ?_⟩
  · have hle := hstruck.length_le
    rwa [List.length_map] at hle
  · intro x y heq
    rw [heq] at hstruck
    exact hstruck.meet
  · refine (yields_tokenAtOffset hground h hm offset).mono fun answer t hst hplaces => ?_
    refine ⟨hplaces, ?_⟩
    rw [← TokenAtOffset.toList_eq_nil_iff, ← Green.touching_eq_nil_iff hs.root_wellFormed hm,
      ← List.length_eq_zero_iff, hplaces.length_eq, List.length_eq_zero_iff]
  · intro hroom
    obtain ⟨ids, t, hids, hst, htokens⟩ := descendantTokens_eq hs hroom h hm
    refine ⟨ids, t, hids, hst, ?_⟩
    intro u htu
    have hsu := hst.trans htu
    have hu := hground.explored hsu
    have hlist := htokens.places.mono htu.grown
    obtain ⟨answer, v, he, huv, hplaces⟩ :=
      (yields_tokenAtOffset hu (h.mono hsu.grown) (hsu.grown.root ▸ hm) offset).ok
        (mt hsu.crowded_iff.mp (Nat.not_lt.mpr hroom))
    exact ⟨answer, ⟨v, he, huv⟩,
      hplaces.unique huv.coherent ((hlist.filter_hitAt hu offset).mono huv.grown)⟩

end Session

namespace Sample

def expected (what : String) : Diagnostic := ⟨.error, "syntax", "expected " ++ what⟩

def lacking : Green :=
  node 6 .assignmentStatement
    [node 1 .simpleNameReference [token 0 .identifierToken 1],
      .token 2 (TokenShape.absent .equalToken) [expected "an equal sign"],
      node 3 .numericLiteral [], node 5 .numericLiteral [token 4 .decimalIntegerLiteralToken 2]]

theorem lacking_wellFormed : lacking.WellFormed := by
  refine .node ?_ (by decide)
  intro c hc
  simp only [List.mem_cons, List.not_mem_nil, or_false] at hc
  rcases hc with rfl | rfl | rfl | rfl
  · exact .node (List.forall_mem_singleton.mpr (token_wellFormed _ _ (by decide))) (by decide)
  · exact .token (by decide) fun _ => rfl
  · exact .node (fun c hc => nomatch hc) (by decide)
  · exact .node (List.forall_mem_singleton.mpr (token_wellFormed _ _ (by decide))) (by decide)

def lackingSession : Session where
  stamp := 7
  root := lacking
  placements := #[Placement.make lacking 0 none 0]

theorem lackingSession_opened :
    Session.ofRoot lacking ⟨7⟩ = .ok (lackingSession, ⟨8⟩) := rfl

theorem lackingSession_reached : lackingSession.Reached :=
  .opened lacking_wellFormed rfl lackingSession_opened

theorem lackingSession_room :
    lackingSession.root.size + lackingSession.strays ≤ Arena.capacity := by
  rw [Session.strays_of_ofRoot lackingSession_opened]
  decide

theorem lacking_token_at_offset : lackingSession.Reached ∧
    lackingSession.At [] Session.rootId ∧ lackingSession.root.descend? [] = some lacking ∧
    ∃ l r t, Session.tokenAtOffset Session.rootId 1 lackingSession = .ok (.between l r) t ∧
      t.At [0, 0] l ∧ t.At [3, 0] r := by
  have hroot : lackingSession.root.descend? [] = some lacking := Green.descend?_nil _
  refine ⟨lackingSession_reached, .root, hroot, ?_⟩
  have htouching : Green.touching lackingSession.root 1 (lacking.listing []) =
      [([0, 0], token 0 .identifierToken 1), ([3, 0], token 4 .decimalIntegerLiteralToken 2)] := rfl
  have hsearch := lackingSession_reached.token_at_offset .root hroot 1
  rw [htouching] at hsearch
  obtain ⟨answer, t, he, -, hplaces, -⟩ := hsearch.2.1.ok (Nat.not_lt.mpr lackingSession_room)
  cases answer with
  | none => exact nomatch hplaces
  | single id => cases hplaces with | cons _ hrest => exact nomatch hrest
  | between l r =>
      cases hplaces with
      | cons hl hrest =>
          cases hrest with
          | cons hr _ => exact ⟨l, r, t, he, hl, hr⟩

end Sample

end LosslessSyntax
