import LosslessSyntax.Proofs.Session.Offset

namespace LosslessSyntax

namespace TextRange

def encloses (r u : TextRange) : Bool := !r.isEmpty && r.covers u

variable {r u v : TextRange}

theorem encloses_iff : r.encloses u = true ↔ r.start < r.stop ∧ r.covers u = true := by
  have horder := r.start_le_stop
  simp only [encloses, isEmpty, Bool.and_eq_true, Bool.not_eq_true', beq_eq_false_iff_ne]
  exact and_congr_left fun _ => by omega

theorem covers_trans (h : r.covers u = true) (h' : u.covers v = true) : r.covers v = true := by
  rw [covers_iff] at h h' ⊢
  omega

theorem encloses_of_lt (h : r.covers u = true) (hlt : u.start < u.stop) : r.encloses u = true := by
  have hends := covers_iff.mp h
  exact encloses_iff.mpr ⟨by omega, h⟩

theorem encloses_eq_hits (hempty : u.start = u.stop) (r : TextRange) :
    r.encloses u = r.hits u.start := by
  rw [Bool.eq_iff_iff, encloses_iff, hits_iff, covers_iff, hempty]

theorem sharesByte_of_covers (h : r.covers v = true) (h' : u.covers v = true)
    (hlt : v.start < v.stop) : r.sharesByte u = true := by
  rw [covers_iff] at h h'
  exact sharesByte_iff.mpr ⟨v.start, by omega, by omega⟩

end TextRange

namespace Green

variable {root m c : Green} {q p p' : List Nat} {r : TextRange} {i : Nat}

/-- The element at `p` stands at or below `q` and covers the range, and none of its children that is
not empty does. If the range is empty, it is the first token below `q` that touches it, unless there
is nothing but empty elements. -/
structure Innermost (root : Green) (q : List Nat) (m : Green) (r : TextRange) (p : List Nat) :
    Prop where
  below : q <+: p
  covers : (root.rangeAt p).covers r = true
  wide : p = q ∨ (root.rangeAt p).encloses r = true
  last : ∀ i, (root.descend? (p ++ [i])).isSome → (root.rangeAt (p ++ [i])).encloses r = false
  first : r.start = r.stop → (root.rangeAt q).encloses r = true →
    (touching root r.start (m.listing q)).head?.map Prod.fst = some p

theorem Innermost.prefix_of_covers (h : Innermost root q m r p) (hroot : root.WellFormed)
    (hp : (root.descend? p).isSome) (hlt : r.start < r.stop) (hp' : (root.descend? p').isSome)
    (hcovers : (root.rangeAt p').covers r = true) : p' <+: p := by
  by_contra hnot
  have hshare := TextRange.sharesByte_of_covers hcovers h.covers hlt
  by_cases hbelow : p <+: p'
  · obtain ⟨is, rfl⟩ := hbelow
    cases is with
    | nil =>
        rw [List.append_nil] at hnot
        exact hnot List.prefix_rfl
    | cons i is =>
        rw [List.append_cons] at hp' hcovers
        obtain ⟨g, hg⟩ := Option.isSome_iff_exists.mp hp'
        obtain ⟨c, hc, -⟩ := Option.bind_eq_some_iff.mp ((descend?_append root _ is).symm.trans hg)
        have hchild := covers_rangeAt hroot hc hg (List.prefix_append _ is)
        have hencloses := TextRange.encloses_of_lt (TextRange.covers_trans hchild hcovers) hlt
        rw [h.last i (Option.isSome_iff_exists.mpr ⟨c, hc⟩)] at hencloses
        exact Bool.false_ne_true hencloses
  · rw [not_sharesByte_rangeAt hroot hp' hp hnot hbelow] at hshare
    exact Bool.false_ne_true hshare

theorem Innermost.eq_of_empty (h : Innermost root q m r p) (hroot : root.WellFormed)
    (hm : root.descend? q = some m) (hp : (root.descend? p).isSome) (hzero : m.width = 0) :
    p = q := by
  rcases h.wide with rfl | hwide
  · rfl
  · obtain ⟨g, hg⟩ := Option.isSome_iff_exists.mp hp
    have hlt := (TextRange.encloses_iff.mp hwide).1
    have hends := TextRange.covers_iff.mp (covers_rangeAt hroot hm hg h.below)
    have hstop : (root.rangeAt q).stop = (root.rangeAt q).start + m.width := stop_rangeAt hm
    omega

theorem Innermost.of_child (h : Innermost root (q ++ [i]) c r p)
    (hchild : (root.rangeAt (q ++ [i])).encloses r = true)
    (hfirst : r.start = r.stop → ∃ xs, touching root r.start (m.listing q) =
      touching root r.start (c.listing (q ++ [i])) ++ xs) : Innermost root q m r p := by
  refine ⟨(List.prefix_append q [i]).trans h.below, h.covers, .inr ?_, h.last, ?_⟩
  · rcases h.wide with rfl | hwide
    · exact hchild
    · exact hwide
  · intro hempty _
    obtain ⟨xs, hsplit⟩ := hfirst hempty
    have hhead := h.first hempty hchild
    rw [hsplit, List.head?_append]
    obtain ⟨x, hx, hfst⟩ := Option.map_eq_some_iff.mp hhead
    rw [hx, Option.some_or, Option.map_some, hfst]

end Green

namespace Session

variable {s t : Session} {q : List Nat} {id i : Nat} {m : Green} {cs : List Green} {r : TextRange}

theorem coversRange_eq (hs : s.Grounded) (h : s.At q id) (r : TextRange) :
    coversRange r id s = .ok ((s.root.rangeAt q).encloses r) s := by
  obtain ⟨p, hp, hrange⟩ := h.spans hs.coherent hs.wellFormed
  rw [coversRange, Nav.bind_ok (Nav.placement_eq hp), hrange]
  rfl

def Descends (r : TextRange) (m : Green) : Prop :=
  ∀ {s : Session} {q : List Nat} {id : Nat}, s.Grounded → s.At q id → s.root.descend? q = some m →
    (s.root.rangeAt q).covers r = true → Nav.Yields s (coveringIn r id m) fun t found =>
      ∃ p, t.At p found ∧ Green.Innermost s.root q m r p

theorem yields_coveringAmong (ih : ∀ c ∈ cs, Descends r c) (hs : s.Grounded) (h : s.At q id)
    (hm : s.root.descend? q = some m) (hcovers : (s.root.rangeAt q).covers r = true)
    (hchildren : m.ChildrenFrom i cs)
    (hbefore : ∀ j < i, (s.root.rangeAt (q ++ [j])).encloses r = false)
    (hfirst : r.start = r.stop → Green.touching s.root r.start (m.listing q) =
      Green.touching s.root r.start (Green.listingAmong q i cs)) :
    Nav.Yields s (coveringAmong r id i cs) fun t found =>
      ∃ p, t.At p found ∧ Green.Innermost s.root q m r p := by
  induction cs generalizing s i with
  | nil =>
      refine .pure hs ⟨q, h, List.prefix_rfl, hcovers, .inl rfl, ?_, ?_⟩
      · intro j hj
        rw [Green.descend?_concat hm] at hj
        have hlt := (List.getElem?_eq_some_iff.mp (Option.some_get hj).symm).1
        have hle := List.getElem?_eq_none_iff.mp hchildren.none
        exact hbefore j (Nat.lt_of_lt_of_le hlt hle)
      · intro hempty hhit
        rw [TextRange.encloses_eq_hits hempty] at hhit
        exact absurd (hfirst hempty) (Green.touching_ne_nil hs.wellFormed hm hhit)
  | cons c cs ihcs =>
      have hc := hchildren.head
      have hpath := (Green.descend?_concat hm i).trans hc
      rw [coveringAmong]
      refine .child hs h hm hc fun cid t hst hat => ?_
      have ht := hs.explored hst
      have hroot := hst.grown.root
      refine .of_ok (coversRange_eq ht hat r) ?_
      rw [hroot]
      cases hchild : (s.root.rangeAt (q ++ [i])).encloses r with
      | true =>
          rw [if_pos rfl]
          have hinside := ih c List.mem_cons_self ht hat (hroot ▸ hpath)
            (hroot ▸ (TextRange.encloses_iff.mp hchild).2)
          rw [hroot] at hinside
          refine hinside.mono fun found u htu hfound => ?_
          obtain ⟨p, hp, hinner⟩ := hfound
          refine ⟨p, hp, hinner.of_child hchild fun hempty => ?_⟩
          rw [hfirst hempty, Green.listingAmong, Green.touching_append]
          exact ⟨_, rfl⟩
      | false =>
          rw [if_neg Bool.false_ne_true]
          have hrest := ihcs (fun b hb => ih b (List.mem_cons_of_mem c hb)) ht (h.mono hst.grown)
            (hroot ▸ hm) (hroot ▸ hcovers) hchildren.tail
          rw [hroot] at hrest
          refine hrest ?_ ?_
          · intro j hj
            rcases Nat.lt_succ_iff_lt_or_eq.mp hj with hlt | rfl
            · exact hbefore j hlt
            · exact hchild
          · intro hempty
            rw [TextRange.encloses_eq_hits hempty] at hchild
            rw [hfirst hempty, Green.listingAmong, Green.touching_append,
              (Green.touching_eq_nil_iff hs.wellFormed hpath _).mpr hchild, List.nil_append]

theorem descends (r : TextRange) (m : Green) : Descends r m := by
  induction m with
  | token stamp shape ds =>
      intro s q id hs h hm hcovers
      refine .pure hs ⟨q, h, List.prefix_rfl, hcovers, .inl rfl, ?_, ?_⟩
      · intro j hj
        rw [Green.descend?_concat hm] at hj
        exact absurd hj Bool.false_ne_true
      · intro hempty hhit
        rw [TextRange.encloses_eq_hits hempty] at hhit
        rw [Green.touching_listing_token, if_pos hhit]
        rfl
  | node stamp kind summary cs ds ih =>
      intro s q id hs h hm hcovers
      exact yields_coveringAmong ih hs h hm hcovers (Green.childrenFrom_zero _)
        (fun j hj => absurd hj (Nat.not_lt_zero j))
        fun _ => Green.touching_listing_node s.root r.start q rfl

theorem leftBiased_eq_head? (answer : TokenAtOffset) :
    answer.leftBiased = answer.toList.head? := by
  cases answer <;> rfl

theorem yields_leftBiased {p : List Nat} {e : Nat} (hs : s.Grounded) (h : s.At q id)
    (hm : s.root.descend? q = some m) (he : s.At p e)
    (hfirst : (Green.touching s.root i (m.listing q)).head?.map Prod.fst = some p) :
    Nav.Yields s (tokenAtOffset id i) fun _ answer => answer.leftBiased = some e := by
  obtain ⟨x, hx, rfl⟩ := Option.map_eq_some_iff.mp hfirst
  refine (yields_tokenAtOffset hs h hm i).mono fun answer t hst hplaces => ?_
  have hfound := hplaces.found_head?
  rw [hx, ← leftBiased_eq_head?] at hfound
  exact hfound.unique hst.coherent (.some (he.mono hst.grown))

theorem Reached.covering_element (hs : s.Reached) (h : s.At q id)
    (hm : s.root.descend? q = some m) (r : TextRange) :
    ((s.root.rangeAt q).covers r = false → coveringElement id r s = .ok none s) ∧
    ((s.root.rangeAt q).covers r = true →
      Nav.Yields s (coveringElement id r) fun t found =>
        ∃ e p, found = some e ∧ t.At p e ∧ s.root.Innermost q m r p ∧
          (r.start < r.stop → ∀ p', (s.root.descend? p').isSome →
            (s.root.rangeAt p').covers r = true →
            p' <+: p ∧ (s.root.rangeAt p').covers (s.root.rangeAt p) = true) ∧
          (m.width = 0 → e = id) ∧
          (r.start = r.stop → m.width ≠ 0 → ∀ u, Explored t u →
            Nav.Yields u (tokenAtOffset id r.start) fun _ answer =>
              answer.leftBiased = some e)) := by
  have hground := hs.grounded
  have hroot := hs.root_wellFormed
  obtain ⟨p, hp, rfl, -⟩ := hground.held h hm
  obtain ⟨p', hp', hrange⟩ := h.spans hs.coherent hroot
  obtain rfl := Option.some.inj (hp.symm.trans hp')
  have hown : (Nav.ofExcept p.textRange) s = .ok (s.root.rangeAt q) s := by
    rw [hrange]
    rfl
  constructor
  · intro hcovers
    rw [coveringElement, Nav.bind_ok (Nav.placement_eq hp), Nav.bind_ok hown,
      if_neg (Bool.eq_false_iff.mp hcovers)]
    rfl
  · intro hcovers
    refine .of_ok (Nav.placement_eq hp) (.of_ok hown ?_)
    rw [if_pos hcovers]
    refine (descends r p.green hground h hm hcovers).bind fun e t hst hfound => ?_
    obtain ⟨pe, hat, hinner⟩ := hfound
    have ht := hground.explored hst
    obtain ⟨found, -, hge, -⟩ := hat.holds ht.coherent ht.wellFormed
    rw [hst.grown.root] at hge
    have hsome := Option.isSome_iff_exists.mpr ⟨_, hge⟩
    refine .pure ht ⟨e, pe, rfl, hat, hinner, ?_, ?_, ?_⟩
    · intro hlt p' hp' hcovers'
      have habove := hinner.prefix_of_covers hroot hsome hlt hp' hcovers'
      obtain ⟨g, hg'⟩ := Option.isSome_iff_exists.mp hp'
      exact ⟨habove, Green.covers_rangeAt hroot hg' hge habove⟩
    · intro hzero
      obtain rfl := hinner.eq_of_empty hroot hm hsome hzero
      exact hat.id_unique ht.coherent (h.mono hst.grown)
    · intro hempty hwide u htu
      have hsu := hst.trans htu
      have hstop := Green.stop_rangeAt hm
      have hlt : (s.root.rangeAt q).start < (s.root.rangeAt q).stop := by
        rw [hstop]
        exact Nat.lt_add_of_pos_right (Nat.pos_of_ne_zero hwide)
      have hfirst := hinner.first hempty (TextRange.encloses_iff.mpr ⟨hlt, hcovers⟩)
      rw [← hsu.grown.root] at hfirst
      exact yields_leftBiased (hground.explored hsu) (h.mono hsu.grown) (hsu.grown.root ▸ hm)
        (hat.mono htu.grown) hfirst

end Session

namespace Sample

theorem lacking_covered : lackingSession.Reached ∧ lackingSession.At [] Session.rootId ∧
    lackingSession.root.descend? [] = some lacking ∧
    ∃ e t, Session.coveringElement Session.rootId (TextRange.emptyAt 1) lackingSession =
        .ok (some e) t ∧ t.At [0, 0] e ∧
      Nav.Yields t (Session.tokenAtOffset Session.rootId 1) fun _ answer =>
        answer.leftBiased = some e := by
  have hroot : lackingSession.root.descend? [] = some lacking := Green.descend?_nil _
  refine ⟨lackingSession_reached, .root, hroot, ?_⟩
  have hcover := (lackingSession_reached.covering_element .root hroot (TextRange.emptyAt 1)).2 rfl
  obtain ⟨_, t, he, hst, e, p, rfl, hat, hinner, -, -, hleft⟩ :=
    hcover.ok (Nat.not_lt.mpr lackingSession_room)
  have hpath : some [0, 0] = some p := hinner.first rfl rfl
  obtain rfl := Option.some.inj hpath
  exact ⟨e, t, he, hat, hleft rfl (by decide) t (.refl hst.coherent)⟩

end Sample

end LosslessSyntax
