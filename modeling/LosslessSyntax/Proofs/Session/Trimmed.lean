import LosslessSyntax.Proofs.Session.Token
import LosslessSyntax.Session.Trivia

namespace LosslessSyntax

namespace TextRange

variable {r u : TextRange}

def span (r u : TextRange) : TextRange := ⟨r.start, max r.start u.stop, Nat.le_max_left _ _⟩

theorem span_eq (h : r.start ≤ u.stop) : r.span u = ⟨r.start, u.stop, h⟩ := by
  rw [span, TextRange.mk.injEq]
  exact ⟨rfl, Nat.max_eq_right h⟩

end TextRange

namespace Green

variable {root m : Green} {q : List Nat} {x y : Entry} {accept : Green → Bool}

def textAt (root : Green) : Entry → TextRange
  | (q, token _ shape _) =>
      ⟨root.offsetAt q + shape.leading, root.offsetAt q + shape.leading + shape.text,
        Nat.le_add_right _ _⟩
  | (q, node _ _ _ _ _) => root.rangeAt q

def spanAt (root : Green) (offset : Nat) : Option Entry → Option Entry → TextRange
  | some x, some y => (root.textAt x).span (root.textAt y)
  | _, _ => TextRange.emptyAt offset

def trimmedAt (root : Green) : Entry → TextRange
  | (q, token stamp shape ds) => root.textAt (q, token stamp shape ds)
  | (q, node stamp kind summary cs ds) =>
      let present := accepted Session.isPresent ((node stamp kind summary cs ds).listing q)
      root.spanAt (root.offsetAt q) present.head? present.getLast?

theorem covers_textAt (hx : root.descend? x.1 = some x.2) :
    (root.rangeAt x.1).covers (root.textAt x) = true := by
  obtain ⟨q, m⟩ := x
  have hstop := stop_rangeAt hx
  rw [TextRange.covers_iff, hstop]
  cases m with
  | token stamp shape ds =>
      have hwidth : (token stamp shape ds).width =
          shape.leading + shape.text + shape.trailing := rfl
      simp only [textAt, rangeAt, hwidth]
      omega
  | node stamp kind summary cs ds => exact ⟨Nat.le_refl _, Nat.le_of_eq hstop⟩

theorem pairwise_accepted (accept : Green → Bool) (hroot : root.WellFormed)
    (hm : root.descend? q = some m) :
    (accepted accept (m.listing q)).Pairwise fun x y =>
      (root.rangeAt x.1).stop ≤ (root.rangeAt y.1).start := by
  have htokens := List.pairwise_map.mp (tiled_listing hroot hm).pairwise
  exact htokens.sublist (List.monotone_filter_right _ fun x hx => (Bool.and_eq_true_iff.mp hx).1)

theorem exists_of_mem_accepted (hm : root.descend? q = some m)
    (hx : x ∈ accepted accept (m.listing q)) :
    root.descend? x.1 = some x.2 ∧ x.2.isToken = true := by
  obtain ⟨hlisted, haccept⟩ := List.mem_filter.mp hx
  exact ⟨descend?_of_mem_listing hm hlisted, (Bool.and_eq_true_iff.mp haccept).1⟩

theorem textAt_start_le_stop (hroot : root.WellFormed) (hm : root.descend? q = some m)
    (hx : (accepted accept (m.listing q)).head? = some x)
    (hy : (accepted accept (m.listing q)).getLast? = some y) :
    (root.textAt x).start ≤ (root.textAt y).stop := by
  obtain ⟨hgx, -⟩ := exists_of_mem_accepted hm (List.mem_of_head? hx)
  obtain ⟨hgy, -⟩ := exists_of_mem_accepted hm (List.mem_of_getLast? hy)
  have hx' := TextRange.covers_iff.mp (covers_textAt hgx)
  have hy' := TextRange.covers_iff.mp (covers_textAt hgy)
  have hpairs := pairwise_accepted accept hroot hm
  obtain ⟨rest, hlist⟩ := List.head?_eq_some_iff.mp hx
  rw [hlist] at hpairs hy
  rcases List.mem_cons.mp (List.mem_of_getLast? hy) with rfl | hmem
  · exact (root.textAt y).start_le_stop
  · have hapart := (List.pairwise_cons.mp hpairs).1 y hmem
    have horder := (root.textAt x).start_le_stop
    have horder' := (root.textAt y).start_le_stop
    omega

end Green

namespace Session

variable {s t : Session} {q : List Nat} {id : Nat} {m : Green}

theorem At.tokenTextRange (hs : s.Grounded) (h : s.At q id) (hm : s.root.descend? q = some m)
    (ht : m.isToken = true) :
    ∃ p, s.placements[id]? = some p ∧ p.tokenTextRange = .ok (s.root.textAt (q, m)) := by
  obtain ⟨p, hp, hgreen, ho⟩ := hs.held h hm
  cases m with
  | node stamp kind summary cs ds => exact nomatch ht
  | token stamp shape ds =>
      have hle := (Green.offsetAt_add_width_le hs.wellFormed hm).trans hs.wellFormed.width_le
      refine ⟨p, hp, ?_⟩
      rw [Placement.tokenTextRange_eq hgreen (ho ▸ hle), Green.textAt]
      simp only [ho]

theorem yields_trimmedRange (hs : s.Grounded) (h : s.At q id) (hm : s.root.descend? q = some m) :
    Nav.Yields s (trimmedRange id) fun _ range => range = s.root.trimmedAt (q, m) := by
  obtain ⟨p, hp, rfl, ho⟩ := hs.held h hm
  refine .of_ok (Nav.placement_eq hp) ?_
  cases hgreen : p.green with
  | token stamp shape ds =>
      obtain ⟨p', hp', hrange⟩ := h.tokenTextRange hs hm (by rw [hgreen]; rfl)
      obtain rfl := Option.some.inj (hp.symm.trans hp')
      rw [if_neg (by rw [Placement.isNode, hgreen]; exact Bool.false_ne_true), hrange, hgreen]
      exact .pure hs rfl
  | node stamp kind summary cs ds =>
      rw [hgreen] at hm
      rw [if_pos (by rw [Placement.isNode, hgreen]; rfl)]
      refine (seeksFirst isPresent _ hs h hm).bind fun first t hst hfirst => ?_
      have ht := hs.explored hst
      have hroot := hst.grown.root
      refine (seeksLast isPresent _ ht (h.mono hst.grown) (hroot ▸ hm)).bind
        fun last u htu hlast => ?_
      have hu := ht.explored htu
      have hroot' := htu.grown.root.trans hroot
      replace hfirst := hfirst.mono htu.grown
      rw [Green.trimmedAt]
      generalize hx : (Green.accepted isPresent (Green.listing q _)).head? = x at hfirst
      generalize hy : (Green.accepted isPresent (Green.listing q _)).getLast? = y at hlast
      cases hfirst with
      | none => exact .pure hu (by rw [ho]; rfl)
      | @some x first hatx =>
          cases hlast with
          | none => exact .pure hu (by rw [ho]; rfl)
          | @some y last haty =>
              have horder := Green.textAt_start_le_stop hs.wellFormed hm hx hy
              obtain ⟨hgx, htx⟩ := Green.exists_of_mem_accepted hm (List.mem_of_head? hx)
              obtain ⟨hgy, hty⟩ := Green.exists_of_mem_accepted hm (List.mem_of_getLast? hy)
              obtain ⟨px, hpx, hopening⟩ := hatx.tokenTextRange hu (hroot' ▸ hgx) htx
              obtain ⟨py, hpy, hclosing⟩ := haty.tokenTextRange hu (hroot' ▸ hgy) hty
              rw [hroot'] at hopening hclosing
              refine .of_ok (Nav.placement_eq hpx) (.of_ok (Nav.placement_eq hpy) ?_)
              have hbounds : Checked.rangeOfBounds (s.root.textAt x).start (s.root.textAt y).stop =
                  .ok ((s.root.textAt x).span (s.root.textAt y)) := by
                rw [Checked.rangeOfBounds, TextRange.ofBounds?, dif_pos horder,
                  TextRange.span_eq horder]
              rw [hopening, hclosing]
              change Nav.Yields u (Nav.ofExcept (Checked.rangeOfBounds _ _)) _
              rw [hbounds]
              exact .pure hu rfl

end Session

end LosslessSyntax
