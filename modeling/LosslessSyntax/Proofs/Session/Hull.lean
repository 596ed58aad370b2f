import LosslessSyntax.Proofs.Green.Exact
import LosslessSyntax.Proofs.Session.Offset
import LosslessSyntax.Proofs.Session.Trimmed
import Mathlib.Order.Bounds.Basic

namespace LosslessSyntax

def TokenShape.lengths (s : TokenShape) : Nat × Nat × Nat := (s.leading, s.text, s.trailing)

namespace TextRange

variable {r u text : TextRange} {texts texts' : Set TextRange} {start offset offset' : Nat}
  {xs : List TextRange} {lengths : List (Nat × Nat × Nat)}

section Hull

structure IsHull (texts : Set TextRange) (offset : Nat) (r : TextRange) : Prop where
  empty : texts = ∅ → r = emptyAt offset
  start : texts.Nonempty → IsLeast (TextRange.start '' texts) r.start
  stop : texts.Nonempty → IsGreatest (TextRange.stop '' texts) r.stop

theorem IsHull.covers (h : IsHull texts offset r) (ht : text ∈ texts) : r.covers text = true := by
  rw [covers_iff]
  exact ⟨(h.start ⟨text, ht⟩).2 ⟨text, ht, rfl⟩, (h.stop ⟨text, ht⟩).2 ⟨text, ht, rfl⟩⟩

theorem IsHull.covered (h : IsHull texts offset r) (hne : texts.Nonempty)
    (hin : ∀ text ∈ texts, u.covers text = true) : u.covers r = true := by
  obtain ⟨first, hfirst, hstart⟩ := (h.start hne).1
  obtain ⟨last, hlast, hstop⟩ := (h.stop hne).1
  have hopening := covers_iff.mp (hin first hfirst)
  have hclosing := covers_iff.mp (hin last hlast)
  rw [covers_iff, ← hstart, ← hstop]
  exact ⟨hopening.1, hclosing.2⟩

theorem IsHull.covers_of_subset (h : IsHull texts offset r) (h' : IsHull texts' offset' u)
    (hsub : texts' ⊆ texts) (hne : texts'.Nonempty) : r.covers u = true :=
  h'.covered hne fun _ ht => h.covers (hsub ht)

theorem IsHull.within (h : IsHull texts offset r) (ho : u.start ≤ offset ∧ offset ≤ u.stop)
    (hin : ∀ text ∈ texts, u.covers text = true) : u.covers r = true := by
  rcases texts.eq_empty_or_nonempty with hempty | hne
  · rw [h.empty hempty, covers_iff]
    exact ho
  · exact h.covered hne hin

def hull (offset : Nat) (xs : List TextRange) : TextRange :=
  match xs.head?, xs.getLast? with
  | some first, some last => first.span last
  | _, _ => emptyAt offset

theorem hull_singleton (offset : Nat) (r : TextRange) : hull offset [r] = r :=
  span_eq r.start_le_stop

section Apart

variable (h : xs.Pairwise fun r u => r.stop ≤ u.start)
include h

theorem start_le_of_head? (hu : xs.head? = some u) (hr : r ∈ xs) : u.start ≤ r.start := by
  obtain ⟨rest, rfl⟩ := List.head?_eq_some_iff.mp hu
  rcases List.mem_cons.mp hr with rfl | hr
  · exact Nat.le_refl _
  · exact u.start_le_stop.trans ((List.pairwise_cons.mp h).1 r hr)

theorem stop_le_of_getLast? (hu : xs.getLast? = some u) (hr : r ∈ xs) : r.stop ≤ u.stop := by
  obtain ⟨init, rfl⟩ := List.getLast?_eq_some_iff.mp hu
  rcases List.mem_append.mp hr with hr | hr
  · have hapart := (List.pairwise_append.mp h).2.2 r hr u (List.mem_singleton_self u)
    exact hapart.trans u.start_le_stop
  · rw [List.mem_singleton.mp hr]

theorem hull_eq (hr : xs.head? = some r) (hu : xs.getLast? = some u) (offset : Nat) :
    ∃ hle, hull offset xs = ⟨r.start, u.stop, hle⟩ := by
  have hle := r.start_le_stop.trans (stop_le_of_getLast? h hu (List.mem_of_head? hr))
  refine ⟨hle, ?_⟩
  rw [hull, hr, hu]
  exact span_eq hle

theorem isHull_hull (offset : Nat) : IsHull {r | r ∈ xs} offset (hull offset xs) := by
  cases hfirst : xs.head? with
  | none =>
      obtain rfl := List.head?_eq_none_iff.mp hfirst
      exact ⟨fun _ => rfl, fun ⟨_, hr⟩ => (nomatch hr), fun ⟨_, hr⟩ => (nomatch hr)⟩
  | some first =>
      have hmem := List.mem_of_head? hfirst
      have hlast := List.getLast?_eq_some_getLast (List.ne_nil_of_mem hmem)
      obtain ⟨hle, heq⟩ := hull_eq h hfirst hlast offset
      rw [heq]
      refine ⟨fun hempty => ?_, fun _ => ⟨⟨first, hmem, rfl⟩, ?_⟩,
        fun _ => ⟨⟨_, List.mem_of_getLast? hlast, rfl⟩, ?_⟩⟩
      · exact absurd hmem (Set.eq_empty_iff_forall_notMem.mp hempty first)
      · rintro _ ⟨r, hr, rfl⟩
        exact (start_le_of_head? h hfirst hr :)
      · rintro _ ⟨r, hr, rfl⟩
        exact (stop_le_of_getLast? h hlast hr :)

end Apart

end Hull

section Texts

def textsFrom (start : Nat) : List (Nat × Nat × Nat) → List TextRange
  | [] => []
  | (leading, text, trailing) :: lengths =>
      ⟨start + leading, start + leading + text, Nat.le_add_right _ _⟩ ::
        textsFrom (start + (leading + text + trailing)) lengths

def totalLength (lengths : List (Nat × Nat × Nat)) : Nat :=
  (lengths.map fun n => n.1 + n.2.1 + n.2.2).sum

theorem totalLength_cons (leading text trailing : Nat) (lengths : List (Nat × Nat × Nat)) :
    totalLength ((leading, text, trailing) :: lengths) =
      leading + text + trailing + totalLength lengths := by
  rw [totalLength, List.map_cons, List.sum_cons, totalLength]

theorem totalLength_append (lengths lengths' : List (Nat × Nat × Nat)) :
    totalLength (lengths ++ lengths') = totalLength lengths + totalLength lengths' := by
  rw [totalLength, List.map_append, List.sum_append, totalLength, totalLength]

theorem textsFrom_append (start : Nat) (lengths lengths' : List (Nat × Nat × Nat)) :
    textsFrom start (lengths ++ lengths') =
      textsFrom start lengths ++ textsFrom (start + totalLength lengths) lengths' := by
  induction lengths generalizing start with
  | nil => rfl
  | cons n lengths ih =>
      obtain ⟨leading, text, trailing⟩ := n
      rw [List.cons_append, textsFrom, ih, textsFrom, totalLength_cons,
        Nat.add_assoc start (leading + text + trailing), List.cons_append]

theorem bounds_of_mem_textsFrom (h : text ∈ textsFrom start lengths) :
    start ≤ text.start ∧ text.stop ≤ start + totalLength lengths := by
  induction lengths generalizing start with
  | nil => exact nomatch h
  | cons n lengths ih =>
      obtain ⟨leading, length, trailing⟩ := n
      rw [totalLength_cons]
      rcases List.mem_cons.mp h with rfl | h
      · exact ⟨Nat.le_add_right _ _, by dsimp only; omega⟩
      · have hlater := ih h
        omega

theorem pairwise_textsFrom (start : Nat) (lengths : List (Nat × Nat × Nat)) :
    (textsFrom start lengths).Pairwise fun r u => r.stop ≤ u.start := by
  induction lengths generalizing start with
  | nil => exact .nil
  | cons n lengths ih =>
      obtain ⟨leading, length, trailing⟩ := n
      refine .cons ?_ (ih _)
      intro u hu
      have hfrom := (bounds_of_mem_textsFrom hu).1
      dsimp only
      omega

def trimmedFrom (start : Nat) (lengths : List (Nat × Nat × Nat)) : TextRange :=
  hull start (textsFrom start lengths)

theorem isHull_trimmedFrom (start : Nat) (lengths : List (Nat × Nat × Nat)) :
    IsHull {r | r ∈ textsFrom start lengths} start (trimmedFrom start lengths) :=
  isHull_hull (pairwise_textsFrom start lengths) start

section Shift

def shift (k : Nat) (r : TextRange) : TextRange :=
  ⟨k + r.start, k + r.stop, Nat.add_le_add_left r.start_le_stop k⟩

theorem span_shift (k : Nat) (r u : TextRange) :
    (r.shift k).span (u.shift k) = (r.span u).shift k := by
  simp only [span, shift, Nat.add_max_add_left]

theorem hull_shift (k offset : Nat) (xs : List TextRange) :
    hull (k + offset) (xs.map (shift k)) = (hull offset xs).shift k := by
  rw [hull, hull, List.head?_map, List.getLast?_map]
  cases xs.head? with
  | none => rfl
  | some first =>
      cases xs.getLast? with
      | none => rfl
      | some last => exact span_shift k first last

theorem textsFrom_shift (k start : Nat) (lengths : List (Nat × Nat × Nat)) :
    textsFrom (k + start) lengths = (textsFrom start lengths).map (shift k) := by
  induction lengths generalizing start with
  | nil => rfl
  | cons n lengths ih =>
      obtain ⟨leading, text, trailing⟩ := n
      simp only [textsFrom, List.map_cons, shift, Nat.add_assoc, ih]

theorem trimmedFrom_eq_shift (start : Nat) (lengths : List (Nat × Nat × Nat)) :
    trimmedFrom start lengths = (trimmedFrom 0 lengths).shift start := by
  rw [trimmedFrom, trimmedFrom, ← hull_shift, ← textsFrom_shift, Nat.add_zero]

end Shift

end Texts

end TextRange

namespace Green

variable {root m c g : Green} {q is : List Nat} {cs : List Green} {i : Nat} {text : TextRange}

def lengthsOf (shapes : List TokenShape) : List (Nat × Nat × Nat) :=
  (shapes.filter fun shape => !shape.missing).map TokenShape.lengths

theorem lengthsOf_append (as bs : List TokenShape) :
    lengthsOf (as ++ bs) = lengthsOf as ++ lengthsOf bs := by
  rw [lengthsOf, List.filter_append, List.map_append, lengthsOf, lengthsOf]

def presentLengths (m : Green) : List (Nat × Nat × Nat) := lengthsOf m.shapes

theorem totalLength_lengthsOf (h : ∀ c ∈ cs, TextRange.totalLength c.presentLengths = c.width) :
    TextRange.totalLength (lengthsOf (shapesAmong cs)) = widths cs := by
  induction cs with
  | nil => rfl
  | cons c cs ih =>
      have hc := h c List.mem_cons_self
      have hcs := ih fun b hb => h b (List.mem_cons_of_mem c hb)
      rw [presentLengths] at hc
      rw [shapesAmong, lengthsOf_append, TextRange.totalLength_append, hc, hcs, widths_cons]

theorem WellFormed.totalLength_presentLengths (h : m.WellFormed) :
    TextRange.totalLength m.presentLengths = m.width := by
  induction m with
  | token stamp shape ds =>
      obtain ⟨kind, leading, text, trailing, missing⟩ := shape
      cases missing with
      | false => exact Nat.add_zero _
      | true =>
          obtain ⟨rfl, rfl, rfl⟩ := h.missing_lengths rfl
          rfl
  | node stamp kind summary cs ds ih =>
      rw [← h.widths_children rfl]
      exact totalLength_lengthsOf fun c hc => ih c hc (h.of_mem_children hc)

def presentTexts (root : Green) (xs : List Entry) : List TextRange :=
  (accepted Session.isPresent xs).map root.textAt

theorem presentTexts_append (root : Green) (xs ys : List Entry) :
    presentTexts root (xs ++ ys) = presentTexts root xs ++ presentTexts root ys := by
  rw [presentTexts, accepted, List.filter_append, List.map_append]
  rfl

theorem presentTexts_among (hroot : root.WellFormed) (hm : root.descend? q = some m)
    (hchildren : m.ChildrenFrom i cs)
    (ih : ∀ c ∈ cs, ∀ q, root.descend? q = some c → presentTexts root (c.listing q) =
      TextRange.textsFrom (root.offsetAt q) c.presentLengths) :
    presentTexts root (listingAmong q i cs) =
      TextRange.textsFrom (root.offsetAt q + widths (m.children.take i))
        (lengthsOf (shapesAmong cs)) := by
  induction cs generalizing i with
  | nil => rfl
  | cons c cs ihcs =>
      have hc := hchildren.head
      have hpath := (descend?_concat hm i).trans hc
      have hfirst := ih c List.mem_cons_self (q ++ [i]) hpath
      have hlater := ihcs hchildren.tail fun b hb => ih b (List.mem_cons_of_mem c hb)
      have htotal := (hroot.of_descend? hpath).totalLength_presentLengths
      rw [offsetAt_concat hm hc] at hfirst
      rw [widths_take_succ hc, ← Nat.add_assoc, ← htotal] at hlater
      rw [listingAmong, presentTexts_append, hfirst, hlater, shapesAmong, lengthsOf_append,
        TextRange.textsFrom_append]
      rfl

theorem presentTexts_listing (hroot : root.WellFormed) (hm : root.descend? q = some m) :
    presentTexts root (m.listing q) =
      TextRange.textsFrom (root.offsetAt q) m.presentLengths := by
  induction m generalizing q with
  | token stamp shape ds =>
      obtain ⟨kind, leading, text, trailing, missing⟩ := shape
      cases missing <;> rfl
  | node stamp kind summary cs ds ih =>
      have hamong := presentTexts_among hroot hm (childrenFrom_zero _) fun c hc q hq => ih c hc hq
      rw [List.take_zero] at hamong
      exact hamong

theorem trimmedAt_eq (hroot : root.WellFormed) (hm : root.descend? q = some m) :
    root.trimmedAt (q, m) = TextRange.trimmedFrom (root.offsetAt q) m.presentLengths := by
  rw [TextRange.trimmedFrom, ← presentTexts_listing hroot hm]
  cases m with
  | token stamp shape ds =>
      obtain ⟨kind, leading, text, trailing, missing⟩ := shape
      cases missing with
      | false => exact (TextRange.hull_singleton _ _).symm
      | true =>
          obtain ⟨rfl, rfl, rfl⟩ := (hroot.of_descend? hm).missing_lengths rfl
          rfl
  | node stamp kind summary cs ds =>
      rw [trimmedAt, TextRange.hull, presentTexts, List.head?_map, List.getLast?_map]
      cases (accepted Session.isPresent (listing q _)).head? <;>
        cases (accepted Session.isPresent (listing q _)).getLast? <;> rfl

def textsBelow (root : Green) (x : Entry) : Set TextRange :=
  {text | ∃ is g, x.2.descend? is = some g ∧ g.isToken = true ∧ g.isMissing = false ∧
    text = root.trimmedAt (x.1 ++ is, g)}

theorem textsBelow_subset (hg : m.descend? is = some g) :
    root.textsBelow (q ++ is, g) ⊆ root.textsBelow (q, m) := by
  rintro _ ⟨js, n, hn, htoken, hpresent, rfl⟩
  refine ⟨is ++ js, n, ?_, htoken, hpresent, ?_⟩
  · rw [descend?_append, hg, Option.bind_some, hn]
  · rw [List.append_assoc]

theorem trimmedAt_token (ht : g.isToken = true) : root.trimmedAt (q, g) = root.textAt (q, g) := by
  cases g with
  | token stamp shape ds => rfl
  | node stamp kind summary cs ds => exact nomatch ht

theorem setOf_presentTexts (root m : Green) (q : List Nat) :
    {text | text ∈ presentTexts root (m.listing q)} = root.textsBelow (q, m) := by
  ext text
  constructor
  · intro h
    obtain ⟨⟨p, g⟩, hx, rfl⟩ := List.mem_map.mp h
    obtain ⟨hlisted, haccept⟩ := List.mem_filter.mp hx
    obtain ⟨htoken, hpresent⟩ := Bool.and_eq_true_iff.mp haccept
    obtain ⟨is, rfl, hg⟩ := mem_listing_iff.mp hlisted
    exact ⟨is, g, hg, htoken, (Bool.not_eq_true' _).mp hpresent, (trimmedAt_token htoken).symm⟩
  · rintro ⟨is, g, hg, htoken, hpresent, rfl⟩
    refine List.mem_map.mpr ⟨(q ++ is, g), List.mem_filter.mpr ⟨?_, ?_⟩, ?_⟩
    · exact mem_listing_iff.mpr ⟨is, rfl, hg⟩
    · exact Bool.and_eq_true_iff.mpr ⟨htoken, (Bool.not_eq_true' _).mpr hpresent⟩
    · exact (trimmedAt_token htoken).symm

section Below

variable (hroot : root.WellFormed) (hm : root.descend? q = some m)
include hroot hm

theorem isHull_trimmedAt :
    TextRange.IsHull (root.textsBelow (q, m)) (root.offsetAt q) (root.trimmedAt (q, m)) := by
  rw [trimmedAt_eq hroot hm, ← setOf_presentTexts, presentTexts_listing hroot hm]
  exact TextRange.isHull_trimmedFrom _ _

theorem covers_of_mem_textsBelow (h : text ∈ root.textsBelow (q, m)) :
    (root.rangeAt q).covers text = true := by
  rw [← setOf_presentTexts, presentTexts_listing hroot hm] at h
  have hbounds := TextRange.bounds_of_mem_textsFrom h
  rw [(hroot.of_descend? hm).totalLength_presentLengths] at hbounds
  rw [TextRange.covers_iff, stop_rangeAt hm]
  exact hbounds

theorem covers_trimmedAt : (root.rangeAt q).covers (root.trimmedAt (q, m)) = true :=
  (isHull_trimmedAt hroot hm).within ⟨Nat.le_refl _, Nat.le_add_right _ _⟩
    fun _ => covers_of_mem_textsBelow hroot hm

theorem trimmedAt_covers_below (hg : m.descend? is = some g)
    (hne : (root.textsBelow (q ++ is, g)).Nonempty) :
    (root.trimmedAt (q, m)).covers (root.trimmedAt (q ++ is, g)) = true := by
  have hpath : root.descend? (q ++ is) = some g := by
    rw [descend?_append, hm, Option.bind_some, hg]
  exact (isHull_trimmedAt hroot hm).covers_of_subset (isHull_trimmedAt hroot hpath)
    (textsBelow_subset hg) hne

end Below

end Green

namespace Session

variable {s : Session} {q : List Nat} {id : Nat} {m : Green}

theorem Reached.trimmed_hull (hs : s.Reached) (h : s.At q id) (hm : s.root.descend? q = some m) :
    Nav.Yields s (trimmedRange id) (fun _ range => range = s.root.trimmedAt (q, m)) ∧
      TextRange.IsHull (s.root.textsBelow (q, m)) (s.root.offsetAt q)
        (s.root.trimmedAt (q, m)) ∧
      (∀ text ∈ s.root.textsBelow (q, m), (s.root.trimmedAt (q, m)).covers text = true) ∧
      (s.root.rangeAt q).covers (s.root.trimmedAt (q, m)) = true ∧
      (∀ is g, m.descend? is = some g → (s.root.textsBelow (q ++ is, g)).Nonempty →
        (s.root.trimmedAt (q, m)).covers (s.root.trimmedAt (q ++ is, g)) = true) ∧
      (∀ (u : Session) is g bid, u.Reached → u.root = s.root → m.descend? is = some g →
        u.At (q ++ is) bid → Nav.Yields u (trimmedRange bid) fun _ range =>
          range = s.root.trimmedAt (q ++ is, g)) ∧
      ∀ (u : Session) r n nid, u.Reached → u.At r nid → u.root.descend? r = some n →
        u.root.offsetAt r = s.root.offsetAt q → n.presentLengths = m.presentLengths →
        Nav.Yields u (trimmedRange nid) fun _ range => range = s.root.trimmedAt (q, m) := by
  have hroot := hs.root_wellFormed
  have hhull := Green.isHull_trimmedAt hroot hm
  refine ⟨yields_trimmedRange hs.grounded h hm, hhull, fun _ => hhull.covers,
    Green.covers_trimmedAt hroot hm, fun _ _ => Green.trimmedAt_covers_below hroot hm, ?_, ?_⟩
  · intro u is g bid hu heq hg hbid
    have hpath : u.root.descend? (q ++ is) = some g := by
      rw [heq, Green.descend?_append, hm, Option.bind_some, hg]
    exact heq ▸ yields_trimmedRange hu.grounded hbid hpath
  · intro u r n nid hu hnid hn hoffset hlengths
    rw [Green.trimmedAt_eq hroot hm, ← hoffset, ← hlengths,
      ← Green.trimmedAt_eq hu.root_wellFormed hn]
    exact yields_trimmedRange hu.grounded hnid hn

end Session

namespace Sample

theorem lacking_trimmed : lackingSession.Reached ∧ lackingSession.At [] Session.rootId ∧
    lackingSession.root.descend? [] = some lacking ∧
    lacking.presentLengths = [(0, 1, 0), (0, 2, 0)] ∧
    (Nav.Yields lackingSession (Session.trimmedRange Session.rootId) fun _ range =>
      range = ⟨0, 3, by decide⟩) := by
  have hroot : lackingSession.root.descend? [] = some lacking := Green.descend?_nil _
  have htrimmed := (lackingSession_reached.trimmed_hull .root hroot).1
  exact ⟨lackingSession_reached, .root, hroot, by decide, htrimmed⟩

end Sample

end LosslessSyntax
