import LosslessSyntax.Proofs.Session.Subtree
import Mathlib.Data.List.Forall2

namespace LosslessSyntax

/-- No node has one element that takes up no text twice among its children. -/
def Green.TellsApart (g : Green) : Prop :=
  ∀ q m, g.descend? q = some m → ∀ i j c d, m.child? i = some c → m.child? j = some d →
    c.same d = true → c.width = 0 → i = j

namespace Session

inductive Chain (s : Session) : Option Nat → List Placement → Prop
  | ended : Chain s none []
  | placed {id : Nat} {p : Placement} {ps : List Placement} :
      s.placements[id]? = some p → Chain s p.parent ps → Chain s (some id) (p :: ps)

def SamePlace (s : Session) (i : Nat) (t : Session) (j : Nat) : Prop := s.stamp = t.stamp ∧ i = j

def Matching (p r : Placement) : Prop := p.green.same r.green = true ∧ p.offset = r.offset

inductive Compared (s t : Session) : Option Nat → Option Nat → Bool → Prop
  | exhausted : Compared s t none none true
  | shorter (j : Nat) : Compared s t none (some j) false
  | longer (i : Nat) : Compared s t (some i) none false
  | one {i j : Nat} : SamePlace s i t j → Compared s t (some i) (some j) true
  | different {i j : Nat} {p r : Placement} :
      ¬ SamePlace s i t j → s.placements[i]? = some p → t.placements[j]? = some r →
      ¬ Matching p r → Compared s t (some i) (some j) false
  | climb {i j : Nat} {p r : Placement} {outcome : Bool} :
      ¬ SamePlace s i t j → s.placements[i]? = some p → t.placements[j]? = some r →
      Matching p r → Compared s t p.parent r.parent outcome →
      Compared s t (some i) (some j) outcome

theorem Matching.refl (p : Placement) : Matching p p := ⟨Green.same_refl _, rfl⟩

theorem Matching.symm {p r : Placement} (h : Matching p r) : Matching r p :=
  ⟨(Green.same_comm _ _).trans h.1, h.2.symm⟩

theorem Matching.trans {p r u : Placement} (h : Matching p r) (h' : Matching r u) : Matching p u :=
  ⟨Green.same_trans h.1 h'.1, h.2.trans h'.2⟩

theorem forall₂_matching_trans {ps rs us : List Placement} (h : List.Forall₂ Matching ps rs)
    (h' : List.Forall₂ Matching rs us) : List.Forall₂ Matching ps us := by
  induction h generalizing us with
  | nil => exact h'
  | cons hp _ ih =>
      cases h' with
      | cons hr hrest => exact .cons (hp.trans hr) (ih hrest)

variable {s t : Session} {i j : Nat} {x y : Option Nat} {p r : Placement} {ps rs : List Placement}
  {q q' : List Nat} {b : Bool}

section Chain

theorem exists_chain (hs : s.Coherent) (hp : s.placements[i]? = some p) :
    ∃ ps, s.Chain (some i) (p :: ps) := by
  induction i using Nat.strong_induction_on generalizing p with
  | _ i ih =>
      cases ha : p.parent with
      | none => exact ⟨[], .placed hp (ha ▸ .ended)⟩
      | some a =>
          obtain ⟨hlt, above, -, habove, -⟩ := hs.below hp ha
          obtain ⟨ps, hps⟩ := ih a hlt habove
          exact ⟨above :: ps, .placed hp (ha ▸ hps)⟩

theorem Chain.unique (h : s.Chain x ps) (h' : s.Chain x rs) : ps = rs := by
  induction h generalizing rs with
  | ended =>
      cases h'
      rfl
  | placed hp _ ih =>
      cases h' with
      | placed hp' hrest =>
          obtain rfl := Option.some.inj (hp.symm.trans hp')
          rw [ih hrest]

theorem Chain.length_eq (hs : s.Coherent) (h : s.Chain (some i) ps) :
    ps.length = (s.path i).depth + 1 := by
  generalize hx : some i = x at h
  induction h generalizing i with
  | ended => exact nomatch hx
  | @placed id p ps hp hrest ih =>
      obtain rfl := Option.some.inj hx
      cases ha : p.parent with
      | none =>
          rw [ha] at hrest
          cases hrest
          rw [path_of_no_parent hp ha]
          rfl
      | some a =>
          rw [path_of_parent hs hp ha, List.length_cons, ih ha.symm, Path.depth, Path.depth,
            Path.child, List.length_append, List.length_singleton]

end Chain

section Compared

theorem samePlace_iff : (s.stamp == t.stamp && i == j) = true ↔ SamePlace s i t j := by
  rw [Bool.and_eq_true, beq_iff_eq, beq_iff_eq, SamePlace]

theorem matching_iff : (p.offset != r.offset || !p.green.same r.green) = false ↔ Matching p r := by
  simp [Matching, and_comm]

theorem compared_equivalent (hs : s.Coherent) (ht : t.Coherent) (hp : s.placements[i]? = some p)
    (hr : t.placements[j]? = some r) : Compared s t (some i) (some j) (s.equivalent i t j) := by
  induction i using Nat.strong_induction_on generalizing j p r with
  | _ i ih =>
      rw [equivalent]
      by_cases hone : SamePlace s i t j
      · rw [if_pos (samePlace_iff.mpr hone)]
        exact .one hone
      · rw [if_neg fun h => hone (samePlace_iff.mp h)]
        simp only [hp, hr]
        by_cases hmatch : Matching p r
        · rw [matching_iff.mpr hmatch, if_neg Bool.false_ne_true]
          refine .climb hone hp hr hmatch ?_
          cases ha : p.parent with
          | none =>
              cases hb : r.parent with
              | none => exact .exhausted
              | some b => exact .shorter b
          | some a =>
              cases hb : r.parent with
              | none => exact .longer a
              | some b =>
                  obtain ⟨hlt, above, -, habove, -⟩ := hs.below hp ha
                  obtain ⟨-, beside, -, hbeside, -⟩ := ht.below hr hb
                  dsimp only
                  rw [if_pos hlt]
                  exact ih a hlt habove hbeside
        · rw [Bool.eq_true_of_not_eq_false fun h => hmatch (matching_iff.mp h), if_pos rfl]
          exact .different hone hp hr hmatch

theorem Compared.iff_forall₂ (hst : s.stamp = t.stamp → s = t) (h : Compared s t x y b)
    (hps : s.Chain x ps) (hrs : t.Chain y rs) : b = true ↔ List.Forall₂ Matching ps rs := by
  induction h generalizing ps rs with
  | exhausted =>
      cases hps
      cases hrs
      exact iff_of_true rfl .nil
  | shorter j =>
      cases hps
      cases hrs
      exact iff_of_false Bool.false_ne_true nofun
  | longer i =>
      cases hps
      cases hrs
      exact iff_of_false Bool.false_ne_true nofun
  | one hone =>
      obtain ⟨hstamp, rfl⟩ := hone
      obtain rfl := hst hstamp
      obtain rfl := hps.unique hrs
      exact iff_of_true rfl (List.forall₂_same.mpr fun p _ => .refl p)
  | different _ hp hr hdiff =>
      cases hps with
      | placed hp' _ =>
          obtain rfl := Option.some.inj (hp.symm.trans hp')
          cases hrs with
          | placed hr' _ =>
              obtain rfl := Option.some.inj (hr.symm.trans hr')
              refine iff_of_false Bool.false_ne_true fun hall => ?_
              exact hdiff (List.forall₂_cons.mp hall).1
  | climb _ hp hr hmatch _ ih =>
      cases hps with
      | placed hp' hps =>
          obtain rfl := Option.some.inj (hp.symm.trans hp')
          cases hrs with
          | placed hr' hrs =>
              obtain rfl := Option.some.inj (hr.symm.trans hr')
              rw [List.forall₂_cons, ih hps hrs]
              exact (and_iff_right hmatch).symm

end Compared

section Equivalent

theorem equivalent_iff_forall₂ (hs : s.Coherent) (ht : t.Coherent) (hst : s.stamp = t.stamp → s = t)
    (hps : s.Chain (some i) (p :: ps)) (hrs : t.Chain (some j) (r :: rs)) :
    s.equivalent i t j = true ↔ List.Forall₂ Matching (p :: ps) (r :: rs) := by
  cases hps with
  | placed hp hps =>
      cases hrs with
      | placed hr hrs =>
          exact (compared_equivalent hs ht hp hr).iff_forall₂ hst (.placed hp hps) (.placed hr hrs)

theorem matching_of_forall₂ (h : List.Forall₂ Matching (p :: ps) (r :: rs)) : Matching p r :=
  (List.forall₂_cons.mp h).1

theorem forall₂_of_at (hs : s.Coherent) (ht : t.Coherent) (hroot : s.root.WellFormed)
    (heq : s.root = t.root) (hi : s.At q i) (hj : t.At q j) (hps : s.Chain (some i) ps)
    (hrs : t.Chain (some j) rs) : List.Forall₂ Matching ps rs := by
  induction hi generalizing j ps rs with
  | root =>
      obtain rfl := hj.eq_rootId ht
      obtain ⟨p, hp, hg, ho, ha⟩ := hs.root
      obtain ⟨r, hr, hg', ho', hb⟩ := ht.root
      cases hps with
      | placed hp' hps =>
          obtain rfl := Option.some.inj (hp.symm.trans hp')
          cases hrs with
          | placed hr' hrs =>
              obtain rfl := Option.some.inj (hr.symm.trans hr')
              rw [ha] at hps
              rw [hb] at hrs
              cases hps
              cases hrs
              refine .cons ⟨?_, ho.trans ho'.symm⟩ .nil
              rw [hg, hg', heq]
              exact Green.same_refl _
  | @child q a i p hq hp ha ih =>
      obtain ⟨b, r, hb, hr, hparent, hindex⟩ := hj.of_concat ht
      obtain ⟨p', hp', hm, ho⟩ := (At.child hq hp ha).holds hs hroot
      obtain ⟨r', hr', hm', ho'⟩ := hj.holds ht (heq ▸ hroot)
      obtain rfl := Option.some.inj (hp.symm.trans hp')
      obtain rfl := Option.some.inj (hr.symm.trans hr')
      cases hps with
      | placed hp'' hps =>
          obtain rfl := Option.some.inj (hp.symm.trans hp'')
          cases hrs with
          | placed hr'' hrs =>
              obtain rfl := Option.some.inj (hr.symm.trans hr'')
              rw [ha] at hps
              rw [hparent] at hrs
              refine .cons ⟨?_, ?_⟩ (ih hb hps hrs)
              · rw [Option.some.inj (hm.symm.trans (heq ▸ hm'))]
                exact Green.same_refl _
              · rw [ho, ho', heq]

theorem root_same_of_forall₂ (hs : s.Coherent) (ht : t.Coherent) (hi : s.At q i) (hj : t.At q' j)
    (hps : s.Chain (some i) ps) (hrs : t.Chain (some j) rs) (h : List.Forall₂ Matching ps rs) :
    s.root.same t.root = true := by
  induction hi generalizing q' j ps rs with
  | root =>
      obtain ⟨p, hp, hg, -, ha⟩ := hs.root
      cases hps with
      | placed hp' hps =>
          obtain rfl := Option.some.inj (hp.symm.trans hp')
          rw [ha] at hps
          cases hps
          cases hrs with
          | @placed _ r rs hr hrs =>
              obtain ⟨hmatch, hrest⟩ := List.forall₂_cons.mp h
              obtain rfl := List.forall₂_nil_left_iff.mp hrest
              generalize hb : r.parent = b at hrs
              cases hrs
              obtain ⟨-, rfl⟩ := hj.eq_nil_of_parent_none hr hb
              obtain ⟨r', hr', hg', -, -⟩ := ht.root
              obtain rfl := Option.some.inj (hr.symm.trans hr')
              exact hg ▸ hg' ▸ hmatch.1
  | child hq hp ha ih =>
      cases hps with
      | placed hp' hps =>
          obtain rfl := Option.some.inj (hp.symm.trans hp')
          rw [ha] at hps
          cases hrs with
          | @placed _ r rs hr hrs =>
              obtain ⟨-, hrest⟩ := List.forall₂_cons.mp h
              generalize hb : r.parent = b at hrs
              cases hrs with
              | ended =>
                  cases hps
                  exact nomatch hrest
              | placed hbeside hrs =>
                  obtain ⟨q', rfl, hq'⟩ := hj.of_parent ht hr hb
                  exact ih hq' hps (.placed hbeside hrs) hrest

end Equivalent

section Paths

theorem index_unique {m c d : Green} {i j : Nat} (hc : m.child? i = some c)
    (hd : m.child? j = some d) (hsame : c.same d = true)
    (hwidths : Green.widths (m.children.take i) = Green.widths (m.children.take j))
    (htell : ∀ i j c d, m.child? i = some c → m.child? j = some d → c.same d = true →
      c.width = 0 → i = j) : i = j := by
  have hempty {i j : Nat} {c : Green} (hc : m.child? i = some c) (hlt : i < j)
      (hwidths : Green.widths (m.children.take i) = Green.widths (m.children.take j)) :
      c.width = 0 := by
    have hle := Green.widths_take_le_of_le m.children (Nat.succ_le_of_lt hlt)
    rw [Nat.succ_eq_add_one, Green.widths_take_succ hc] at hle
    omega
  rcases Nat.lt_trichotomy i j with hlt | heq | hlt
  · exact htell i j c d hc hd hsame (hempty hc hlt hwidths)
  · exact heq
  · exact (htell j i d c hd hc (Green.same_comm d c ▸ hsame) (hempty hd hlt hwidths.symm)).symm

theorem path_eq_of_forall₂ (hs : s.Coherent) (ht : t.Coherent) (hroot : s.root.WellFormed)
    (heq : s.root = t.root) (htell : s.root.TellsApart) (hi : s.At q i) (hj : t.At q' j)
    (hps : s.Chain (some i) ps) (hrs : t.Chain (some j) rs) (h : List.Forall₂ Matching ps rs) :
    q = q' := by
  induction hi generalizing q' j ps rs with
  | root =>
      obtain ⟨p, hp, -, -, ha⟩ := hs.root
      cases hps with
      | placed hp' hps =>
          obtain rfl := Option.some.inj (hp.symm.trans hp')
          rw [ha] at hps
          cases hps
          cases hrs with
          | @placed _ r rs hr hrs =>
              obtain rfl := List.forall₂_nil_left_iff.mp (List.forall₂_cons.mp h).2
              generalize hb : r.parent = b at hrs
              cases hrs
              exact (hj.eq_nil_of_parent_none hr hb).1.symm
  | @child q a i p hq hp ha ih =>
      cases hps with
      | placed hp' hps =>
          obtain rfl := Option.some.inj (hp.symm.trans hp')
          rw [ha] at hps
          cases hps with
          | placed habove hps =>
              cases hrs with
              | @placed _ r rs hr hrs =>
                  obtain ⟨hmatch, hrest⟩ := List.forall₂_cons.mp h
                  generalize hb : r.parent = b at hrs
                  cases hrs with
                  | ended => exact nomatch hrest
                  | placed hbeside hrs =>
                      obtain ⟨q', rfl, hq'⟩ := hj.of_parent ht hr hb
                      obtain rfl := ih hq' (.placed habove hps) (.placed hbeside hrs) hrest
                      obtain ⟨u, -, hm, -⟩ := hq.holds hs hroot
                      obtain ⟨p', hp', hc, ho⟩ := (At.child hq hp ha).holds hs hroot
                      obtain ⟨r', hr', hd, ho'⟩ := hj.holds ht (heq ▸ hroot)
                      obtain rfl := Option.some.inj (hp.symm.trans hp')
                      obtain rfl := Option.some.inj (hr.symm.trans hr')
                      rw [← heq] at hd ho'
                      rw [Green.descend?_concat hm] at hc hd
                      rw [Green.offsetAt_concat hm hc] at ho
                      rw [Green.offsetAt_concat hm hd] at ho'
                      have hoffset := hmatch.2
                      rw [index_unique hc hd hmatch.1 (by omega) (htell q u.green hm)]

end Paths

end Session

end LosslessSyntax
