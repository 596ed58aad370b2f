import LosslessSyntax.Proofs.Green.Neighbours
import LosslessSyntax.Proofs.Text.Lossless

namespace LosslessSyntax

namespace TextRange

variable {offset start stop : Nat} {rs : List TextRange}

def hits (r : TextRange) (offset : Nat) : Bool := !r.isEmpty && r.touches offset

theorem hits_iff {r : TextRange} :
    r.hits offset = true ↔ r.start < r.stop ∧ r.start ≤ offset ∧ offset ≤ r.stop := by
  have horder := r.start_le_stop
  simp only [hits, isEmpty, touches, Bool.and_eq_true, Bool.not_eq_true', beq_eq_false_iff_ne,
    decide_eq_true_eq]
  omega

inductive Struck (offset start stop : Nat) : List TextRange → Prop
  | none : (start = stop ∨ offset < start ∨ stop < offset) → Struck offset start stop []
  | one (r : TextRange) : start < stop → start ≤ offset → offset ≤ stop →
      (offset = start → r.start = offset) → Struck offset start stop [r]
  | two (r u : TextRange) : start < offset → offset < stop → r.stop = offset → u.start = offset →
      Struck offset start stop [r, u]

theorem Struck.cons_of_hit {r : TextRange} (h : Struck offset r.stop stop rs)
    (hle : r.stop ≤ stop) (hhit : r.hits offset = true) :
    Struck offset r.start stop (r :: rs) := by
  obtain ⟨hlt, hfrom, hto⟩ := hits_iff.mp hhit
  cases h with
  | none => exact .one r (by omega) hfrom (by omega) fun heq => heq.symm
  | one u _ hmid _ hnext =>
      have hend : offset = r.stop := by omega
      exact .two r u (by omega) (by omega) hend.symm (hnext hend)
  | two => omega

theorem Struck.cons_of_missed {r : TextRange} (h : Struck offset r.stop stop rs)
    (hle : r.stop ≤ stop) (hlt : r.start < r.stop) (hmiss : offset < r.start ∨ r.stop < offset) :
    Struck offset r.start stop rs := by
  cases h with
  | none => exact .none (by omega)
  | one u _ hmid hto _ => exact .one u (by omega) (by omega) hto fun heq => by omega
  | two u v hfrom hto hend hstart => exact .two u v (by omega) hto hend hstart

theorem Tiled.struck (h : Tiled stop start rs) (offset : Nat) :
    Struck offset start stop (rs.filter fun r => r.hits offset) := by
  induction h with
  | nil => exact .none (.inl rfl)
  | @cons r rs hrs ih =>
      have hle := hrs.start_le_stop
      rw [List.filter_cons]
      by_cases hhit : r.hits offset = true
      · rw [if_pos hhit]
        exact ih.cons_of_hit hle hhit
      · rw [if_neg hhit]
        rcases Nat.eq_or_lt_of_le r.start_le_stop with hempty | hlt
        · rwa [hempty]
        · refine ih.cons_of_missed hle hlt ?_
          rw [hits_iff] at hhit
          omega

namespace Struck

theorem length_le (h : Struck offset start stop rs) : rs.length ≤ 2 := by
  cases h <;> simp

theorem meet {r u : TextRange} (h : Struck offset start stop [r, u]) :
    r.stop = offset ∧ u.start = offset := by
  cases h with
  | two _ _ _ _ hend hstart => exact ⟨hend, hstart⟩

theorem eq_nil_iff (hle : start ≤ stop) (h : Struck offset start stop rs) :
    rs = [] ↔ (⟨start, stop, hle⟩ : TextRange).hits offset = false := by
  rw [Bool.eq_false_iff, ne_eq, hits_iff]
  cases h with
  | none => simp only [true_iff]; omega
  | one => simp only [List.cons_ne_nil, false_iff]; omega
  | two => simp only [List.cons_ne_nil, false_iff]; omega

theorem offset_mem_of_ne_nil (h : Struck offset start stop rs) (hne : rs ≠ []) :
    start ≤ offset ∧ offset ≤ stop := by
  cases h with
  | none => exact absurd rfl hne
  | one _ _ hfrom hto _ => exact ⟨hfrom, hto⟩
  | two _ _ hfrom hto _ _ => exact ⟨Nat.le_of_lt hfrom, Nat.le_of_lt hto⟩

theorem length_le_one (h : Struck offset start stop rs)
    (hend : offset ≤ start ∨ stop ≤ offset) : rs.length ≤ 1 := by
  cases h with
  | none => exact Nat.zero_le 1
  | one => exact Nat.le_refl 1
  | two => omega

theorem length_eq_one {mid : Nat} {rs' : List TextRange} (h : Struck offset start mid rs)
    (h' : Struck offset mid stop rs') (hne : rs ≠ []) (hne' : rs' ≠ []) :
    rs.length = 1 ∧ rs'.length = 1 := by
  have hto := (h.offset_mem_of_ne_nil hne).2
  have hfrom := (h'.offset_mem_of_ne_nil hne').1
  have hle := h.length_le_one (.inr hfrom)
  have hle' := h'.length_le_one (.inl hto)
  have hpos := List.length_pos_iff.mpr hne
  have hpos' := List.length_pos_iff.mpr hne'
  omega

end Struck

end TextRange

namespace Green

variable {root m : Green} {q : List Nat} {xs ys : List Entry} {offset i : Nat}

def touching (root : Green) (offset : Nat) (xs : List Entry) : List Entry :=
  (tokenEntries xs).filter fun x => (root.rangeAt x.1).hits offset

theorem touching_append (root : Green) (offset : Nat) (xs ys : List Entry) :
    touching root offset (xs ++ ys) = touching root offset xs ++ touching root offset ys := by
  rw [touching, tokenEntries_append, List.filter_append]
  rfl

theorem map_touching (root : Green) (offset : Nat) (xs : List Entry) :
    (touching root offset xs).map (fun x => root.rangeAt x.1) =
      (tokenRanges root xs).filter fun r => r.hits offset := by
  rw [tokenRanges, List.filter_map]
  rfl

theorem struck_listing (hroot : root.WellFormed) (hm : root.descend? q = some m) (offset : Nat) :
    TextRange.Struck offset (root.rangeAt q).start (root.rangeAt q).stop
      ((touching root offset (m.listing q)).map fun x => root.rangeAt x.1) := by
  rw [map_touching, stop_rangeAt hm]
  exact (tiled_listing hroot hm).struck offset

theorem struck_listingAmong {cs : List Green} (hroot : root.WellFormed)
    (hm : root.descend? q = some m) (hchildren : m.ChildrenFrom i cs) (offset : Nat) :
    TextRange.Struck offset (root.offsetAt q + widths (m.children.take i))
      (root.offsetAt q + widths (m.children.take i) + widths cs)
      ((touching root offset (listingAmong q i cs)).map fun x => root.rangeAt x.1) := by
  rw [map_touching]
  exact (tiled_listingAmong hm hchildren fun c _ q hq => tiled_listing hroot hq).struck offset

theorem touching_eq_nil_iff (hroot : root.WellFormed) (hm : root.descend? q = some m)
    (offset : Nat) :
    touching root offset (m.listing q) = [] ↔ (root.rangeAt q).hits offset = false := by
  rw [← (struck_listing hroot hm offset).eq_nil_iff (root.rangeAt q).start_le_stop,
    List.map_eq_nil_iff]

theorem touching_ne_nil (hroot : root.WellFormed) (hm : root.descend? q = some m)
    (hhit : (root.rangeAt q).hits offset = true) :
    touching root offset (m.listing q) ≠ [] := by
  rw [ne_eq, touching_eq_nil_iff hroot hm, hhit]
  exact Bool.noConfusion

theorem touching_listing_token (root : Green) (offset : Nat) (q : List Nat) (stamp : Nat)
    (shape : TokenShape) (ds : List Diagnostic) :
    touching root offset ((token stamp shape ds).listing q) =
      if (root.rangeAt q).hits offset then [(q, token stamp shape ds)] else [] := by
  rw [← Bool.cond_eq_ite]
  exact List.filter_singleton

theorem touching_listing_node (root : Green) (offset : Nat) (q : List Nat)
    (hn : m.isNode = true) : touching root offset (m.listing q) =
      touching root offset (listingAmong q 0 m.children) := by
  rw [listing_eq, touching, tokenEntries_cons_node hn]
  rfl

theorem stop_rangeAt_child {c : Green} (hm : root.descend? q = some m) (hc : m.child? i = some c) :
    (root.rangeAt (q ++ [i])).stop = root.offsetAt q + widths (m.children.take (i + 1)) := by
  rw [stop_rangeAt ((descend?_concat hm i).trans hc), offsetAt_concat hm hc, Nat.add_assoc,
    ← widths_take_succ hc]

section Children

variable {c : Green} {cs : List Green} (hroot : root.WellFormed) (hm : root.descend? q = some m)
  (hchildren : m.ChildrenFrom i (c :: cs))
include hroot hm hchildren

theorem struck_later (offset : Nat) :
    TextRange.Struck offset (root.rangeAt (q ++ [i])).stop
      ((root.rangeAt (q ++ [i])).stop + widths cs)
      ((touching root offset (listingAmong q (i + 1) cs)).map fun x => root.rangeAt x.1) := by
  rw [stop_rangeAt_child hm hchildren.head]
  exact struck_listingAmong hroot hm hchildren.tail offset

theorem touching_later_eq_nil (hlt : offset < (root.rangeAt (q ++ [i])).stop) :
    touching root offset (listingAmong q (i + 1) cs) = [] := by
  by_contra hne
  have hfrom := ((struck_later hroot hm hchildren offset).offset_mem_of_ne_nil
    (mt List.map_eq_nil_iff.mp hne)).1
  exact absurd hlt (Nat.not_lt.mpr hfrom)

theorem touching_length_eq_one (hfirst : touching root offset (c.listing (q ++ [i])) ≠ [])
    (hlater : touching root offset (listingAmong q (i + 1) cs) ≠ []) :
    (touching root offset (c.listing (q ++ [i]))).length = 1 ∧
      (touching root offset (listingAmong q (i + 1) cs)).length = 1 := by
  have hpath := (descend?_concat hm i).trans hchildren.head
  have hone := (struck_listing hroot hpath offset).length_eq_one
    (struck_later hroot hm hchildren offset) (mt List.map_eq_nil_iff.mp hfirst)
    (mt List.map_eq_nil_iff.mp hlater)
  rwa [List.length_map, List.length_map] at hone

end Children

end Green

end LosslessSyntax
