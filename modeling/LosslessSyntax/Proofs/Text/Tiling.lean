import LosslessSyntax.Checked
import Mathlib.Data.List.Forall2

namespace LosslessSyntax

namespace Slice

variable {a b c d source : List Char} {n : Nat}

theorem byteLength_append (a b : List Char) :
    byteLength (a ++ b) = byteLength a + byteLength b := by
  induction a with
  | nil => exact (Nat.zero_add _).symm
  | cons c a ih => rw [List.cons_append, byteLength, byteLength, ih, Nat.add_assoc]

theorem eq_nil_of_byteLength_eq_zero (h : byteLength a = 0) : a = [] := by
  cases a with
  | nil => rfl
  | cons c a =>
      have hpos := c.utf8Size_pos
      rw [byteLength] at h
      omega

theorem utf8ByteSize_ofList (cs : List Char) : (String.ofList cs).utf8ByteSize = byteLength cs := by
  induction cs with
  | nil => rfl
  | cons c cs ih =>
      have hcons : String.ofList (c :: cs) = String.singleton c ++ String.ofList cs := by
        rw [String.singleton_eq_ofList, ← String.ofList_append]
        rfl
      rw [hcons, String.utf8ByteSize_append, ih, String.utf8ByteSize_singleton, byteLength]

theorem exists_of_byteLength_le (h : a ++ b = c ++ d) (hle : byteLength a ≤ byteLength c) :
    ∃ e, c = a ++ e ∧ b = e ++ d := by
  rcases List.append_eq_append_iff.mp h with he | ⟨e, rfl, rfl⟩
  · exact he
  · rw [byteLength_append] at hle
    obtain rfl := eq_nil_of_byteLength_eq_zero (a := e) (by omega)
    exact ⟨[], by simp, rfl⟩

def CutsAt (source : List Char) (n : Nat) : Prop :=
  ∃ pre post, source = pre ++ post ∧ byteLength pre = n

theorem cutsAt_zero (source : List Char) : CutsAt source 0 := ⟨[], source, rfl, rfl⟩

end Slice

open Slice

theorem Checked.rangeOfLength_eq {start length : Nat} (h : start + length ≤ maxSize) :
    Checked.rangeOfLength start length = .ok ⟨start, start + length, Nat.le_add_right _ _⟩ := by
  rw [Checked.rangeOfLength, TextRange.ofLength?, if_pos h]

namespace TextRange

variable {r r' u : TextRange} {source x y : List Char} {start mid stop : Nat}
  {rs rs' : List TextRange}

theorem covers_iff : r.covers u = true ↔ r.start ≤ u.start ∧ u.stop ≤ r.stop := by
  simp only [covers, Bool.and_eq_true, decide_eq_true_eq]

def Holds (r : TextRange) (source x : List Char) : Prop :=
  ∃ pre post, source = pre ++ (x ++ post) ∧ byteLength pre = r.start ∧ byteLength x = r.length

theorem Holds.of_cuts (hstart : CutsAt source r.start) (hstop : CutsAt source r.stop) :
    ∃ x, r.Holds source x := by
  obtain ⟨pre, rest, rfl, hpre⟩ := hstart
  obtain ⟨pre', post, hsplit, hpre'⟩ := hstop
  have horder := r.start_le_stop
  obtain ⟨x, rfl, rfl⟩ := exists_of_byteLength_le hsplit (by omega)
  rw [byteLength_append] at hpre'
  exact ⟨x, pre, post, rfl, hpre, by rw [length]; omega⟩

theorem Holds.congr (h : r.Holds source x) (hstart : u.start = r.start) (hstop : u.stop = r.stop) :
    u.Holds source x := by
  obtain ⟨pre, post, hsplit, hpre, hx⟩ := h
  exact ⟨pre, post, hsplit, hpre.trans hstart.symm, by rw [hx, length, length, hstart, hstop]⟩

theorem Holds.cutsAt_stop (h : r.Holds source x) : CutsAt source r.stop := by
  obtain ⟨pre, post, rfl, hpre, hx⟩ := h
  have horder := r.start_le_stop
  refine ⟨pre ++ x, post, by simp, ?_⟩
  rw [byteLength_append, hx, length]
  omega

theorem Holds.join (h : r.Holds source x) (h' : r'.Holds source y) (hnext : r'.start = r.stop)
    (hstart : u.start = r.start) (hstop : u.stop = r'.stop) : u.Holds source (x ++ y) := by
  obtain ⟨pre, post, rfl, hpre, hx⟩ := h
  obtain ⟨pre', post', hsplit, hpre', hy⟩ := h'
  have horder := r.start_le_stop
  have horder' := r'.start_le_stop
  rw [length] at hx hy
  rw [← List.append_assoc] at hsplit
  have hlen : byteLength (pre ++ x) = byteLength pre' := by
    rw [byteLength_append]
    omega
  obtain ⟨e, rfl, rfl⟩ := exists_of_byteLength_le hsplit (Nat.le_of_eq hlen)
  rw [byteLength_append (pre ++ x)] at hlen
  obtain rfl := eq_nil_of_byteLength_eq_zero (a := e) (by omega)
  refine ⟨pre, post', by simp, by omega, ?_⟩
  rw [byteLength_append, length]
  omega

theorem Holds.of_thirds {a b c d : Nat} (hab : a ≤ b) (hbc : b ≤ c) (hcd : c ≤ d)
    (ha : CutsAt source a) (hb : CutsAt source b) (hc : CutsAt source c) (hd : CutsAt source d) :
    ∃ x y z, Holds ⟨a, b, hab⟩ source x ∧ Holds ⟨b, c, hbc⟩ source y ∧
      Holds ⟨c, d, hcd⟩ source z ∧ Holds ⟨a, d, by omega⟩ source (x ++ y ++ z) := by
  obtain ⟨x, hx⟩ := Holds.of_cuts (r := ⟨a, b, hab⟩) ha hb
  obtain ⟨y, hy⟩ := Holds.of_cuts (r := ⟨b, c, hbc⟩) hb hc
  obtain ⟨z, hz⟩ := Holds.of_cuts (r := ⟨c, d, hcd⟩) hc hd
  have hxy : Holds ⟨a, c, by omega⟩ source (x ++ y) := hx.join hy rfl rfl rfl
  exact ⟨x, y, z, hx, hy, hz, hxy.join hz rfl rfl rfl⟩

theorem Holds.slice_eq {source : String} (h : r.Holds source.toList x) :
    Checked.slice r source = .ok (String.ofList x) := by
  obtain ⟨pre, post, hsplit, hpre, hx⟩ := h
  rw [Checked.slice, slice?, hsplit, sliceChars?_append hpre.symm hx.symm]
  rfl

theorem Holds.eq_append {source : String} (h : r.Holds source.toList x) (hstart : r.start = 0) :
    ∃ rest, source = String.ofList x ++ rest ∧ (String.ofList x).utf8ByteSize = r.length := by
  obtain ⟨pre, post, hsplit, hpre, hx⟩ := h
  obtain rfl := eq_nil_of_byteLength_eq_zero (hpre.trans hstart)
  refine ⟨String.ofList post, ?_, (utf8ByteSize_ofList x).trans hx⟩
  rw [← String.ofList_append, ← String.toList_inj, hsplit, String.toList_ofList, List.nil_append]

inductive Tiled (stop : Nat) : Nat → List TextRange → Prop
  | nil : Tiled stop stop []
  | cons (r : TextRange) {rs : List TextRange} : Tiled stop r.stop rs → Tiled stop r.start (r :: rs)

theorem Tiled.append (h : Tiled mid start rs) (h' : Tiled stop mid rs') :
    Tiled stop start (rs ++ rs') := by
  induction h with
  | nil => exact h'
  | cons r _ ih => exact .cons r ih

theorem Tiled.eq_of_nil (h : Tiled stop start []) : start = stop := by
  cases h
  rfl

theorem Tiled.start_le_stop (h : Tiled stop start rs) : start ≤ stop := by
  induction h with
  | nil => exact Nat.le_refl _
  | cons r _ ih => exact Nat.le_trans r.start_le_stop ih

theorem Tiled.start_le (h : Tiled stop start rs) (hr : r ∈ rs) : start ≤ r.start := by
  induction h with
  | nil => exact absurd hr List.not_mem_nil
  | cons u _ ih =>
      rcases List.mem_cons.mp hr with rfl | hr
      · exact Nat.le_refl _
      · exact Nat.le_trans u.start_le_stop (ih hr)

theorem Tiled.pairwise (h : Tiled stop start rs) : rs.Pairwise fun r u => r.stop ≤ u.start := by
  induction h with
  | nil => exact .nil
  | cons r hrest ih => exact .cons (fun _ hu => hrest.start_le hu) ih

theorem Tiled.cutsAt_stop (h : Tiled stop start rs) (hstart : CutsAt source start)
    (hrs : ∀ r ∈ rs, CutsAt source r.stop) : CutsAt source stop := by
  induction h with
  | nil => exact hstart
  | cons r _ ih =>
      exact ih (hrs r List.mem_cons_self) fun u hu => hrs u (List.mem_cons_of_mem r hu)

theorem Tiled.holds_flatten {xs : List (List Char)} (h : Tiled stop start rs)
    (hxs : List.Forall₂ (fun r x => r.Holds source x) rs xs) (hstart : CutsAt source start)
    (hu : u.start = start) (hu' : u.stop = stop) : u.Holds source xs.flatten := by
  induction hxs generalizing start u with
  | nil =>
      cases h
      obtain ⟨pre, post, rfl, hpre⟩ := hstart
      exact ⟨pre, post, rfl, hpre.trans hu.symm, by rw [length, hu, hu', Nat.sub_self]; rfl⟩
  | @cons r x rs xs hx hxs ih =>
      cases h with
      | cons _ htail =>
          have hrest := @ih ⟨r.stop, stop, htail.start_le_stop⟩ r.stop htail hx.cutsAt_stop rfl rfl
          exact hx.join hrest rfl hu hu'

end TextRange

end LosslessSyntax
