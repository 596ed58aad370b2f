import LosslessSyntax.Text.Range
import Mathlib.Algebra.Order.Ring.Int

namespace LosslessSyntax

def TextRange.of {α : Type} (r : TextRange) (text : List α) : List α :=
  (text.drop r.start).take r.length

abbrev Cut (α : Type) := TextRange × List α

namespace Cut

variable {α : Type}

def splice (cursor : Nat) : List (Cut α) → List α → List α
  | [], text => text.drop cursor
  | (r, fill) :: cuts, text =>
      (text.take r.start).drop cursor ++ fill ++ splice r.stop cuts text

def gain (x : Cut α) : Int := (x.2.length : Int) - x.1.length

inductive Laid (stop : Nat) : Nat → List (Cut α) → Prop
  | nil {cursor : Nat} : cursor ≤ stop → Laid stop cursor []
  | cons {cursor : Nat} {r : TextRange} {fill : List α} {cuts : List (Cut α)} :
      cursor ≤ r.start → Laid stop r.stop cuts → Laid stop cursor ((r, fill) :: cuts)

variable {cursor stop : Nat} {cuts pre post : List (Cut α)} {text : List α}

theorem Laid.cursor_le (h : Laid stop cursor cuts) : cursor ≤ stop := by
  induction h with
  | nil hle => exact hle
  | @cons cursor r fill cuts hle h ih => exact Nat.le_trans (Nat.le_trans hle r.start_le_stop) ih

theorem Laid.of_le {next : Nat} (h : Laid stop next cuts) (hle : cursor ≤ next) :
    Laid stop cursor cuts := by
  cases h with
  | nil hle' => exact .nil (Nat.le_trans hle hle')
  | cons hle' h => exact .cons (Nat.le_trans hle hle') h

theorem laid_of_pairwise (hcuts : cuts.Pairwise fun x y => x.1.stop ≤ y.1.start)
    (hcursor : ∀ x ∈ cuts, cursor ≤ x.1.start) (hstop : ∀ x ∈ cuts, x.1.stop ≤ stop)
    (hle : cursor ≤ stop) : Laid stop cursor cuts := by
  induction cuts generalizing cursor with
  | nil => exact .nil hle
  | cons x cuts ih =>
      obtain ⟨hnext, hcuts⟩ := List.pairwise_cons.mp hcuts
      refine .cons (hcursor x List.mem_cons_self) ?_
      exact ih hcuts hnext (fun y hy => hstop y (List.mem_cons_of_mem x hy))
        (hstop x List.mem_cons_self)

theorem length_splice (h : Laid text.length cursor cuts) :
    ((splice cursor cuts text).length : Int) =
      text.length - cursor + (cuts.map gain).sum := by
  induction cuts generalizing cursor with
  | nil =>
      have hle := h.cursor_le
      rw [splice, List.length_drop, List.map_nil, List.sum_nil]
      omega
  | cons x cuts ih =>
      obtain ⟨r, fill⟩ := x
      cases h with
      | cons hle h =>
          have hstop := h.cursor_le
          have horder := r.start_le_stop
          have htail := ih h
          simp only [splice, List.length_append, List.length_drop, List.length_take,
            List.map_cons, List.sum_cons, gain, TextRange.length] at htail ⊢
          omega

theorem splice_eq_append {next : Nat} (h : Laid text.length next cuts) (hle : cursor ≤ next) :
    splice cursor cuts text = (text.take next).drop cursor ++ splice next cuts text := by
  cases h with
  | nil hnext =>
      rw [splice, splice, ← List.drop_append_of_le_length, List.take_append_drop]
      rw [List.length_take]
      omega
  | @cons _ r fill cuts hnext h =>
      have hstop := h.cursor_le
      have horder := r.start_le_stop
      have hsplit : (text.take r.start).drop cursor =
          (text.take next).drop cursor ++ (text.take r.start).drop next := by
        have htake : text.take next = (text.take r.start).take next := by
          rw [List.take_take, Nat.min_eq_left hnext]
        rw [htake, ← List.drop_append_of_le_length, List.take_append_drop]
        simp only [List.length_take]
        omega
      rw [splice, splice, hsplit]
      simp only [List.append_assoc]

theorem splice_append (hpre : Laid stop cursor pre) (hpost : Laid text.length stop post) :
    splice cursor (pre ++ post) text =
      splice cursor pre (text.take stop) ++ splice stop post text := by
  induction hpre with
  | nil hle => exact splice_eq_append hpost hle
  | @cons cursor r fill cuts hle h ih =>
      have hstop := h.cursor_le
      have horder := r.start_le_stop
      rw [List.cons_append, splice, splice, ih, List.take_take,
        Nat.min_eq_left (Nat.le_trans horder hstop)]
      simp only [List.append_assoc]

theorem length_splice_take (hpre : Laid stop 0 pre) (hstop : stop ≤ text.length) :
    ((splice 0 pre (text.take stop)).length : Int) = stop + (pre.map gain).sum := by
  have hlength : (text.take stop).length = stop := by
    rw [List.length_take, Nat.min_eq_left hstop]
  have h : ((splice 0 pre (text.take stop)).length : Int) = _ := length_splice (by rwa [hlength])
  rw [hlength] at h
  omega

theorem of_splice_between {r r' : TextRange} (hpre : Laid r.start 0 pre)
    (hpost : Laid text.length r.stop post)
    (hstart : (r'.start : Int) = r.start + (pre.map gain).sum) (hlength : r'.length = r.length) :
    r'.of (splice 0 (pre ++ post) text) = r.of text := by
  have horder := r.start_le_stop
  have hstop := hpost.cursor_le
  have hpost' := hpost.of_le horder
  have hhead := length_splice_take hpre (Nat.le_trans horder hstop)
  have hdrop : r'.start = (splice 0 pre (text.take r.start)).length := by omega
  have hlen : r.stop - r.start = ((text.take r.stop).drop r.start).length := by
    rw [List.length_drop, List.length_take, Nat.min_eq_left hstop]
  rw [TextRange.of, hlength, splice_append hpre hpost', hdrop, List.drop_left,
    splice_eq_append hpost horder, TextRange.length, hlen, List.take_left, TextRange.of,
    TextRange.length, List.drop_take]

theorem of_splice_fill {r r' : TextRange} {fill : List α} (hpre : Laid r.start 0 pre)
    (hpost : Laid text.length r.stop post)
    (hstart : (r'.start : Int) = r.start + (pre.map gain).sum) (hlength : r'.length = fill.length) :
    r'.of (splice 0 (pre ++ (r, fill) :: post) text) = fill := by
  have horder := r.start_le_stop
  have hstop := hpost.cursor_le
  have hhead := length_splice_take hpre (Nat.le_trans horder hstop)
  have hdrop : r'.start = (splice 0 pre (text.take r.start)).length := by omega
  have hempty : (text.take r.start).drop r.start = [] := by
    rw [List.drop_eq_nil_iff, List.length_take]
    exact Nat.min_le_left _ _
  rw [TextRange.of, hlength, splice_append hpre (.cons (Nat.le_refl _) hpost), hdrop,
    List.drop_left, splice, hempty, List.nil_append, List.take_left]

end Cut

end LosslessSyntax
