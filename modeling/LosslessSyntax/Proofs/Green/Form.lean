import LosslessSyntax.Proofs.Green.Exact
import LosslessSyntax.Proofs.Green.Position
import LosslessSyntax.Proofs.Green.Twin

namespace LosslessSyntax

namespace Green

inductive SameForm : Green → Green → Prop
  | token (i j : Nat) (shape : TokenShape) (ds es : List Diagnostic) :
      SameForm (token i shape ds) (token j shape es)
  | node (i j : Nat) (kind : Kind) (summary summary' : Summary) {as bs : List Green}
      (ds es : List Diagnostic) : bs.length = as.length →
      SameForm (node i kind summary as ds) (node j kind summary' bs es)

variable {a b c : Green} {as bs : List Green} {q : List Nat}

namespace SameForm

theorem refl (a : Green) : SameForm a a := by
  cases a with
  | token stamp shape ds => exact .token ..
  | node stamp kind summary cs ds => exact .node _ _ _ _ _ _ _ rfl

theorem trans (h : SameForm a b) (h' : SameForm b c) : SameForm a c := by
  cases h with
  | token i j shape ds es =>
      cases h' with
      | token => exact .token ..
  | node i j kind summary summary' ds es hlength =>
      cases h' with
      | node _ _ _ _ _ _ _ hlength' => exact .node _ _ _ _ _ _ _ (hlength'.trans hlength)

theorem kind_eq (h : SameForm a b) : b.kind = a.kind := by
  cases h <;> rfl

theorem isNode_eq (h : SameForm a b) : b.isNode = a.isNode := by
  cases h <;> rfl

theorem isMissing_eq (h : SameForm a b) : b.isMissing = a.isMissing := by
  cases h <;> rfl

theorem length_eq (h : SameForm a b) : b.children.length = a.children.length := by
  cases h with
  | token => rfl
  | node _ _ _ _ _ _ _ hlength => exact hlength

end SameForm

def Congruent (a b : Green) : Prop := ∀ q, Option.Rel SameForm (a.descend? q) (b.descend? q)

namespace Congruent

theorem sameForm (h : a.Congruent b) : SameForm a b := by
  cases h [] with
  | some h => exact h

theorem map_descend?_eq {α : Type} {f : Green → α} (hf : ∀ m m', SameForm m m' → f m' = f m)
    (h : a.Congruent b) (q : List Nat) : (b.descend? q).map f = (a.descend? q).map f := by
  rcases rel_cases (h q) with ⟨hm, hm'⟩ | ⟨m, m', hm, hm', hform⟩
  · rw [hm, hm']
  · rw [hm, hm', Option.map_some, Option.map_some, hf m m' hform]

theorem isSome_eq (h : a.Congruent b) (q : List Nat) :
    (b.descend? q).isSome = (a.descend? q).isSome := by
  have hunit := h.map_descend?_eq (fun _ _ _ => (rfl : () = ())) q
  rw [← Option.isSome_map, hunit, Option.isSome_map]

theorem descend (h : a.Congruent b) {m m' : Green} (hm : a.descend? q = some m)
    (hm' : b.descend? q = some m') : m.Congruent m' := by
  intro r
  have hr := h (q ++ r)
  rwa [descend?_append, descend?_append, hm, hm', Option.bind_some, Option.bind_some] at hr

theorem children (h : a.Congruent b) : List.Forall₂ Congruent a.children b.children := by
  refine List.forall₂_iff_get.mpr ⟨h.sameForm.length_eq.symm, fun i hi hj => ?_⟩
  refine h.descend (q := [i]) ?_ ?_
  · exact (descend?_concat (descend?_nil a) i).trans (List.getElem?_eq_getElem hi)
  · exact (descend?_concat (descend?_nil b) i).trans (List.getElem?_eq_getElem hj)

theorem shapesAmong_eq (ih : ∀ a ∈ as, ∀ b, a.Congruent b → b.shapes = a.shapes)
    (h : List.Forall₂ Congruent as bs) : shapesAmong bs = shapesAmong as := by
  induction h with
  | nil => rfl
  | @cons a b as bs hab _ ihas =>
      have htail := ihas fun c hc => ih c (List.mem_cons_of_mem a hc)
      rw [shapesAmong, shapesAmong, ih a List.mem_cons_self b hab, htail]

theorem shapes_eq (h : a.Congruent b) : b.shapes = a.shapes := by
  induction a generalizing b with
  | token stamp shape ds =>
      cases h.sameForm with
      | token => rfl
  | node stamp kind summary cs ds ih =>
      cases h.sameForm with
      | node => exact shapesAmong_eq (fun c hc b hb => ih c hc hb) h.children

section WellFormed

variable (ha : a.WellFormed) (hb : b.WellFormed) (h : a.Congruent b)
include ha hb h

theorem width_eq : b.width = a.width := by
  rw [ha.width_eq, hb.width_eq, h.shapes_eq]

theorem containsMissing_eq : b.containsMissing = a.containsMissing := by
  have hmissing := h.map_descend?_eq fun _ _ hform => hform.isMissing_eq
  rw [Bool.eq_iff_iff, ha.containsMissing_iff, hb.containsMissing_iff]
  simp only [← Option.map_eq_some_iff, hmissing]

theorem widths_take_eq (i : Nat) :
    widths (b.children.take i) = widths (a.children.take i) := by
  have hwidths : b.children.map width = a.children.map width := by
    refine List.ext_getElem? fun k => ?_
    rw [List.getElem?_map, List.getElem?_map]
    rcases rel_cases (rel_getElem? h.children k) with ⟨hc, hd⟩ | ⟨c, d, hc, hd, hcd⟩
    · rw [hc, hd]
    · have hwc := ha.of_mem_children (List.mem_of_getElem? hc)
      have hwd := hb.of_mem_children (List.mem_of_getElem? hd)
      rw [hc, hd, Option.map_some, Option.map_some, hwd.width_eq, hwc.width_eq, hcd.shapes_eq]
  rw [widths, widths, List.map_take, List.map_take, hwidths]

theorem offsetAt_eq (q : List Nat) : b.offsetAt q = a.offsetAt q := by
  induction q generalizing a b with
  | nil => rfl
  | cons i is ih =>
      rcases rel_cases (rel_getElem? h.children i) with ⟨hc, hd⟩ | ⟨c, d, hc, hd, hcd⟩
      · have hc : a.child? i = none := hc
        have hd : b.child? i = none := hd
        rw [offsetAt, offsetAt, hc, hd]
      · rw [offsetAt_cons hc, offsetAt_cons hd, widths_take_eq ha hb h,
          ih (ha.of_child? hc) (hb.of_child? hd) hcd]

theorem rangeAt_eq (q : List Nat) : b.rangeAt q = a.rangeAt q := by
  have hwidth : b.widthAt q = a.widthAt q := by
    rw [widthAt, widthAt]
    rcases rel_cases (h q) with ⟨hm, hm'⟩ | ⟨m, m', hm, hm', -⟩
    · rw [hm, hm']
    · have hforms := h.descend hm hm'
      rw [hm, hm']
      exact width_eq (ha.of_descend? hm) (hb.of_descend? hm') hforms
  simp only [rangeAt, offsetAt_eq ha hb h, hwidth]

end WellFormed

end Congruent

end Green

end LosslessSyntax
