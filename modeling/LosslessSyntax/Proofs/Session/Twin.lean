import LosslessSyntax.Green.Outline
import LosslessSyntax.Proofs.Edit.Twin
import LosslessSyntax.Proofs.Session.Lineage
import LosslessSyntax.Session.ChildQueue
import LosslessSyntax.Session.Collect
import LosslessSyntax.Session.Offset

namespace LosslessSyntax

namespace Green

variable {a b : Green} {as bs : List Green}

namespace Twin

theorem isMissing_eq (h : a.Twin b) : a.isMissing = b.isMissing := by
  rcases h.cases with ⟨_, _, _, _, rfl, rfl⟩ | ⟨_, _, _, _, _, _, _, rfl, rfl, _⟩ <;> rfl

theorem width_eq (h : a.Twin b) : a.width = b.width := by
  rcases h.cases with ⟨_, _, _, _, rfl, rfl⟩ | ⟨_, _, _, _, _, _, _, rfl, rfl, _⟩ <;> rfl

theorem detail_eq (h : a.Twin b) : a.detail = b.detail := by
  rcases h.cases with ⟨_, _, _, _, rfl, rfl⟩ | ⟨_, _, _, _, _, _, _, rfl, rfl, _⟩ <;> rfl

theorem headLines_eq (h : a.Twin b) (start depth : Nat) :
    a.headLines start depth = b.headLines start depth := by
  rw [headLines, headLines, h.checkedWidth_eq, h.kind_eq, h.detail_eq, h.diagnostics_eq]

end Twin

theorem sizes_eq (h : List.Forall₂ (fun a b => a.size = b.size) as bs) : sizes as = sizes bs := by
  induction h with
  | nil => rfl
  | cons hab _ ih => rw [sizes, sizes, hab, ih]

theorem Twin.size_eq (h : a.Twin b) : a.size = b.size := by
  induction h using Twin.induction with
  | token i j shape es => rfl
  | node i j kind summary cs ds es _ hcs =>
      rw [size, size, sizes_eq (hcs.imp fun _ _ => Exists.snd)]

theorem outlinesFrom_eq
    (h : List.Forall₂ (fun a b => ∀ start depth, outlineFrom start depth a =
      outlineFrom start depth b) as bs) (start depth : Nat) (starts : List Nat) :
    outlinesFrom start depth starts as = outlinesFrom start depth starts bs := by
  induction h generalizing starts with
  | nil => rfl
  | cons hab _ ih =>
      cases starts with
      | nil => rfl
      | cons offset starts => simp only [outlinesFrom, hab, ih]

theorem Twin.outlineFrom_eq (h : a.Twin b) (start depth : Nat) :
    outlineFrom start depth a = outlineFrom start depth b := by
  induction h using Twin.induction generalizing start depth with
  | token i j shape es h => exact h.headLines_eq start depth
  | node i j kind summary cs ds es h hcs =>
      rw [outlineFrom, outlineFrom, h.headLines_eq,
        outlinesFrom_eq (hcs.imp fun _ _ => Exists.snd)]

theorem Twin.dump_eq (h : a.Twin b) : a.dump = b.dump := by
  rw [dump, dump, outline, outline, h.outlineFrom_eq]

end Green

namespace Placement.Twin

variable {p q : Placement}

theorem isNode_eq (h : p.Twin q) : p.isNode = q.isNode := h.green.isNode_eq

theorem textRange_eq (h : p.Twin q) : p.textRange = q.textRange := by
  rw [textRange, textRange, h.green.checkedWidth_eq, h.offset]

theorem tokenTextRange_eq (h : p.Twin q) : p.tokenTextRange = q.tokenTextRange := by
  have hrange := h.textRange_eq
  rw [tokenTextRange, tokenTextRange, h.offset, hrange]
  rcases h.green.cases with ⟨_, _, _, _, hp, hq⟩ | ⟨_, _, _, _, _, _, _, hp, hq, _⟩ <;> rw [hp, hq]

theorem leadingRange_eq (h : p.Twin q) : p.leadingRange = q.leadingRange := by
  rw [leadingRange, leadingRange, h.offset]
  rcases h.green.cases with ⟨_, _, _, _, hp, hq⟩ | ⟨_, _, _, _, _, _, _, hp, hq, _⟩ <;> rw [hp, hq]

theorem trailingRange_eq (h : p.Twin q) : p.trailingRange = q.trailingRange := by
  rw [trailingRange, trailingRange, h.tokenTextRange_eq, h.textRange_eq]
  rcases h.green.cases with ⟨_, _, _, _, hp, hq⟩ | ⟨_, _, _, _, _, _, _, hp, hq, _⟩ <;> rw [hp, hq]

theorem display_eq (h : p.Twin q) : p.display = q.display := by
  rw [display, display, h.textRange_eq, kind, kind, h.green.kind_eq, h.green.isMissing_eq]

theorem stepOf_eq (h : p.Twin q) (id : Nat) :
    Session.stepOf (id, p) = Session.stepOf (id, q) := by
  rw [Session.stepOf, Session.stepOf, h.parent, h.index]

end Placement.Twin

namespace Session

variable {s t : Session} {id : Nat} {q : List Nat}

section Told

theorem Twin.display_eq (h : s.Twin t) : s.display = t.display := by
  unfold display
  rw [h.root.kind_eq, h.root.width_eq]

theorem Twin.lineage (h : s.Twin t) (id : Nat) :
    List.Forall₂ (fun x y => x.1 = y.1 ∧ x.2.Twin y.2) (s.lineage id) (t.lineage id) := by
  induction id using Nat.strong_induction_on with
  | _ id ih =>
      rw [Session.lineage, Session.lineage]
      rcases rel_cases (h.placements id) with ⟨hp, hp'⟩ | ⟨p, p', hp, hp', hpp⟩ <;> rw [hp, hp']
      · exact .nil
      · refine .cons ⟨rfl, hpp⟩ ?_
        rw [hpp.parent]
        cases p'.parent with
        | none => exact .nil
        | some a =>
            by_cases ha : a < id
            · simpa only [if_pos ha] using ih a ha
            · simpa only [if_neg ha] using List.Forall₂.nil

theorem Twin.ancestors_eq (h : s.Twin t) (id : Nat) : s.ancestors id = t.ancestors id := by
  rw [ancestors, ancestors, ← List.forall₂_eq_eq_eq, List.forall₂_map_left_iff,
    List.forall₂_map_right_iff]
  exact (h.lineage id).imp fun _ _ hxy => hxy.1

theorem Twin.path_eq (h : s.Twin t) (id : Nat) : s.path id = t.path id := by
  have hsteps : (s.lineage id).filterMap stepOf = (t.lineage id).filterMap stepOf := by
    rw [← List.forall₂_eq_eq_eq]
    refine List.rel_filterMap ?_ (h.lineage id)
    rintro ⟨i, p⟩ ⟨-, p'⟩ ⟨rfl, hpp⟩
    dsimp only at hpp
    rw [hpp.stepOf_eq]
    cases stepOf (i, p') with
    | none => exact .none
    | some step => exact .some rfl
  rw [path, path, hsteps]

theorem Twin.parent?_eq (h : s.Twin t) (id : Nat) : s.parent? id = t.parent? id := by
  rw [parent?, parent?]
  rcases rel_cases (h.placements id) with ⟨hp, hp'⟩ | ⟨p, p', hp, hp', hpp⟩ <;> rw [hp, hp']
  · exact hpp.parent

theorem Twin.indexInParent?_eq (h : s.Twin t) (id : Nat) :
    s.indexInParent? id = t.indexInParent? id := by
  rw [indexInParent?, indexInParent?]
  rcases rel_cases (h.placements id) with ⟨hp, hp'⟩ | ⟨p, p', hp, hp', hpp⟩ <;> rw [hp, hp']
  · exact hpp.stepOf_eq id

theorem Twin.bound_eq (h : s.Twin t) (start : Nat) : Walk.bound s start = Walk.bound t start := by
  have hlast := rel_getElem? (h.lineage start) ((t.lineage start).length - 1)
  rw [Walk.bound, Walk.bound, List.getLast?_eq_getElem?, List.getLast?_eq_getElem?,
    (h.lineage start).length_eq]
  rcases rel_cases hlast with ⟨hx, hy⟩ | ⟨x, y, hx, hy, -, hxy⟩ <;> rw [hx, hy]
  exact congrArg (2 * · + 1) hxy.green.size_eq

theorem Twin.at (h : s.Twin t) (hat : s.At q id) : t.At q id := by
  induction hat with
  | root => exact .root
  | @child q a id p _ hp ha ih =>
      rcases rel_cases (h.placements id) with ⟨hnone, -⟩ | ⟨p', r, hp', hr, hpr⟩
      · exact nomatch hnone.symm.trans hp
      · obtain rfl := Option.some.inj (hp.symm.trans hp')
        rw [hpr.index]
        exact .child ih hr (hpr.parent ▸ ha)

end Told

end Session

end LosslessSyntax
