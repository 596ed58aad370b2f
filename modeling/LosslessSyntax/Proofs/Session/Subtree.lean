import LosslessSyntax.Proofs.Session.Lineage
import Mathlib.Data.List.Induction

namespace LosslessSyntax

namespace Session

inductive Under (s : Session) (top : Nat) : List Nat → Nat → Prop
  | self : Under s top [] top
  | child {q : List Nat} {a id : Nat} {p : Placement} :
      Under s top q a → s.placements[id]? = some p → p.parent = some a →
      Under s top (q ++ [p.index]) id

variable {s t : Session} {top mid id id' i : Nat} {q q' r : List Nat} {p top' : Placement}

theorem at_iff_under : s.At q id ↔ s.Under rootId q id := by
  constructor
  · intro h
    induction h with
    | root => exact .self
    | child _ hp ha ih => exact .child ih hp ha
  · intro h
    induction h with
    | self => exact .root
    | child _ hp ha ih => exact .child ih hp ha

namespace Under

theorem mono (h : s.Under top q id) (hst : Extends s t) : t.Under top q id := by
  induction h with
  | self => exact .self
  | child _ hp ha ih =>
      obtain ⟨r, hr, -, -, hparent, hindex⟩ := hst.kept hp
      exact hindex ▸ .child ih hr (hparent.trans ha)

theorem trans (h : s.Under top q mid) (h' : s.Under mid r id) : s.Under top (q ++ r) id := by
  induction h' with
  | self => rwa [List.append_nil]
  | child _ hp ha ih =>
      rw [← List.append_assoc]
      exact .child ih hp ha

theorem of_concat (h : s.Under top (q ++ [i]) id) :
    ∃ a p, s.Under top q a ∧ s.placements[id]? = some p ∧ p.parent = some a ∧ p.index = i := by
  generalize hr : q ++ [i] = r at h
  cases h with
  | self => exact absurd hr (by simp)
  | @child q' a _ p ha hp hparent =>
      obtain ⟨rfl, hi⟩ := List.append_inj' hr rfl
      exact ⟨a, p, ha, hp, hparent, (List.cons.inj hi).1.symm⟩

theorem exists_placement (h : s.Under top q id) (htop : s.placements[top]? = some top') :
    ∃ p, s.placements[id]? = some p := by
  cases h with
  | self => exact ⟨_, htop⟩
  | child _ hp _ => exact ⟨_, hp⟩

theorem eq_top (h : s.Under top [] id) : id = top := by
  generalize hr : [] = r at h
  cases h with
  | self => rfl
  | child _ _ _ => exact absurd hr (by simp)

theorem id_unique (hs : s.Coherent) (h : s.Under top q id) (h' : s.Under top q id') :
    id = id' := by
  induction h generalizing id' with
  | self => exact h'.eq_top.symm
  | child _ hp ha ih =>
      obtain ⟨b, p', hb, hp', hb', hindex⟩ := h'.of_concat
      obtain rfl := ih hb
      exact hs.unique hp hp' ha hb' hindex.symm

theorem of_append (hs : s.Coherent) (h : s.Under top (q ++ r) id) (hmid : s.Under top q mid) :
    s.Under mid r id := by
  induction r using List.reverseRecOn generalizing id with
  | nil =>
      rw [List.append_nil] at h
      exact h.id_unique hs hmid ▸ .self
  | append_singleton r i ih =>
      rw [← List.append_assoc] at h
      obtain ⟨a, p, ha, hp, hparent, rfl⟩ := h.of_concat
      exact .child (ih ha) hp hparent

theorem holds (hs : s.Coherent) (h : s.Under top q id) (htop : s.placements[top]? = some top')
    (hwf : top'.green.WellFormed) :
    ∃ p, s.placements[id]? = some p ∧ top'.green.descend? q = some p.green ∧
      p.offset = top'.offset + top'.green.offsetAt q := by
  induction h with
  | self => exact ⟨top', htop, rfl, (Nat.add_zero _).symm⟩
  | @child q a id p _ hp ha ih =>
      obtain ⟨above, habove, hm, hoffset⟩ := ih
      obtain ⟨-, r, start, hr, hslot, hp', -⟩ := hs.below hp ha
      obtain rfl := Option.some.inj (habove.symm.trans hr)
      rw [(hwf.of_descend? hm).slot?_eq, Option.map_eq_some_iff] at hslot
      obtain ⟨c, hc, heq⟩ := hslot
      obtain ⟨rfl, rfl⟩ := Prod.mk.inj heq
      refine ⟨p, hp, (Green.descend?_concat hm _).trans hc, ?_⟩
      rw [hp', hoffset, Green.offsetAt_concat hm hc, Nat.add_assoc]

theorem path_eq (hs : s.Coherent) (h : s.Under top q id) :
    s.path id = ⟨(s.path top).indices ++ q⟩ := by
  induction h with
  | self => rw [List.append_nil]
  | child _ hp ha ih => rw [path_of_parent hs hp ha, ih, Path.child, List.append_assoc]

end Under

end Session

end LosslessSyntax
