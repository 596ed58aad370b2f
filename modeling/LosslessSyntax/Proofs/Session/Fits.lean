import LosslessSyntax.Proofs.Green.Position
import LosslessSyntax.Proofs.Session.Reached
import LosslessSyntax.Proofs.Session.Subtree

namespace LosslessSyntax

structure Placement.Sized (p : Placement) : Prop where
  wellFormed : p.green.WellFormed
  stop_le : p.offset + p.green.width ≤ maxSize

namespace Session

def Fits (s : Session) (id : Nat) : Prop :=
  ∃ top q p, s.placements[top]? = some p ∧ p.parent = none ∧ p.Sized ∧ s.Under top q id

variable {s t : Session} {top id a i : Nat} {q : List Nat} {p top' : Placement}

theorem Under.stop_le (hs : s.Coherent) (h : s.Under top q id)
    (htop : s.placements[top]? = some top') (hsized : top'.Sized) :
    ∃ p, s.placements[id]? = some p ∧ p.Sized ∧
      p.offset + p.green.width ≤ top'.offset + top'.green.width := by
  obtain ⟨p, hp, hm, hoffset⟩ := h.holds hs htop hsized.wellFormed
  have hle := Green.offsetAt_add_width_le hsized.wellFormed hm
  have hstop := hsized.stop_le
  exact ⟨p, hp, ⟨hsized.wellFormed.of_descend? hm, by omega⟩, by omega⟩

theorem Under.holds_child {c : Green} (hs : s.Coherent) (h : s.Under id [i] a)
    (hp : s.placements[id]? = some p) (hsized : p.Sized) (hc : p.green.child? i = some c) :
    ∃ r, s.placements[a]? = some r ∧ r.Sized ∧ r.green = c := by
  obtain ⟨r, hr, hrsized, -⟩ := h.stop_le hs hp hsized
  obtain ⟨r', hr', hm, -⟩ := h.holds hs hp hsized.wellFormed
  obtain rfl := Option.some.inj (hr.symm.trans hr')
  rw [Green.descend?_cons, hc, Option.bind_some, Green.descend?_nil] at hm
  exact ⟨r, hr, hrsized, (Option.some.inj hm).symm⟩

theorem Extends.sized (hst : Extends s t) (hp : s.placements[id]? = some p) (hsized : p.Sized) :
    ∃ r, t.placements[id]? = some r ∧ r.Sized ∧ r.green = p.green ∧ r.parent = p.parent := by
  obtain ⟨r, hr, hgreen, hoffset, hparent, -⟩ := hst.kept hp
  exact ⟨r, hr, ⟨hgreen ▸ hsized.wellFormed, hgreen ▸ hoffset ▸ hsized.stop_le⟩, hgreen, hparent⟩

namespace Fits

theorem mono (h : s.Fits id) (hst : Extends s t) : t.Fits id := by
  obtain ⟨top, q, p, hp, hnone, hsized, hunder⟩ := h
  obtain ⟨r, hr, hrsized, -, hparent⟩ := hst.sized hp hsized
  exact ⟨top, q, r, hr, hparent.trans hnone, hrsized, hunder.mono hst⟩

theorem sized (hs : s.Coherent) (h : s.Fits id) : ∃ p, s.placements[id]? = some p ∧ p.Sized := by
  obtain ⟨top, q, top', htop, -, hsized, hunder⟩ := h
  obtain ⟨p, hp, hfits, -⟩ := hunder.stop_le hs htop hsized
  exact ⟨p, hp, hfits⟩

theorem under (h : s.Fits a) (hunder : s.Under a q id) : s.Fits id := by
  obtain ⟨top, r, p, hp, hnone, hsized, habove⟩ := h
  exact ⟨top, r ++ q, p, hp, hnone, hsized, habove.trans hunder⟩

theorem parent (h : s.Fits id) (hp : s.placements[id]? = some p) (ha : p.parent = some a) :
    s.Fits a := by
  obtain ⟨top, q, top', htop, hnone, hsized, hunder⟩ := h
  cases hunder with
  | self =>
      obtain rfl := Option.some.inj (hp.symm.trans htop)
      exact nomatch ha.symm.trans hnone
  | child habove hp' hparent =>
      obtain rfl := Option.some.inj (hp.symm.trans hp')
      obtain rfl := Option.some.inj (ha.symm.trans hparent)
      exact ⟨top, _, top', htop, hnone, hsized, habove⟩

end Fits

theorem Reached.fits_root (hs : s.Reached) : s.Fits rootId := by
  obtain ⟨p, hp, hgreen, hoffset, hnone⟩ := hs.coherent.root
  have hwf := hs.root_wellFormed
  refine ⟨rootId, [], p, hp, hnone, ⟨hgreen ▸ hwf, ?_⟩, .self⟩
  rw [hgreen, hoffset, Nat.zero_add]
  exact hwf.width_le

theorem Reached.fits_of_attached (hs : s.Reached) (h : s.Attached id) : s.Fits id :=
  hs.fits_root.under (at_iff_under.mp (h.at_path hs.coherent))

theorem fits_of_detached (hp : s.placements[id]? = some p) (hnone : p.parent = none)
    (hsized : p.Sized) : s.Fits id :=
  ⟨id, [], p, hp, hnone, hsized, .self⟩

theorem Under.remembered (hs : s.Coherent) (h : s.Under id [i] a)
    (hp : s.placements[id]? = some p) : p.memo[i]? = some (some a) := by
  obtain ⟨b, r, hb, hr, hparent, rfl⟩ := Under.of_concat (q := []) h
  obtain rfl := hb.eq_top
  obtain ⟨-, above, -, habove, -, -, hmemo⟩ := hs.below hr hparent
  obtain rfl := Option.some.inj (hp.symm.trans habove)
  exact hmemo

inductive ChildAnswer (s : Session) (id i : Nat) (g : Green) : Prop
  | absent : g.child? i = none → child id i s = .ok none s → ChildAnswer s id i g
  | remembered {cid : Nat} :
      (g.child? i).isSome → s.Under id [i] cid → child id i s = .ok (some cid) s →
      ChildAnswer s id i g
  | placed {t : Session} :
      (g.child? i).isSome → (∀ cid, ¬ s.Under id [i] cid) → t.Coherent → Extends s t →
      t.placements.size = s.placements.size + 1 → t.Under id [i] s.placements.size →
      child id i s = .ok (some s.placements.size) t → ChildAnswer s id i g
  | full :
      (g.child? i).isSome → (∀ cid, ¬ s.Under id [i] cid) → Arena.capacity ≤ s.placements.size →
      child id i s = .error (.aborted .arenaFull) s → ChildAnswer s id i g

theorem childAnswer (hs : s.Coherent) (hp : s.placements[id]? = some p) (hsized : p.Sized)
    (i : Nat) : ChildAnswer s id i p.green := by
  have hsize := hs.memo_size hp
  have hwf := hsized.wellFormed
  cases hc : p.green.child? i with
  | none =>
      have hi : p.green.children.length ≤ i := List.getElem?_eq_none_iff.mp hc
      exact .absent hc (child_of_outside hp (Array.getElem?_eq_none_iff.mpr (hsize ▸ hi)))
  | some c =>
      have hsome : (p.green.child? i).isSome := Option.isSome_iff_exists.mpr ⟨c, hc⟩
      have hi : i < p.green.children.length := (List.getElem?_eq_some_iff.mp hc).1
      have hslot : p.green.slot? i = some (Green.widths (p.green.children.take i), c) := by
        rw [hwf.slot?_eq, hc, Option.map_some]
      rcases hm : p.memo[i]? with _ | _ | cid
      · exact absurd (Array.getElem?_eq_none_iff.mp hm) (by omega)
      · have hnew : ∀ cid, ¬ s.Under id [i] cid := fun cid h =>
          nomatch hm.symm.trans (h.remembered hs hp)
        have hchild := Green.widths_take_child_le hwf hc
        have hstop := hsized.stop_le
        have he := child_of_slot hp hm hslot
        rw [if_neg (by omega)] at he
        split at he
        · have hst := Extends.withChild hp hm c (p.offset + Green.widths (p.green.children.take i))
          refine .placed hsome hnew (hs.withChild hp hm hslot) hst ?_ ?_ he
          · rw [withChild, Array.size_modify, Array.size_push]
          · exact .child (q := []) .self (withChild_new hp) rfl
        · rename_i hadmits
          rw [Arena.admits_iff, Nat.not_lt] at hadmits
          exact .full hsome hnew hadmits he
      · obtain ⟨r, hr, hparent, rfl⟩ := hs.memoized hp hm
        exact .remembered hsome (.child (q := []) .self hr hparent) (child_of_memo hp hm)

theorem ChildAnswer.of_ok {g : Green} {found : Option Nat} (h : ChildAnswer s id i g)
    (hs : s.Coherent) (hok : child id i s = .ok found t) :
    t.Coherent ∧ Extends s t ∧ found.isSome = (g.child? i).isSome ∧
      ∀ cid ∈ found, t.Under id [i] cid := by
  cases h with
  | absent hnone he =>
      cases hok.symm.trans he
      exact ⟨hs, .refl s, by rw [hnone]; rfl, nofun⟩
  | remembered hsome hunder he =>
      cases hok.symm.trans he
      exact ⟨hs, .refl s, hsome.symm, fun _ hcid => Option.some.inj hcid ▸ hunder⟩
  | placed hsome _ ht hst _ hunder he =>
      cases hok.symm.trans he
      exact ⟨ht, hst, hsome.symm, fun _ hcid => Option.some.inj hcid ▸ hunder⟩
  | full _ _ _ he => exact nomatch hok.symm.trans he

end Session

end LosslessSyntax
