import LosslessSyntax.Proofs.Green.Position
import LosslessSyntax.Proofs.Session.Coherent
import LosslessSyntax.Session.Lineage
import Mathlib.Data.List.Nodup
import Mathlib.Data.List.Perm.Subperm

namespace LosslessSyntax

namespace Session

inductive At (s : Session) : List Nat → Nat → Prop
  | root : At s [] rootId
  | child {q : List Nat} {a id : Nat} {p : Placement} :
      At s q a → s.placements[id]? = some p → p.parent = some a → At s (q ++ [p.index]) id

variable {s t : Session} {q q' : List Nat} {id id' a : Nat} {p : Placement}

theorem Coherent.parent_rootId (hs : s.Coherent) (hp : s.placements[rootId]? = some p) :
    p.parent = none := by
  obtain ⟨r, hr, -, -, hparent⟩ := hs.root
  obtain rfl := Option.some.inj (hp.symm.trans hr)
  exact hparent

theorem Coherent.unique (hs : s.Coherent) {p' : Placement} (hp : s.placements[id]? = some p)
    (hp' : s.placements[id']? = some p') (ha : p.parent = some a) (ha' : p'.parent = some a)
    (hi : p.index = p'.index) : id = id' := by
  obtain ⟨-, r, -, hr, -, -, hm⟩ := hs.below hp ha
  obtain ⟨-, r', -, hr', -, -, hm'⟩ := hs.below hp' ha'
  obtain rfl := Option.some.inj (hr.symm.trans hr')
  rw [hi, hm', Option.some.injEq, Option.some.injEq] at hm
  exact hm.symm

namespace At

theorem exists_placement (hs : s.Coherent) (h : s.At q id) :
    ∃ p, s.placements[id]? = some p := by
  cases h with
  | root =>
      obtain ⟨p, hp, -⟩ := hs.root
      exact ⟨p, hp⟩
  | child _ hp _ => exact ⟨_, hp⟩

theorem lt_size (hs : s.Coherent) (h : s.At q id) : id < s.placements.size := by
  obtain ⟨p, hp⟩ := h.exists_placement hs
  exact lt_size_of_getElem? hp

theorem eq_nil_of_parent_none (h : s.At q id) (hp : s.placements[id]? = some p)
    (hparent : p.parent = none) : q = [] ∧ id = rootId := by
  cases h with
  | root => exact ⟨rfl, rfl⟩
  | child _ hp' ha =>
      obtain rfl := Option.some.inj (hp.symm.trans hp')
      exact nomatch hparent.symm.trans ha

theorem of_parent (h : s.At q id) (hs : s.Coherent) (hp : s.placements[id]? = some p)
    (ha : p.parent = some a) : ∃ q', q = q' ++ [p.index] ∧ s.At q' a := by
  cases h with
  | root => exact nomatch (hs.parent_rootId hp).symm.trans ha
  | @child q' b _ p' hb hp' hb' =>
      obtain rfl := Option.some.inj (hp.symm.trans hp')
      obtain rfl := Option.some.inj (ha.symm.trans hb')
      exact ⟨q', rfl, hb⟩

theorem eq_rootId (hs : s.Coherent) (h : s.At [] id) : id = rootId := by
  obtain ⟨p, hp⟩ := h.exists_placement hs
  cases hparent : p.parent with
  | none => exact (h.eq_nil_of_parent_none hp hparent).2
  | some a =>
      obtain ⟨q', hq', -⟩ := h.of_parent hs hp hparent
      simp at hq'

theorem of_concat {i : Nat} (hs : s.Coherent) (h : s.At (q ++ [i]) id) :
    ∃ a p, s.At q a ∧ s.placements[id]? = some p ∧ p.parent = some a ∧ p.index = i := by
  obtain ⟨p, hp⟩ := h.exists_placement hs
  cases hparent : p.parent with
  | none => exact absurd (h.eq_nil_of_parent_none hp hparent).1 (by simp)
  | some a =>
      obtain ⟨q', hq', ha⟩ := h.of_parent hs hp hparent
      obtain ⟨rfl, hi⟩ := List.append_inj' hq' rfl
      exact ⟨a, p, ha, hp, hparent, (List.cons.inj hi).1.symm⟩

theorem path_unique (hs : s.Coherent) (h : s.At q id) (h' : s.At q' id) : q = q' := by
  induction h generalizing q' with
  | root =>
      obtain ⟨p, hp, -, -, hparent⟩ := hs.root
      exact (h'.eq_nil_of_parent_none hp hparent).1.symm
  | child _ hp ha ih =>
      obtain ⟨r, rfl, hr⟩ := h'.of_parent hs hp ha
      rw [ih hr]

theorem id_unique (hs : s.Coherent) (h : s.At q id) (h' : s.At q id') : id = id' := by
  induction h generalizing id' with
  | root => exact (h'.eq_rootId hs).symm
  | child _ hp ha ih =>
      obtain ⟨b, p', hb, hp', hb', hindex⟩ := h'.of_concat hs
      obtain rfl := ih hb
      exact hs.unique hp hp' ha hb' hindex.symm

theorem mono (h : s.At q id) (hst : Extends s t) : t.At q id := by
  induction h with
  | root => exact .root
  | child _ hp ha ih =>
      obtain ⟨r, hr, -, -, hparent, hindex⟩ := hst.kept hp
      exact hindex ▸ .child ih hr (hparent.trans ha)

theorem holds (hs : s.Coherent) (hroot : s.root.WellFormed) (h : s.At q id) :
    ∃ p, s.placements[id]? = some p ∧ s.root.descend? q = some p.green ∧
      p.offset = s.root.offsetAt q := by
  induction h with
  | root =>
      obtain ⟨p, hp, hg, ho, -⟩ := hs.root
      exact ⟨p, hp, congrArg some hg.symm, ho⟩
  | @child q a id p _ hp ha ih =>
      obtain ⟨above, habove, hm, hoffset⟩ := ih
      obtain ⟨-, r, start, hr, hslot, hp', -⟩ := hs.below hp ha
      obtain rfl := Option.some.inj (habove.symm.trans hr)
      rw [(hroot.of_descend? hm).slot?_eq, Option.map_eq_some_iff] at hslot
      obtain ⟨c, hc, heq⟩ := hslot
      obtain ⟨rfl, rfl⟩ := Prod.mk.inj heq
      refine ⟨p, hp, (Green.descend?_concat hm _).trans hc, ?_⟩
      rw [hp', hoffset, Green.offsetAt_concat hm hc]

end At

section Lineage

theorem lineage_of_parent (hs : s.Coherent) (hp : s.placements[id]? = some p)
    (ha : p.parent = some a) : s.lineage id = (id, p) :: s.lineage a := by
  have hlt := (hs.below hp ha).1
  rw [lineage, hp]
  simp only [ha, if_pos hlt]

theorem lineage_of_no_parent (hp : s.placements[id]? = some p) (ha : p.parent = none) :
    s.lineage id = [(id, p)] := by
  rw [lineage, hp]
  simp only [ha]

theorem path_of_parent (hs : s.Coherent) (hp : s.placements[id]? = some p)
    (ha : p.parent = some a) : s.path id = (s.path a).child p.index := by
  rw [path, lineage_of_parent hs hp ha, List.filterMap_cons]
  simp only [stepOf, ha, Option.map_some, List.reverse_cons, path, Path.child]

theorem path_of_no_parent (hp : s.placements[id]? = some p) (ha : p.parent = none) :
    s.path id = Path.root := by
  rw [path, lineage_of_no_parent hp ha, List.filterMap_cons]
  simp only [stepOf, ha, Option.map_none, List.filterMap_nil, List.reverse_nil, Path.root]

theorem ancestors_of_parent (hs : s.Coherent) (hp : s.placements[id]? = some p)
    (ha : p.parent = some a) : s.ancestors id = id :: s.ancestors a := by
  rw [ancestors, lineage_of_parent hs hp ha, List.map_cons, ancestors]

theorem ancestors_of_no_parent (hp : s.placements[id]? = some p) (ha : p.parent = none) :
    s.ancestors id = [id] := by
  rw [ancestors, lineage_of_no_parent hp ha]
  rfl

theorem ancestors_eq (hs : s.Coherent) (ht : t.Coherent) (hst : Extends s t)
    (hp : s.placements[id]? = some p) : t.ancestors id = s.ancestors id := by
  induction id using Nat.strong_induction_on generalizing p with
  | _ id ih =>
      obtain ⟨r, hr, -, -, hparent, -⟩ := hst.kept hp
      cases ha : p.parent with
      | none => rw [ancestors_of_no_parent hp ha, ancestors_of_no_parent hr (hparent.trans ha)]
      | some a =>
          obtain ⟨hlt, above, -, habove, -⟩ := hs.below hp ha
          rw [ancestors_of_parent hs hp ha, ancestors_of_parent ht hr (hparent.trans ha),
            ih a hlt habove]

end Lineage

def Attached (s : Session) (id : Nat) : Prop := rootId ∈ s.ancestors id

instance (s : Session) (id : Nat) : Decidable (s.Attached id) :=
  inferInstanceAs (Decidable (rootId ∈ s.ancestors id))

theorem At.path_eq (hs : s.Coherent) (h : s.At q id) : s.path id = ⟨q⟩ := by
  induction h with
  | root =>
      obtain ⟨p, hp, -, -, hparent⟩ := hs.root
      exact path_of_no_parent hp hparent
  | child _ hp ha ih => rw [path_of_parent hs hp ha, ih, Path.child]

theorem At.attached (hs : s.Coherent) (h : s.At q id) : s.Attached id := by
  induction h with
  | root =>
      obtain ⟨p, hp, -, -, hparent⟩ := hs.root
      rw [Attached, ancestors_of_no_parent hp hparent]
      exact List.mem_cons_self
  | child _ hp ha ih =>
      rw [Attached, ancestors_of_parent hs hp ha]
      exact List.mem_cons_of_mem _ ih

theorem Attached.at_path (hs : s.Coherent) (h : s.Attached id) : s.At (s.path id).indices id := by
  induction id using Nat.strong_induction_on with
  | _ id ih =>
      cases hp : s.placements[id]? with
      | none =>
          have hnil : s.ancestors id = [] := by rw [ancestors, lineage, hp, List.map_nil]
          rw [Attached, hnil] at h
          exact absurd h List.not_mem_nil
      | some p =>
          cases ha : p.parent with
          | none =>
              rw [Attached, ancestors_of_no_parent hp ha, List.mem_singleton] at h
              subst h
              rw [path_of_no_parent hp ha]
              exact .root
          | some a =>
              have hlt := (hs.below hp ha).1
              rw [Attached, ancestors_of_parent hs hp ha, List.mem_cons] at h
              rcases h with rfl | h
              · exact nomatch (hs.parent_rootId hp).symm.trans ha
              · rw [path_of_parent hs hp ha]
                exact .child (ih a hlt h) hp ha

theorem attached_iff_of_extends (hs : s.Coherent) (ht : t.Coherent) (hst : Extends s t)
    (hp : s.placements[id]? = some p) : t.Attached id ↔ s.Attached id := by
  rw [Attached, ancestors_eq hs ht hst hp]
  rfl

section Placed

def placed (s : Session) : List (List Nat) :=
  ((List.range s.placements.size).filter fun id => s.Attached id).map fun id => (s.path id).indices

def strays (s : Session) : Nat :=
  (List.range s.placements.size).countP fun id => ¬ s.Attached id

theorem length_placed_add_strays (s : Session) :
    s.placed.length + s.strays = s.placements.size := by
  have hsplit := List.length_eq_countP_add_countP (l := List.range s.placements.size)
    fun id => decide (s.Attached id)
  rw [placed, List.length_map, ← List.countP_eq_length_filter, strays]
  simpa only [List.length_range, decide_eq_true_eq] using hsplit.symm

theorem mem_placed_iff (hs : s.Coherent) : q ∈ s.placed ↔ ∃ id, s.At q id := by
  rw [placed, List.mem_map]
  constructor
  · rintro ⟨id, hid, rfl⟩
    obtain ⟨-, ha⟩ := List.mem_filter.mp hid
    exact ⟨id, (of_decide_eq_true ha).at_path hs⟩
  · rintro ⟨id, h⟩
    have ha := decide_eq_true (h.attached hs)
    exact ⟨id, List.mem_filter.mpr ⟨List.mem_range.mpr (h.lt_size hs), ha⟩,
      congrArg Path.indices (h.path_eq hs)⟩

theorem nodup_placed (hs : s.Coherent) : s.placed.Nodup := by
  refine (List.nodup_range.filter _).map_on ?_
  intro id hid id' hid' heq
  obtain ⟨-, ha⟩ := List.mem_filter.mp hid
  obtain ⟨-, ha'⟩ := List.mem_filter.mp hid'
  have hat := (of_decide_eq_true ha).at_path hs
  rw [heq] at hat
  exact hat.id_unique hs ((of_decide_eq_true ha').at_path hs)

theorem length_placed_le (hs : s.Coherent) {qs : List (List Nat)}
    (h : ∀ q ∈ s.placed, q ∈ qs) : s.placed.length ≤ qs.length :=
  (List.subperm_of_subset (nodup_placed hs) h).length_le

theorem countP_old (hs : s.Coherent) (ht : t.Coherent) (hst : Extends s t) :
    (List.range s.placements.size).countP (fun id => ¬ t.Attached id) = s.strays := by
  refine List.countP_congr ?_
  intro id hid
  have hp := Array.getElem?_eq_getElem (List.mem_range.mp hid)
  simp only [attached_iff_of_extends hs ht hst hp]

theorem strays_of_grown (hs : s.Coherent) (ht : t.Coherent) (hst : Extends s t)
    (hsize : t.placements.size = s.placements.size + 1) :
    t.strays = s.strays + if t.Attached s.placements.size then 0 else 1 := by
  rw [strays, hsize, List.range_succ, List.countP_append, countP_old hs ht hst,
    List.countP_singleton]
  simp only [decide_eq_true_eq, ite_not]

end Placed

end Session

end LosslessSyntax
