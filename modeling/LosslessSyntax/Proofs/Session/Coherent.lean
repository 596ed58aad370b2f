import LosslessSyntax.Proofs.Session.Run
import LosslessSyntax.Session.Place

namespace LosslessSyntax

namespace Session

structure Coherent (s : Session) : Prop where
  root : ∃ p : Placement, s.placements[rootId]? = some p ∧ p.green = s.root ∧ p.offset = 0 ∧
    p.parent = none
  memo_size : ∀ {id : Nat} {p : Placement}, s.placements[id]? = some p →
    p.memo.size = p.green.children.length
  below : ∀ {id a : Nat} {p : Placement}, s.placements[id]? = some p → p.parent = some a →
    a < id ∧ ∃ (q : Placement) (start : Nat), s.placements[a]? = some q ∧
      q.green.slot? p.index = some (start, p.green) ∧ p.offset = q.offset + start ∧
      q.memo[p.index]? = some (some id)
  memoized : ∀ {a i id : Nat} {q : Placement}, s.placements[a]? = some q →
    q.memo[i]? = some (some id) →
    ∃ p : Placement, s.placements[id]? = some p ∧ p.parent = some a ∧ p.index = i

structure Extends (s t : Session) : Prop where
  stamp : t.stamp = s.stamp
  root : t.root = s.root
  size_le : s.placements.size ≤ t.placements.size
  kept : ∀ {id : Nat} {p : Placement}, s.placements[id]? = some p →
    ∃ q : Placement, t.placements[id]? = some q ∧ q.green = p.green ∧ q.offset = p.offset ∧
      q.parent = p.parent ∧ q.index = p.index

theorem Extends.refl (s : Session) : Extends s s :=
  ⟨rfl, rfl, Nat.le_refl _, fun {_ p} h => ⟨p, h, rfl, rfl, rfl, rfl⟩⟩

theorem Extends.trans {s t u : Session} (h : Extends s t) (h' : Extends t u) : Extends s u := by
  refine ⟨h'.stamp.trans h.stamp, h'.root.trans h.root, Nat.le_trans h.size_le h'.size_le, ?_⟩
  intro id p hp
  obtain ⟨q, hq, hg, ho, ha, hi⟩ := h.kept hp
  obtain ⟨r, hr, hg', ho', ha', hi'⟩ := h'.kept hq
  exact ⟨r, hr, hg'.trans hg, ho'.trans ho, ha'.trans ha, hi'.trans hi⟩

theorem lt_size_of_getElem? {s : Session} {id : Nat} {p : Placement}
    (h : s.placements[id]? = some p) : id < s.placements.size :=
  (Array.getElem?_eq_some_iff.mp h).1

theorem make_memo_ne_some (green : Green) (offset : Nat) (parent : Option Nat) (index i id : Nat) :
    (Placement.make green offset parent index).memo[i]? ≠ some (some id) := by
  simp [Placement.make, Array.getElem?_replicate]

section WithPlacement

variable {s : Session} {id : Nat} {p q : Placement}

theorem withPlacement_old (h : s.placements[id]? = some q) :
    (s.withPlacement p).placements[id]? = some q := by
  rw [withPlacement, Array.getElem?_push, if_neg (Nat.ne_of_lt (lt_size_of_getElem? h)), h]

theorem withPlacement_cases (h : (s.withPlacement p).placements[id]? = some q) :
    (id = s.placements.size ∧ q = p) ∨ s.placements[id]? = some q := by
  rw [withPlacement, Array.getElem?_push] at h
  split at h
  · exact .inl ⟨‹_›, (Option.some.inj h).symm⟩
  · exact .inr h

theorem Extends.withPlacement (s : Session) (p : Placement) : Extends s (s.withPlacement p) := by
  refine ⟨rfl, rfl, ?_, fun {_ q} h => ⟨q, withPlacement_old h, rfl, rfl, rfl, rfl⟩⟩
  rw [Session.withPlacement, Array.size_push]
  exact Nat.le_succ _

theorem Coherent.withDetached (hs : s.Coherent) (green : Green) (offset : Nat) :
    (s.withPlacement (Placement.make green offset none 0)).Coherent := by
  refine ⟨?_, ?_, ?_, ?_⟩
  · obtain ⟨r, hr, hrest⟩ := hs.root
    exact ⟨r, withPlacement_old hr, hrest⟩
  · intro id q hq
    rcases withPlacement_cases hq with ⟨-, rfl⟩ | hq
    · exact Array.size_replicate
    · exact hs.memo_size hq
  · intro id a q hq ha
    rcases withPlacement_cases hq with ⟨-, rfl⟩ | hq
    · exact nomatch ha
    · obtain ⟨hlt, r, start, hr, hrest⟩ := hs.below hq ha
      exact ⟨hlt, r, start, withPlacement_old hr, hrest⟩
  · intro a i id q hq hm
    rcases withPlacement_cases hq with ⟨-, rfl⟩ | hq
    · exact absurd hm (make_memo_ne_some _ _ _ _ _ _)
    · obtain ⟨r, hr, hrest⟩ := hs.memoized hq hm
      exact ⟨r, withPlacement_old hr, hrest⟩

end WithPlacement

section WithChild

variable {s : Session} {parent index offset : Nat} {green : Green} {p : Placement}

theorem withChild_new (hp : s.placements[parent]? = some p) :
    (s.withChild green offset parent index).placements[s.placements.size]? =
      some (Placement.make green offset (some parent) index) := by
  rw [withChild, Array.getElem?_modify, if_neg (Nat.ne_of_lt (lt_size_of_getElem? hp)),
    Array.getElem?_push_size]

theorem withChild_old (green : Green) (offset : Nat) (hp : s.placements[parent]? = some p)
    (hm : p.memo[index]? = some none) {id : Nat} {q : Placement}
    (hq : s.placements[id]? = some q) :
    ∃ memo, (s.withChild green offset parent index).placements[id]? = some { q with memo } ∧
      memo.size = q.memo.size ∧
      ∀ j, memo[j]? =
        if id = parent ∧ j = index then some (some s.placements.size) else q.memo[j]? := by
  have hlt := lt_size_of_getElem? hq
  have hold : (s.placements.push (Placement.make green offset (some parent) index))[id]? =
      some q := by
    rw [Array.getElem?_push, if_neg (Nat.ne_of_lt hlt), hq]
  rw [withChild, Array.getElem?_modify, hold]
  by_cases hid : parent = id
  · subst hid
    obtain rfl : p = q := Option.some.inj (hp.symm.trans hq)
    have hindex : index < p.memo.size := (Array.getElem?_eq_some_iff.mp hm).1
    refine ⟨p.memo.setIfInBounds index (some s.placements.size), ?_,
      Array.size_setIfInBounds, ?_⟩
    · rw [if_pos rfl, Option.map_some]
    · intro j
      rw [Array.getElem?_setIfInBounds]
      by_cases hj : index = j
      · rw [if_pos hj, if_pos hindex, if_pos ⟨rfl, hj.symm⟩]
      · rw [if_neg hj, if_neg fun h => hj h.2.symm]
  · refine ⟨q.memo, ?_, rfl, ?_⟩
    · rw [if_neg hid]
    · intro j
      rw [if_neg fun h => hid h.1.symm]

theorem withChild_cases (hp : s.placements[parent]? = some p) {id : Nat} {q : Placement}
    (hq : (s.withChild green offset parent index).placements[id]? = some q) :
    (id = s.placements.size ∧ q = Placement.make green offset (some parent) index) ∨
      ∃ r, s.placements[id]? = some r := by
  by_cases hid : id = s.placements.size
  · subst hid
    rw [withChild_new hp, Option.some.injEq] at hq
    exact .inl ⟨rfl, hq.symm⟩
  · have hlt := lt_size_of_getElem? hq
    rw [withChild, Array.size_modify, Array.size_push] at hlt
    exact .inr ⟨_, Array.getElem?_eq_getElem (by omega)⟩

theorem Extends.withChild (hp : s.placements[parent]? = some p)
    (hm : p.memo[index]? = some none) (green : Green) (offset : Nat) :
    Extends s (s.withChild green offset parent index) := by
  refine ⟨rfl, rfl, ?_, ?_⟩
  · rw [Session.withChild, Array.size_modify, Array.size_push]
    exact Nat.le_succ _
  · intro id q hq
    obtain ⟨memo, hold, -, -⟩ := withChild_old green offset hp hm hq
    exact ⟨_, hold, rfl, rfl, rfl, rfl⟩

theorem Coherent.withChild (hs : s.Coherent) (hp : s.placements[parent]? = some p)
    (hm : p.memo[index]? = some none) {start : Nat}
    (hc : p.green.slot? index = some (start, green)) :
    (s.withChild green (p.offset + start) parent index).Coherent := by
  have hold := fun {id : Nat} {q : Placement} (hq : s.placements[id]? = some q) =>
    withChild_old green (p.offset + start) hp hm hq
  refine ⟨?_, ?_, ?_, ?_⟩
  · obtain ⟨r, hr, hrest⟩ := hs.root
    obtain ⟨memo, hr', -, -⟩ := hold hr
    exact ⟨_, hr', hrest⟩
  · intro id q hq
    rcases withChild_cases hp hq with ⟨-, rfl⟩ | ⟨r, hr⟩
    · exact Array.size_replicate
    · obtain ⟨memo, hr', hsize, -⟩ := hold hr
      obtain rfl := Option.some.inj (hq.symm.trans hr')
      exact hsize.trans (hs.memo_size hr)
  · intro id a q hq ha
    rcases withChild_cases hp hq with ⟨rfl, rfl⟩ | ⟨r, hr⟩
    · obtain rfl : parent = a := Option.some.inj ha
      obtain ⟨memo, hp', -, hmemo⟩ := hold hp
      exact ⟨lt_size_of_getElem? hp, _, start, hp', hc, rfl,
        (hmemo index).trans (if_pos ⟨rfl, rfl⟩)⟩
    · obtain ⟨memo, hr', -, -⟩ := hold hr
      obtain rfl := Option.some.inj (hq.symm.trans hr')
      obtain ⟨hlt, u, first, hu, hslot, hoffset, humemo⟩ := hs.below hr ha
      obtain ⟨memo', hu', -, hmemo'⟩ := hold hu
      refine ⟨hlt, _, first, hu', hslot, hoffset, (hmemo' r.index).trans ?_⟩
      -- the entry that is filled now was empty, so it is not the one of `id`
      rw [if_neg]
      · exact humemo
      · rintro ⟨rfl, hi⟩
        obtain rfl : p = u := Option.some.inj (hp.symm.trans hu)
        rw [hi, hm] at humemo
        exact nomatch humemo
  · intro a i id q hq hi
    rcases withChild_cases hp hq with ⟨-, rfl⟩ | ⟨r, hr⟩
    · exact absurd hi (make_memo_ne_some _ _ _ _ _ _)
    · obtain ⟨memo, hr', -, hmemo⟩ := hold hr
      obtain rfl := Option.some.inj (hq.symm.trans hr')
      have hentry := (hmemo i).symm.trans hi
      by_cases hnew : a = parent ∧ i = index
      · rw [if_pos hnew, Option.some.injEq, Option.some.injEq] at hentry
        obtain ⟨rfl, rfl⟩ := hnew
        exact hentry ▸ ⟨_, withChild_new hp, rfl, rfl⟩
      · rw [if_neg hnew] at hentry
        obtain ⟨u, hu, hrest⟩ := hs.memoized hr hentry
        obtain ⟨memo', hu', -, -⟩ := hold hu
        exact ⟨_, hu', hrest⟩

end WithChild

end Session

end LosslessSyntax
