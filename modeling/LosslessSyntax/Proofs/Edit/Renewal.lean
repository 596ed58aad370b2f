import LosslessSyntax.Proofs.Edit.Rebuild
import Mathlib.Data.Set.Function
import Mathlib.Order.Interval.Set.Basic

namespace LosslessSyntax

namespace Green

def stampAt (g : Green) (is : List Nat) : Nat :=
  match g.descend? is with
  | none => 0
  | some m => m.stamp

theorem stampAt_eq {g m : Green} {is : List Nat} (h : g.descend? is = some m) :
    g.stampAt is = m.stamp := by
  rw [stampAt, h]

theorem stampAt_cons {g c : Green} {i : Nat} {is : List Nat} (h : g.child? i = some c) :
    g.stampAt (i :: is) = c.stampAt is := by
  simp only [stampAt, descend?_cons, h, Option.bind_some]

structure Recast (m m' : Green) : Prop where
  isNode : m.isNode = true
  isNode' : m'.isNode = true
  kind : m'.kind = m.kind
  diagnostics : m'.diagnostics = m.diagnostics
  length : m'.children.length = m.children.length

end Green

namespace Splice

def Above (xs : List Splice) (q : List Nat) : Prop := ∃ x ∈ xs, q <+: x.1 ∧ q ≠ x.1

theorem above_nil {xs : List Splice} (hne : xs ≠ []) (hpaths : ∀ x ∈ xs, x.1 ≠ []) :
    Above xs [] := by
  obtain ⟨x, hx⟩ := List.exists_mem_of_ne_nil xs hne
  exact ⟨x, hx, List.nil_prefix, (hpaths x hx).symm⟩

theorem above_cons_iff {xs : List Splice} {i : Nat} {q : List Nat} :
    Above xs (i :: q) ↔ Above (under i xs) q := by
  constructor
  · rintro ⟨⟨path, r⟩, hx, hp, hq⟩
    obtain ⟨is, rfl⟩ : ∃ is, path = i :: is := by
      obtain ⟨ks, rfl⟩ := hp
      exact ⟨q ++ ks, rfl⟩
    exact ⟨(is, r), mem_under_iff.mpr hx, (List.cons_prefix_cons.mp hp).2, fun h => hq (h ▸ rfl)⟩
  · rintro ⟨⟨is, r⟩, hx, hp, hq⟩
    exact ⟨(i :: is, r), mem_under_iff.mp hx, List.cons_prefix_cons.mpr ⟨rfl, hp⟩,
      fun h => hq (List.cons.inj h).2⟩

structure Renewed (g : Green) (xs : List Splice) (supply : Supply) (g' : Green) (rest : Supply) :
    Prop where
  replaced : ∀ {is : List Nat} {r : Green}, (is, r) ∈ xs → ∀ js,
    g'.descend? (is ++ js) = r.descend? js
  rebuilt : ∀ {q : List Nat}, Above xs q → ∃ m m', g.descend? q = some m ∧
    g'.descend? q = some m' ∧ m.Recast m'
  shared : ∀ {q : List Nat}, (∀ x ∈ xs, Path.Apart x.1 q) → g'.descend? q = g.descend? q
  next_le : supply.next ≤ rest.next
  minted : Set.BijOn g'.stampAt {q | Above xs q} (Set.Ico supply.next rest.next)

theorem Renewed.untouched (g : Green) (supply : Supply) : Renewed g [] supply g supply := by
  have habove : ∀ q, ¬ Above [] q := by
    rintro q ⟨x, hx, -⟩
    exact List.not_mem_nil hx
  refine ⟨fun hx => absurd hx List.not_mem_nil, fun hq => absurd hq (habove _), fun _ => rfl,
    Nat.le_refl _, ?_⟩
  rw [Set.eq_empty_of_forall_notMem (s := {q | Above [] q}) habove, Set.Ico_self]
  exact Set.bijOn_empty _

theorem Renewed.replacement (g r : Green) (supply : Supply) :
    Renewed g [([], r)] supply r supply := by
  have habove : ∀ q, ¬ Above [([], r)] q := by
    rintro q ⟨x, hx, hp, hq⟩
    obtain rfl := List.mem_singleton.mp hx
    exact hq (List.prefix_nil.mp hp)
  refine ⟨?_, fun hq => absurd hq (habove _), ?_, Nat.le_refl _, ?_⟩
  · intro is r hx js
    obtain ⟨rfl, rfl⟩ := Prod.mk.inj (List.mem_singleton.mp hx)
    rw [List.nil_append]
  · intro q hq
    exact absurd List.nil_prefix (hq _ List.mem_cons_self).1
  · rw [Set.eq_empty_of_forall_notMem (s := {q | Above [([], r)] q}) habove, Set.Ico_self]
    exact Set.bijOn_empty _

section Node

variable {g g' : Green} {xs : List Splice} {σ : Nat → Supply} {i j n : Nat} {q : List Nat}

structure Links (g g' : Green) (xs : List Splice) (σ : Nat → Supply) : Prop where
  recast : g.Recast g'
  stamp : g'.stamp = (σ g.children.length).next
  child : ∀ {i : Nat} {c : Green}, g.child? i = some c → ∃ c', g'.child? i = some c' ∧
    Renewed c (under i xs) (σ i) c' (σ (i + 1))

theorem exists_step {bound : Nat} (hfirst : (σ 0).next ≤ n) (hlast : n < (σ bound).next) :
    ∃ i < bound, (σ i).next ≤ n ∧ n < (σ (i + 1)).next := by
  induction bound with
  | zero => exact absurd hlast (Nat.not_lt.mpr hfirst)
  | succ bound ih =>
      by_cases h : n < (σ bound).next
      · obtain ⟨i, hi, hrest⟩ := ih h
        exact ⟨i, Nat.lt_succ_of_lt hi, hrest⟩
      · exact ⟨bound, Nat.lt_succ_self _, Nat.not_lt.mp h, hlast⟩

namespace Links

theorem next_le (h : Links g g' xs σ) (hij : i ≤ j) (hj : j ≤ g.children.length) :
    (σ i).next ≤ (σ j).next := by
  induction hij with
  | refl => exact Nat.le_refl _
  | @step j hij ih =>
      have hc : g.child? j = some g.children[j] := List.getElem?_eq_getElem hj
      obtain ⟨c', -, hrenewed⟩ := h.child hc
      exact (ih (Nat.le_of_succ_le hj)).trans hrenewed.next_le

theorem next_le_of_lt (h : Links g g' xs σ) (hij : i < j) (hj : j ≤ g.children.length) :
    (σ (i + 1)).next ≤ (σ j).next :=
  h.next_le hij hj

theorem index_eq (h : Links g g' xs σ) (hi : i < g.children.length) (hj : j < g.children.length)
    (hni : n ∈ Set.Ico (σ i).next (σ (i + 1)).next)
    (hnj : n ∈ Set.Ico (σ j).next (σ (j + 1)).next) : i = j := by
  obtain ⟨hlow, hhigh⟩ := hni
  obtain ⟨hlow', hhigh'⟩ := hnj
  rcases Nat.lt_trichotomy i j with hij | hij | hij
  · have hle := h.next_le_of_lt hij hj.le
    omega
  · exact hij
  · have hle := h.next_le_of_lt hij hi.le
    omega

theorem of_above (h : Links g g' xs σ) (hs : Settled g xs) (hq : Above xs (i :: q)) :
    ∃ c c', g.child? i = some c ∧ g'.child? i = some c' ∧
      Renewed c (under i xs) (σ i) c' (σ (i + 1)) := by
  obtain ⟨⟨path, r⟩, hx, ⟨ks, rfl⟩, -⟩ := hq
  obtain ⟨c, hc⟩ := hs.exists_child hx
  obtain ⟨c', hc', hrenewed⟩ := h.child hc
  exact ⟨c, c', hc, hc', hrenewed⟩

theorem stampAt_mem (h : Links g g' xs σ) (hs : Settled g xs) (hq : Above xs (i :: q)) :
    i < g.children.length ∧ g'.stampAt (i :: q) ∈ Set.Ico (σ i).next (σ (i + 1)).next := by
  obtain ⟨c, c', hc, hc', hrenewed⟩ := h.of_above hs hq
  rw [Green.stampAt_cons hc']
  exact ⟨(List.getElem?_eq_some_iff.mp hc).1, hrenewed.minted.mapsTo (above_cons_iff.mp hq)⟩

theorem stampAt_lt (h : Links g g' xs σ) (hs : Settled g xs) (hq : Above xs (i :: q)) :
    g'.stampAt (i :: q) < g'.stamp := by
  obtain ⟨hi, hmem⟩ := h.stampAt_mem hs hq
  rw [h.stamp]
  exact Nat.lt_of_lt_of_le hmem.2 (h.next_le_of_lt hi (Nat.le_refl _))

theorem mapsTo (h : Links g g' xs σ) (hs : Settled g xs) :
    Set.MapsTo g'.stampAt {q | Above xs q} (Set.Ico (σ 0).next (g'.stamp + 1)) := by
  rintro (_ | ⟨i, q⟩) hq
  · have hfirst := h.next_le (Nat.zero_le _) (Nat.le_refl _)
    rw [← h.stamp] at hfirst
    exact ⟨hfirst, Nat.lt_succ_self _⟩
  · obtain ⟨hi, hmem⟩ := h.stampAt_mem hs hq
    have hfirst := h.next_le (Nat.zero_le i) hi.le
    exact ⟨hfirst.trans hmem.1, Nat.lt_succ_of_lt (h.stampAt_lt hs hq)⟩

-- the stamps below different children lie in different stretches of the supply
theorem injOn (h : Links g g' xs σ) (hs : Settled g xs) :
    Set.InjOn g'.stampAt {q | Above xs q} := by
  rintro (_ | ⟨i, q⟩) hq (_ | ⟨j, q'⟩) hq' heq
  · rfl
  · exact absurd heq (h.stampAt_lt hs hq').ne'
  · exact absurd heq (h.stampAt_lt hs hq).ne
  · obtain ⟨hi, hmem⟩ := h.stampAt_mem hs hq
    obtain ⟨hj, hmem'⟩ := h.stampAt_mem hs hq'
    rw [heq] at hmem
    obtain rfl := h.index_eq hi hj hmem hmem'
    obtain ⟨c, c', -, hc', hrenewed⟩ := h.of_above hs hq
    rw [Green.stampAt_cons hc', Green.stampAt_cons hc'] at heq
    rw [hrenewed.minted.injOn (above_cons_iff.mp hq) (above_cons_iff.mp hq') heq]

theorem surjOn (h : Links g g' xs σ) (hne : xs ≠ []) (hpaths : ∀ x ∈ xs, x.1 ≠ []) :
    Set.SurjOn g'.stampAt {q | Above xs q} (Set.Ico (σ 0).next (g'.stamp + 1)) := by
  rintro n ⟨hlow, hhigh⟩
  rcases Nat.lt_succ_iff_lt_or_eq.mp hhigh with hn | rfl
  · rw [h.stamp] at hn
    obtain ⟨i, hi, hstep⟩ := exists_step hlow hn
    have hc : g.child? i = some g.children[i] := List.getElem?_eq_getElem hi
    obtain ⟨c', hc', hrenewed⟩ := h.child hc
    obtain ⟨q, hq, hstamp⟩ := hrenewed.minted.surjOn hstep
    refine ⟨i :: q, above_cons_iff.mpr hq, ?_⟩
    rw [Green.stampAt_cons hc', hstamp]
  · exact ⟨[], above_nil hne hpaths, rfl⟩

theorem shared (h : Links g g' xs σ) (hne : xs ≠ []) (hq : ∀ x ∈ xs, Path.Apart x.1 q) :
    g'.descend? q = g.descend? q := by
  cases q with
  | nil =>
      obtain ⟨x, hx⟩ := List.exists_mem_of_ne_nil xs hne
      exact absurd List.nil_prefix (hq x hx).2
  | cons i q =>
      rw [Green.descend?_cons, Green.descend?_cons]
      cases hc : g.child? i with
      | none =>
          have hi := List.getElem?_eq_none_iff.mp hc
          have hc' : g'.child? i = none := by
            rwa [Green.child?, List.getElem?_eq_none_iff, h.recast.length]
          rw [hc', Option.bind_none]
      | some c =>
          obtain ⟨c', hc', hrenewed⟩ := h.child hc
          rw [hc', Option.bind_some, Option.bind_some]
          refine hrenewed.shared ?_
          intro x hx
          have hapart := hq _ (mem_under_iff.mp hx)
          exact ⟨fun hp => hapart.1 (List.cons_prefix_cons.mpr ⟨rfl, hp⟩),
            fun hp => hapart.2 (List.cons_prefix_cons.mpr ⟨rfl, hp⟩)⟩

theorem renewed (h : Links g g' xs σ) (hs : Settled g xs) (hne : xs ≠ [])
    (hpaths : ∀ x ∈ xs, x.1 ≠ []) : Renewed g xs (σ 0) g' ⟨g'.stamp + 1⟩ := by
  refine ⟨?_, ?_, h.shared hne, ?_, h.mapsTo hs, h.injOn hs, h.surjOn hne hpaths⟩
  · rintro (_ | ⟨i, is⟩) r hx js
    · exact absurd rfl (hpaths _ hx)
    · obtain ⟨c, hc⟩ := hs.exists_child hx
      obtain ⟨c', hc', hrenewed⟩ := h.child hc
      rw [List.cons_append, Green.descend?_cons, hc', Option.bind_some]
      exact hrenewed.replaced (mem_under_iff.mpr hx) js
  · rintro (_ | ⟨i, q⟩) hq
    · exact ⟨g, g', rfl, rfl, h.recast⟩
    · obtain ⟨c, c', hc, hc', hrenewed⟩ := h.of_above hs hq
      obtain ⟨m, m', hm, hm', hrecast⟩ := hrenewed.rebuilt (above_cons_iff.mp hq)
      exact ⟨m, m', Green.descend?_cons_eq_some_iff.mpr ⟨c, hc, hm⟩,
        Green.descend?_cons_eq_some_iff.mpr ⟨c', hc', hm'⟩, hrecast⟩
  · have hfirst := h.next_le (Nat.zero_le _) (Nat.le_refl _)
    rw [← h.stamp] at hfirst
    exact Nat.le_succ_of_le hfirst

end Links

end Node

theorem renewed_of_renew {g g' : Green} {xs : List Splice} {supply rest : Supply}
    (hs : Settled g xs) (h : renew g xs supply = .ok (g', rest)) :
    Renewed g xs supply g' rest := by
  induction hs using Settled.induction generalizing supply g' rest with
  | untouched g hs =>
      obtain ⟨rfl, rfl⟩ := Mint.pure_eq_ok_iff.mp h
      exact .untouched _ _
  | replaced g r hs =>
      obtain ⟨rfl, rfl⟩ := Mint.pure_eq_ok_iff.mp h
      exact .replacement _ _ _
  | rebuilt stamp kind summary cs ds xs hs hne hpaths ih =>
      rw [renew_eq_rebuild hne hpaths] at h
      obtain ⟨cs', σ, last, hchain, rfl, rfl, ha⟩ := rebuild_node_eq_ok h
      obtain ⟨summary', rfl, rfl⟩ := Green.assemble_eq_ok ha
      refine Links.renewed ⟨⟨rfl, rfl, rfl, rfl, hchain.length_eq⟩, rfl, ?_⟩ hs hne hpaths
      intro i c hc
      obtain ⟨c', hc', hrun⟩ := hchain.renewed hc
      rw [Nat.zero_add] at hrun
      exact ⟨c', hc', ih i c hc hrun⟩

theorem path_cases (xs : List Splice) (q : List Nat) :
    (∃ x ∈ xs, ∃ js, q = x.1 ++ js) ∨ Above xs q ∨ ∀ x ∈ xs, Path.Apart x.1 q := by
  by_cases hbelow : ∃ x ∈ xs, x.1 <+: q
  · obtain ⟨x, hx, js, hq⟩ := hbelow
    exact .inl ⟨x, hx, js, hq.symm⟩
  · by_cases habove : ∃ x ∈ xs, q <+: x.1
    · obtain ⟨x, hx, hp⟩ := habove
      exact .inr (.inl ⟨x, hx, hp, fun h => hbelow ⟨x, hx, h ▸ List.prefix_rfl⟩⟩)
    · exact .inr (.inr fun x hx => ⟨fun hp => hbelow ⟨x, hx, hp⟩, fun hp => habove ⟨x, hx, hp⟩⟩)

theorem Renewed.stamp_lt {g g' : Green} {xs : List Splice} {supply rest : Supply}
    (h : Renewed g xs supply g' rest)
    (hg : ∀ q m, g.descend? q = some m → m.stamp < supply.next)
    (hxs : ∀ x ∈ xs, ∀ q m, x.2.descend? q = some m → m.stamp < supply.next)
    {q : List Nat} {m : Green} (hm : g'.descend? q = some m) : m.stamp < rest.next := by
  rcases path_cases xs q with ⟨x, hx, js, rfl⟩ | hq | hq
  · rw [h.replaced hx] at hm
    exact Nat.lt_of_lt_of_le (hxs x hx js m hm) h.next_le
  · have hmem := (h.minted.mapsTo hq).2
    rwa [Green.stampAt_eq hm] at hmem
  · rw [h.shared hq] at hm
    exact Nat.lt_of_lt_of_le (hg q m hm) h.next_le

end Splice

end LosslessSyntax
