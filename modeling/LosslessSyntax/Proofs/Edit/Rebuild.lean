import LosslessSyntax.Edit
import LosslessSyntax.Proofs.Green.Descent
import LosslessSyntax.Proofs.Green.Mint
import LosslessSyntax.Proofs.Green.WellFormed
import LosslessSyntax.Proofs.Path.Order

namespace LosslessSyntax

abbrev Splice := List Nat × Green

namespace Splice

def below (index : Nat) : Splice → Option Splice
  | (i :: is, g) => if i = index then some (is, g) else none
  | ([], _) => none

mutual

def rebuild : Green → List Splice → Mint Green
  | .token i s ds, _ => pure (.token i s ds)
  | .node _ kind _ cs ds, splices => do
      let cs ← rebuildAmong 0 cs splices
      Green.assemble kind cs ds

def rebuildAmong (index : Nat) : List Green → List Splice → Mint (List Green)
  | [], _ => pure []
  | c :: cs, splices => do
      let c ← match splices.filterMap (below index) with
        | [] => pure c
        | ([], replacement) :: _ => pure replacement
        | deeper => rebuild c deeper
      let cs ← rebuildAmong (index + 1) cs splices
      pure (c :: cs)

end

def renew (c : Green) : List Splice → Mint Green
  | [] => pure c
  | ([], replacement) :: _ => pure replacement
  | deeper => rebuild c deeper

theorem renew_eq_rebuild {g : Green} {xs : List Splice} (hne : xs ≠ [])
    (hpaths : ∀ x ∈ xs, x.1 ≠ []) : renew g xs = rebuild g xs := by
  rcases xs with _ | ⟨⟨_ | ⟨i, is⟩, r⟩, rest⟩
  · exact absurd rfl hne
  · exact absurd rfl (hpaths _ List.mem_cons_self)
  · rfl

def under (index : Nat) (xs : List Splice) : List Splice := xs.filterMap (below index)

theorem rebuildAmong_cons (index : Nat) (c : Green) (cs : List Green) (xs : List Splice) :
    rebuildAmong index (c :: cs) xs = (do
      let c ← renew c (under index xs)
      let cs ← rebuildAmong (index + 1) cs xs
      pure (c :: cs)) := by
  rw [rebuildAmong, under]
  rcases xs.filterMap (below index) with _ | ⟨⟨_ | ⟨i, is⟩, r⟩, rest⟩ <;> rfl

theorem below_eq_some_iff {index : Nat} {x y : Splice} :
    below index x = some y ↔ x = (index :: y.1, y.2) := by
  obtain ⟨_ | ⟨i, is⟩, r⟩ := x
  · simp [below]
  · obtain ⟨js, u⟩ := y
    simp [below, and_assoc]

theorem mem_under_iff {index : Nat} {is : List Nat} {r : Green} {xs : List Splice} :
    (is, r) ∈ under index xs ↔ (index :: is, r) ∈ xs := by
  simp [under, List.mem_filterMap, below_eq_some_iff]

theorem pairwise_under {R : List Nat → List Nat → Prop} {index : Nat} {xs : List Splice}
    (h : xs.Pairwise fun x y => R x.1 y.1)
    (hcons : ∀ is js, R (index :: is) (index :: js) → R is js) :
    (under index xs).Pairwise fun x y => R x.1 y.1 := by
  refine h.filterMap _ ?_
  intro x y hxy x' hx y' hy
  rw [below_eq_some_iff] at hx hy
  rw [hx, hy] at hxy
  exact hcons _ _ hxy

theorem forall_under_replacement {P : Green → Prop} {xs : List Splice} (h : ∀ x ∈ xs, P x.2)
    (index : Nat) : ∀ x ∈ under index xs, P x.2 := by
  intro x hx
  exact h (index :: x.1, x.2) (mem_under_iff.mp hx)

structure Settled (g : Green) (xs : List Splice) : Prop where
  leads : ∀ {is : List Nat} {r : Green}, (is, r) ∈ xs → (g.descend? is).isSome
  apart : xs.Pairwise fun x y => Path.Apart x.1 y.1

namespace Settled

variable {g c : Green} {i : Nat} {xs : List Splice}

theorem under (h : Settled g xs) (hc : g.child? i = some c) : Settled c (under i xs) := by
  refine ⟨?_, ?_⟩
  · intro is r hmem
    have hsome := h.leads (mem_under_iff.mp hmem)
    rw [Green.descend?_cons, hc, Option.bind_some] at hsome
    exact hsome
  · refine pairwise_under h.apart ?_
    intro is js hxy
    exact ⟨fun hp => hxy.1 (List.cons_prefix_cons.mpr ⟨rfl, hp⟩),
      fun hp => hxy.2 (List.cons_prefix_cons.mpr ⟨rfl, hp⟩)⟩

theorem exists_child {is : List Nat} {r : Green} (h : Settled g xs) (hmem : (i :: is, r) ∈ xs) :
    ∃ c, g.child? i = some c := by
  have hsome := h.leads hmem
  rw [Green.descend?_cons] at hsome
  exact Option.isSome_iff_exists.mp (Option.isSome_of_isSome_bind hsome)

theorem isNode (h : Settled g xs) (hne : xs ≠ []) (hpaths : ∀ x ∈ xs, x.1 ≠ []) :
    g.isNode = true := by
  obtain ⟨⟨path, r⟩, hx⟩ := List.exists_mem_of_ne_nil xs hne
  cases path with
  | nil => exact absurd rfl (hpaths _ hx)
  | cons i is =>
      obtain ⟨c, hc⟩ := h.exists_child hx
      exact Green.isNode_of_child?_eq_some hc

theorem eq_singleton {r : Green} (h : Settled g xs) (hmem : ([], r) ∈ xs) : xs = [([], r)] :=
  Path.eq_singleton_of_pairwise_apart h.apart hmem rfl

theorem cases (h : Settled g xs) :
    xs = [] ∨ (∃ r, xs = [([], r)]) ∨ (xs ≠ [] ∧ ∀ x ∈ xs, x.1 ≠ []) := by
  rcases xs with _ | ⟨⟨_ | ⟨i, is⟩, r⟩, rest⟩
  · exact .inl rfl
  · exact .inr (.inl ⟨r, h.eq_singleton List.mem_cons_self⟩)
  · refine .inr (.inr ⟨List.cons_ne_nil _ _, ?_⟩)
    rintro ⟨path, u⟩ hmem rfl
    have heq := h.eq_singleton hmem
    simp at heq

theorem induction {motive : (g : Green) → (xs : List Splice) → Settled g xs → Prop}
    (untouched : ∀ g (h : Settled g []), motive g [] h)
    (replaced : ∀ g r (h : Settled g [([], r)]), motive g [([], r)] h)
    (rebuilt : ∀ stamp kind summary cs ds xs (h : Settled (.node stamp kind summary cs ds) xs),
      xs ≠ [] → (∀ x ∈ xs, x.1 ≠ []) →
      (∀ i c (hc : cs[i]? = some c), motive c (Splice.under i xs) (h.under hc)) →
      motive (.node stamp kind summary cs ds) xs h)
    (h : Settled g xs) : motive g xs h := by
  induction g generalizing xs with
  | token stamp shape ds =>
      rcases h.cases with rfl | ⟨r, rfl⟩ | ⟨hne, hpaths⟩
      · exact untouched _ h
      · exact replaced _ r h
      · exact nomatch h.isNode hne hpaths
  | node stamp kind summary cs ds ih =>
      rcases h.cases with rfl | ⟨r, rfl⟩ | ⟨hne, hpaths⟩
      · exact untouched _ h
      · exact replaced _ r h
      · refine rebuilt _ _ _ _ _ xs h hne hpaths ?_
        intro i c hc
        exact ih c (List.mem_of_getElem? hc) (h.under hc)

end Settled

structure Chain (index : Nat) (cs cs' : List Green) (xs : List Splice) (σ : Nat → Supply) :
    Prop where
  length_eq : cs'.length = cs.length
  renewed : ∀ {i : Nat} {c : Green}, cs[i]? = some c → ∃ c', cs'[i]? = some c' ∧
    renew c (under (index + i) xs) (σ i) = .ok (c', σ (i + 1))

theorem rebuildAmong_eq_ok {index : Nat} {cs cs' : List Green} {xs : List Splice}
    {supply rest : Supply} (h : rebuildAmong index cs xs supply = .ok (cs', rest)) :
    ∃ σ, Chain index cs cs' xs σ ∧ σ 0 = supply ∧ σ cs.length = rest := by
  induction cs generalizing index supply cs' with
  | nil =>
      cases h
      exact ⟨fun _ => rest, ⟨rfl, fun hc => nomatch hc⟩, rfl, rfl⟩
  | cons c cs ih =>
      rw [rebuildAmong_cons] at h
      obtain ⟨c', next, hc, h⟩ := Mint.bind_eq_ok_iff.mp h
      obtain ⟨ds, last, hcs, h⟩ := Mint.bind_eq_ok_iff.mp h
      obtain ⟨rfl, rfl⟩ := Mint.pure_eq_ok_iff.mp h
      obtain ⟨σ, hchain, hfirst, hlast⟩ := ih hcs
      refine ⟨fun i => if i = 0 then supply else σ (i - 1), ⟨?_, ?_⟩, rfl, ?_⟩
      · rw [List.length_cons, List.length_cons, hchain.length_eq]
      · intro i d hd
        cases i with
        | zero =>
            obtain rfl : c = d := Option.some.inj hd
            refine ⟨c', rfl, ?_⟩
            simp only [Nat.add_zero, if_true, Nat.zero_add, Nat.one_ne_zero, if_false,
              Nat.sub_self, hfirst]
            exact hc
        | succ i =>
            obtain ⟨d', hd', hrun⟩ := hchain.renewed (i := i) hd
            refine ⟨d', hd', ?_⟩
            simp only [Nat.add_one_ne_zero, if_false, Nat.add_sub_cancel]
            rw [← Nat.add_assoc, Nat.add_right_comm]
            exact hrun
      · simp only [List.length_cons, Nat.add_one_ne_zero, if_false, Nat.add_sub_cancel]
        exact hlast

theorem rebuildAmong_eq_error {index : Nat} {cs : List Green} {xs : List Splice}
    {supply : Supply} {e : Failure} (h : rebuildAmong index cs xs supply = .error e) :
    ∃ i c next, cs[i]? = some c ∧ renew c (under (index + i) xs) next = .error e := by
  induction cs generalizing index supply with
  | nil => exact nomatch h
  | cons c cs ih =>
      rw [rebuildAmong_cons] at h
      rcases Mint.bind_eq_error_iff.mp h with hc | ⟨c', next, -, h⟩
      · exact ⟨0, c, supply, rfl, hc⟩
      · rcases Mint.bind_eq_error_iff.mp h with hcs | ⟨ds, last, -, h⟩
        · obtain ⟨i, d, next', hd, hrun⟩ := ih hcs
          refine ⟨i + 1, d, next', hd, ?_⟩
          rw [← Nat.add_assoc, Nat.add_right_comm]
          exact hrun
        · exact nomatch h

theorem rebuild_node_eq_ok {stamp : Nat} {kind : Kind} {summary : Summary} {cs : List Green}
    {ds : List Diagnostic} {xs : List Splice} {g' : Green} {supply rest : Supply}
    (h : rebuild (.node stamp kind summary cs ds) xs supply = .ok (g', rest)) :
    ∃ cs' σ last, Chain 0 cs cs' xs σ ∧ σ 0 = supply ∧ σ cs.length = last ∧
      Green.assemble kind cs' ds last = .ok (g', rest) := by
  rw [rebuild] at h
  obtain ⟨cs', last, hcs, h⟩ := Mint.bind_eq_ok_iff.mp h
  obtain ⟨σ, hchain, hfirst, hlast⟩ := rebuildAmong_eq_ok hcs
  exact ⟨cs', σ, last, hchain, hfirst, hlast, h⟩

end Splice

end LosslessSyntax
