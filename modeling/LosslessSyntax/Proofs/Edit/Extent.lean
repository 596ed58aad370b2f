import LosslessSyntax.Proofs.Edit.Growth
import LosslessSyntax.Proofs.Edit.Renewal

namespace LosslessSyntax

namespace Splice

variable {g c : Green} {i j : Nat} {xs : List Splice}

def startAfter (g : Green) (xs : List Splice) (i : Nat) : Int :=
  Green.widths (g.children.take i) + growthBefore g xs [i]

theorem startAfter_zero (hpaths : ∀ x ∈ xs, x.1 ≠ []) : startAfter g xs 0 = 0 := by
  have hfilter : xs.filter (fun x => decide (x.1 < [0])) = [] := by
    rw [List.filter_eq_nil_iff]
    rintro ⟨_ | ⟨j, js⟩, r⟩ hx
    · exact absurd rfl (hpaths _ hx)
    · simp [List.cons_lt_cons_iff]
  rw [startAfter, growthBefore, hfilter]
  rfl

theorem startAfter_succ (hc : g.child? i = some c) :
    startAfter g xs (i + 1) = startAfter g xs i + (c.width + growth c (under i xs)) := by
  rw [startAfter, startAfter, Green.widths_take_succ hc, growthBefore_succ hc]
  omega

theorem startAfter_length (hg : g.WellFormed) (hn : g.isNode = true) (hs : Settled g xs)
    (hpaths : ∀ x ∈ xs, x.1 ≠ []) :
    startAfter g xs g.children.length = g.width + growth g xs := by
  have hlt : ∀ x ∈ xs, x.1 < [g.children.length] := by
    rintro ⟨_ | ⟨i, is⟩, r⟩ hx
    · exact absurd rfl (hpaths _ hx)
    · obtain ⟨c, hc⟩ := hs.exists_child hx
      exact List.cons_lt_cons_iff.mpr (.inl (List.getElem?_eq_some_iff.mp hc).1)
  rw [startAfter, List.take_length, hg.widths_children hn, growthBefore_eq_growth hlt]

theorem startAfter_le (h : ∀ {i : Nat} {c : Green}, g.child? i = some c →
      0 ≤ (c.width : Int) + growth c (under i xs))
    (hij : i ≤ j) (hj : j ≤ g.children.length) : startAfter g xs i ≤ startAfter g xs j := by
  induction hij with
  | refl => exact Int.le_refl _
  | @step j hij ih =>
      have hc : g.child? j = some g.children[j] := List.getElem?_eq_getElem hj
      have hnonneg := h hc
      have hrec := ih (Nat.le_of_succ_le hj)
      rw [Nat.succ_eq_add_one, startAfter_succ hc]
      omega

theorem width_add_growth_replacement (g r : Green) :
    (g.width : Int) + growth g [([], r)] = r.width := by
  rw [growth_cons, gain, Green.widthAt_eq (Green.descend?_nil g)]
  change (g.width : Int) + (r.width - g.width + 0) = r.width
  omega

theorem width_add_growth_nonneg (hg : g.WellFormed) (hs : Settled g xs) :
    0 ≤ (g.width : Int) + growth g xs := by
  induction hs using Settled.induction with
  | untouched g hs => exact Int.natCast_nonneg _
  | replaced g r hs =>
      rw [width_add_growth_replacement]
      exact Int.natCast_nonneg _
  | rebuilt stamp kind summary cs ds xs hs hne hpaths ih =>
      rw [← startAfter_length hg rfl hs hpaths, ← startAfter_zero hpaths]
      refine startAfter_le ?_ (Nat.zero_le _) (Nat.le_refl _)
      intro i c hc
      exact ih i c hc (hg.of_child? hc)

theorem child_le (hg : g.WellFormed) (hs : Settled g xs) (hpaths : ∀ x ∈ xs, x.1 ≠ [])
    (hc : g.child? i = some c) :
    (c.width : Int) + growth c (under i xs) ≤ g.width + growth g xs := by
  have hnonneg : ∀ {j : Nat} {d : Green}, g.child? j = some d →
      0 ≤ (d.width : Int) + growth d (under j xs) := by
    intro j d hd
    exact width_add_growth_nonneg (hg.of_child? hd) (hs.under hd)
  have hi : i < g.children.length := (List.getElem?_eq_some_iff.mp hc).1
  have hfirst := startAfter_le hnonneg (Nat.zero_le i) hi.le
  have hlast := startAfter_le hnonneg (Nat.succ_le_of_lt hi) (Nat.le_refl _)
  rw [Nat.succ_eq_add_one, startAfter_succ hc,
    startAfter_length hg (Green.isNode_of_child?_eq_some hc) hs hpaths] at hlast
  rw [startAfter_zero hpaths] at hfirst
  omega

inductive Outcome (g : Green) (xs : List Splice) : Except Failure (Green × Supply) → Prop
  | fits {g' : Green} {rest : Supply} :
      g'.WellFormed → (g'.width : Int) = g.width + growth g xs → Outcome g xs (.ok (g', rest))
  | spills {q : List Nat} {m : Green} :
      Above xs q → g.descend? q = some m → maxSize < m.width + growthWithin g xs q →
      maxSize < g.width + growth g xs →
      Outcome g xs (.error (.illegalShape m.kind .widthOverflow))

def ChildOutcomes (g : Green) (xs : List Splice) : Prop :=
  ∀ ⦃i : Nat⦄ ⦃c : Green⦄, g.child? i = some c → ∀ supply,
    Outcome c (under i xs) (renew c (under i xs) supply)

section Children

variable {c' : Green} {cs' : List Green} {σ : Nat → Supply}

theorem fits_of_chain (h : ChildOutcomes g xs) (hchain : Chain 0 g.children cs' xs σ)
    (hc : g.child? i = some c) (hc' : cs'[i]? = some c') :
    c'.WellFormed ∧ (c'.width : Int) = c.width + growth c (under i xs) := by
  obtain ⟨d, hd, hrun⟩ := hchain.renewed hc
  obtain rfl := Option.some.inj (hc'.symm.trans hd)
  have hout := h hc (σ i)
  rw [Nat.zero_add] at hrun
  rw [hrun] at hout
  cases hout with
  | fits hwf hwidth => exact ⟨hwf, hwidth⟩

theorem wellFormed_of_chain (h : ChildOutcomes g xs) (hchain : Chain 0 g.children cs' xs σ) :
    ∀ d ∈ cs', d.WellFormed := by
  intro d hd
  obtain ⟨i, hi, rfl⟩ := List.getElem_of_mem hd
  have hi' : i < g.children.length := hchain.length_eq ▸ hi
  have hc : g.child? i = some g.children[i] := List.getElem?_eq_getElem hi'
  exact (fits_of_chain h hchain hc (List.getElem?_eq_getElem hi)).1

theorem widths_take_of_chain (h : ChildOutcomes g xs) (hchain : Chain 0 g.children cs' xs σ)
    (hpaths : ∀ x ∈ xs, x.1 ≠ []) (hi : i ≤ g.children.length) :
    (Green.widths (cs'.take i) : Int) = startAfter g xs i := by
  induction i with
  | zero =>
      rw [startAfter_zero hpaths, List.take_zero, Green.widths_nil]
      rfl
  | succ i ih =>
      have hc : g.child? i = some g.children[i] := List.getElem?_eq_getElem hi
      obtain ⟨c', hc', -⟩ := hchain.renewed hc
      have hwidth := (fits_of_chain h hchain hc hc').2
      have hrec := ih (Nat.le_of_succ_le hi)
      rw [Green.widths_take_succ hc', startAfter_succ hc]
      omega

theorem widths_of_chain (h : ChildOutcomes g xs) (hchain : Chain 0 g.children cs' xs σ)
    (hg : g.WellFormed) (hn : g.isNode = true) (hs : Settled g xs)
    (hpaths : ∀ x ∈ xs, x.1 ≠ []) :
    (Green.widths cs' : Int) = g.width + growth g xs := by
  have hall := widths_take_of_chain h hchain hpaths (Nat.le_refl _)
  rw [startAfter_length hg hn hs hpaths, ← hchain.length_eq, List.take_length] at hall
  exact hall

end Children

theorem outcome_of_rebuild (h : ChildOutcomes g xs) (hg : g.WellFormed) (hs : Settled g xs)
    (hne : xs ≠ []) (hpaths : ∀ x ∈ xs, x.1 ≠ []) (supply : Supply) :
    Outcome g xs (rebuild g xs supply) := by
  have hn := hs.isNode hne hpaths
  cases g with
  | token stamp shape ds => exact nomatch hn
  | node stamp kind summary cs ds =>
      rw [rebuild]
      cases hamong : rebuildAmong 0 cs xs supply with
      | error e =>
          obtain ⟨i, c, next, hc, hrun⟩ := rebuildAmong_eq_error hamong
          rw [Nat.zero_add] at hrun
          have hc : (Green.node stamp kind summary cs ds).child? i = some c := hc
          have hout := h hc next
          have hle := child_le hg hs hpaths hc
          rw [hrun] at hout
          rw [Mint.bind_error hamong]
          cases hout with
          | @spills q m hq hm hwithin hover =>
              refine .spills (above_cons_iff.mpr hq)
                (Green.descend?_cons_eq_some_iff.mpr ⟨c, hc, hm⟩) ?_ (by omega)
              rw [growthWithin_cons_path hc]
              exact hwithin
      | ok r =>
          obtain ⟨cs', last⟩ := r
          obtain ⟨σ, hchain, -, -⟩ := rebuildAmong_eq_ok hamong
          have hcs' := wellFormed_of_chain h hchain
          have hwidths := widths_of_chain h hchain hg hn hs hpaths
          rw [Mint.bind_ok hamong, Green.assemble_eq kind hcs']
          split
          · rename_i hle
            exact .fits (.node hcs' hle) hwidths
          · refine .spills (above_nil hne hpaths) rfl ?_ (by omega)
            rw [growthWithin_nil_path]
            omega

theorem outcome_of_renew (hg : g.WellFormed) (hs : Settled g xs) (hr : ∀ x ∈ xs, x.2.WellFormed)
    (supply : Supply) : Outcome g xs (renew g xs supply) := by
  induction hs using Settled.induction generalizing supply with
  | untouched g hs => exact .fits hg (Int.add_zero _).symm
  | replaced g r hs =>
      exact .fits (hr _ List.mem_cons_self) (width_add_growth_replacement _ r).symm
  | rebuilt stamp kind summary cs ds xs hs hne hpaths ih =>
      rw [renew_eq_rebuild hne hpaths]
      refine outcome_of_rebuild ?_ hg hs hne hpaths supply
      intro i c hc next
      exact ih i c hc (hg.of_child? hc) (forall_under_replacement hr i) next

theorem childOutcomes (hg : g.WellFormed) (hs : Settled g xs) (hr : ∀ x ∈ xs, x.2.WellFormed) :
    ChildOutcomes g xs := by
  intro i c hc supply
  exact outcome_of_renew (hg.of_child? hc) (hs.under hc) (forall_under_replacement hr i) supply

theorem child_of_rebuild (hg : g.WellFormed) (hs : Settled g xs) (hr : ∀ x ∈ xs, x.2.WellFormed)
    (hne : xs ≠ []) (hpaths : ∀ x ∈ xs, x.1 ≠ []) {g' : Green} {supply rest : Supply}
    (h : rebuild g xs supply = .ok (g', rest)) (hc : g.child? i = some c) :
    ∃ c' before after, g'.child? i = some c' ∧
      (Green.widths (g'.children.take i) : Int) = startAfter g xs i ∧
      renew c (under i xs) before = .ok (c', after) := by
  have hi : i < g.children.length := (List.getElem?_eq_some_iff.mp hc).1
  have hchildren := childOutcomes hg hs hr
  cases g with
  | token stamp shape ds => exact nomatch hs.isNode hne hpaths
  | node stamp kind summary cs ds =>
      obtain ⟨cs', σ, last, hchain, -, -, ha⟩ := rebuild_node_eq_ok h
      obtain ⟨summary', rfl, -⟩ := Green.assemble_eq_ok ha
      obtain ⟨c', hc', hrun⟩ := hchain.renewed hc
      rw [Nat.zero_add] at hrun
      exact ⟨c', _, _, hc', widths_take_of_chain hchildren hchain hpaths hi.le, hrun⟩

theorem position_of_renew (hg : g.WellFormed) (hs : Settled g xs) (hr : ∀ x ∈ xs, x.2.WellFormed)
    {g' m : Green} {supply rest : Supply} (h : renew g xs supply = .ok (g', rest)) {q : List Nat}
    (hq : g.descend? q = some m) (hno : ∀ x ∈ xs, x.1 <+: q → x.1 = q) :
    (g'.offsetAt q : Int) = g.offsetAt q + growthBefore g xs q ∧
      ∃ m', g'.descend? q = some m' ∧ (m'.width : Int) = m.width + growthWithin g xs q := by
  induction q generalizing g g' xs supply rest with
  | nil =>
      obtain rfl := Option.some.inj hq
      have hout := outcome_of_renew hg hs hr supply
      rw [h] at hout
      cases hout with
      | fits hwf hwidth =>
          rw [growthBefore_nil_path, growthWithin_nil_path]
          exact ⟨rfl, g', rfl, hwidth⟩
  | cons i q ih =>
      obtain ⟨c, hc, hq⟩ := Green.descend?_cons_eq_some_iff.mp hq
      rcases hs.cases with rfl | ⟨r, rfl⟩ | ⟨hne, hpaths⟩
      · obtain ⟨rfl, -⟩ := Mint.pure_eq_ok_iff.mp h
        exact ⟨(Int.add_zero _).symm, m, Green.descend?_cons_eq_some_iff.mpr ⟨c, hc, hq⟩,
          (Int.add_zero _).symm⟩
      · exact nomatch hno _ List.mem_cons_self List.nil_prefix
      · rw [renew_eq_rebuild hne hpaths] at h
        obtain ⟨c', before, after, hc', hstart, hrenew⟩ :=
          child_of_rebuild hg hs hr hne hpaths h hc
        have hno' : ∀ x ∈ under i xs, x.1 <+: q → x.1 = q := by
          intro x hx hp
          have heq := hno _ (mem_under_iff.mp hx) (List.cons_prefix_cons.mpr ⟨rfl, hp⟩)
          exact (List.cons.inj heq).2
        obtain ⟨hoffset, m', hm', hwidth⟩ := ih (hg.of_child? hc) (hs.under hc)
          (forall_under_replacement hr i) hrenew hq hno'
        refine ⟨?_, m', Green.descend?_cons_eq_some_iff.mpr ⟨c', hc', hm'⟩, ?_⟩
        · rw [Green.offsetAt_cons hc, Green.offsetAt_cons hc', growthBefore_cons_path hc]
          rw [startAfter] at hstart
          omega
        · rw [growthWithin_cons_path hc]
          exact hwidth

end Splice

end LosslessSyntax
