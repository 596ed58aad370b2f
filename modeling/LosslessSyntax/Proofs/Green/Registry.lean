import LosslessSyntax.Proofs.Edit.Rebuild
import LosslessSyntax.Proofs.Green.Sound

namespace LosslessSyntax

structure Registry where
  supply : Supply
  entry : Nat → Green

namespace Registry

structure Lists (r : Registry) (g : Green) : Prop where
  part : ∀ {q : List Nat} {m : Green}, g.descend? q = some m →
    m.Before r.supply ∧ r.entry m.stamp = m

structure Grows (r r' : Registry) : Prop where
  next_le : r.supply.next ≤ r'.supply.next
  kept : ∀ n < r.supply.next, r'.entry n = r.entry n

def enter (r : Registry) (g : Green) : Registry where
  supply := ⟨r.supply.next + 1⟩
  entry n := if n = r.supply.next then g else r.entry n

def skipTo (r : Registry) (rest : Supply) : Registry := { r with supply := rest }

variable {r r' r'' : Registry} {a b g c m : Green} {q : List Nat}

theorem Grows.refl (r : Registry) : r.Grows r := ⟨Nat.le_refl _, fun _ _ => rfl⟩

theorem Grows.trans (h : r.Grows r') (h' : r'.Grows r'') : r.Grows r'' := by
  refine ⟨Nat.le_trans h.next_le h'.next_le, ?_⟩
  intro n hn
  rw [h'.kept n (Nat.lt_of_lt_of_le hn h.next_le), h.kept n hn]

theorem grows_enter (r : Registry) (g : Green) : r.Grows (r.enter g) := by
  refine ⟨Nat.le_succ _, ?_⟩
  intro n hn
  exact if_neg (Nat.ne_of_lt hn)

theorem grows_skipTo {rest : Supply} (h : r.supply.next ≤ rest.next) : r.Grows (r.skipTo rest) :=
  ⟨h, fun _ _ => rfl⟩

theorem Lists.mono (h : r.Lists g) (hgrows : r.Grows r') : r'.Lists g := by
  refine ⟨fun {q m} hm => ?_⟩
  obtain ⟨hbefore, hentry⟩ := h.part hm
  refine ⟨Nat.lt_of_lt_of_le hbefore hgrows.next_le, ?_⟩
  rw [hgrows.kept _ hbefore, hentry]

theorem Lists.of_descend? (h : r.Lists g) (hm : g.descend? q = some m) : r.Lists m := by
  refine ⟨fun {p n} hn => h.part (q := q ++ p) ?_⟩
  rw [Green.descend?_append, hm, Option.bind_some, hn]

theorem Lists.of_mem_children (h : r.Lists g) (hc : c ∈ g.children) : r.Lists c := by
  obtain ⟨i, hi⟩ := List.getElem?_of_mem hc
  exact h.of_descend? (Green.descend?_cons_eq_some_iff.mpr ⟨c, hi, Green.descend?_nil c⟩)

theorem Lists.eq_of_stamp_eq (ha : r.Lists a) (hb : r.Lists b) (h : a.stamp = b.stamp) :
    a = b := by
  obtain ⟨-, hentry⟩ := ha.part (Green.descend?_nil a)
  obtain ⟨-, hentry'⟩ := hb.part (Green.descend?_nil b)
  rw [← hentry, ← hentry', h]

def Admits (r : Registry) (rest : Supply) (made : List Green) : Prop :=
  ∃ r' : Registry, r'.supply = rest ∧ r.Grows r' ∧ ∀ g ∈ made, r'.Lists g

theorem Admits.of_forall {made : List Green} (h : ∀ g ∈ made, r.Lists g) :
    r.Admits r.supply made :=
  ⟨r, rfl, .refl r, h⟩

theorem lists_enter (hstamp : g.stamp = r.supply.next) (hcs : ∀ c ∈ g.children, r.Lists c) :
    (r.enter g).Lists g := by
  refine ⟨fun {q m} hm => ?_⟩
  cases q with
  | nil =>
      obtain rfl := Option.some.inj hm
      exact ⟨Nat.lt_succ_of_le hstamp.le, if_pos hstamp⟩
  | cons i q =>
      obtain ⟨c, hc, hm⟩ := Green.descend?_cons_eq_some_iff.mp hm
      exact ((hcs c (List.mem_of_getElem? hc)).mono (r.grows_enter g)).part hm

end Registry

namespace Mint

variable {α β : Type} {known known' : List Green} {m : Mint α} {f : α → Mint β}
  {made : α → List Green} {made' : β → List Green}

def Registering (known : List Green) (m : Mint α) (made : α → List Green) : Prop :=
  ∀ r : Registry, (∀ g ∈ known, r.Lists g) → ∀ a rest, m r.supply = .ok (a, rest) →
    r.Admits rest (made a)

namespace Registering

theorem mono (h : Registering known m made)
    (hknown : ∀ r : Registry, (∀ g ∈ known', r.Lists g) → ∀ g ∈ known, r.Lists g) :
    Registering known' m made :=
  fun r hr => h r (hknown r hr)

theorem of_subset (h : Registering known m made) (hsub : known ⊆ known') :
    Registering known' m made :=
  h.mono fun _ hr g hg => hr g (hsub hg)

theorem pure {a : α} (h : made a ⊆ known) : Registering known (pure a : Mint α) made := by
  intro r hr b rest hrun
  obtain ⟨rfl, rfl⟩ := pure_eq_ok_iff.mp hrun
  exact .of_forall fun g hg => hr g (h hg)

theorem fail (e : Failure) : Registering known (fail e : Mint α) made :=
  fun _ _ _ _ hrun => nomatch hrun

theorem ofExcept (x : Except Failure α) : Registering known (ofExcept x) fun _ => [] := by
  intro r hr a rest hrun
  obtain ⟨-, rfl⟩ := ofExcept_eq_ok_iff.mp hrun
  exact .of_forall (List.forall_mem_nil _)

theorem bind (hm : Registering known m made)
    (hf : ∀ a, Registering (made a ++ known) (f a) made') : Registering known (m >>= f) made' := by
  intro r hr b rest hrun
  obtain ⟨a, next, hfirst, hrest⟩ := bind_eq_ok_iff.mp hrun
  obtain ⟨r', rfl, hgrows, hmade⟩ := hm r hr a next hfirst
  have hknown : ∀ g ∈ made a ++ known, r'.Lists g :=
    List.forall_mem_append.mpr ⟨hmade, fun g hg => (hr g hg).mono hgrows⟩
  obtain ⟨r'', hsupply, hgrows', hmade'⟩ := hf a r' hknown b rest hrest
  exact ⟨r'', hsupply, hgrows.trans hgrows', hmade'⟩

theorem stamped {make : Nat → Green} (hstamp : ∀ i, (make i).stamp = i)
    (hchildren : ∀ i, (make i).children ⊆ known) :
    Registering known (do let i ← Mint.stamp; Pure.pure (make i)) fun g => [g] := by
  intro r hr g rest hrun
  cases hrun
  refine ⟨r.enter (make r.supply.next), rfl, r.grows_enter _, List.forall_mem_singleton.mpr ?_⟩
  exact Registry.lists_enter (hstamp _) fun c hc => hr c (hchildren _ hc)

end Registering

end Mint

namespace Green

open Mint (Registering)

variable {cs : List Green}

theorem registering_ofShape (shape : TokenShape) :
    Registering [] (ofShape shape) fun g => [g] :=
  .stamped (fun _ => rfl) fun _ => List.nil_subset _

theorem registering_assemble (kind : Kind) (cs : List Green) (ds : List Diagnostic) :
    Registering cs (assemble kind cs ds) fun g => [g] :=
  (Registering.ofExcept _).bind fun _ =>
    .stamped (fun _ => rfl) fun _ => List.Subset.refl _

theorem registering_ofFittingChildren (kind : Kind) (cs : List Green) :
    Registering cs (ofFittingChildren kind cs) fun g => [g] := by
  intro r hr g rest hrun
  rw [ofFittingChildren] at hrun
  split at hrun
  · cases hrun
  · exact registering_assemble kind cs [] r hr g rest hrun

theorem registering_replaceChild (g : Green) (index : Nat) (replacement : Green) :
    Registering [g, replacement] (g.replaceChild index replacement) fun g => [g] := by
  refine (Registering.ofExcept _).bind fun _ => ?_
  refine (registering_assemble g.kind (g.children.set index replacement) g.diagnostics).mono ?_
  intro r hr c hc
  rcases List.mem_or_eq_of_mem_set hc with hc | rfl
  · exact (hr g (by simp)).of_mem_children hc
  · exact hr c (by simp)

theorem registering_attach (g : Green) (d : Diagnostic) :
    Registering [g] (g.attach d) fun g => [g] := by
  have hmade : Registering g.children (g.attach d) fun g => [g] := by
    cases g with
    | token stamp shape ds => exact .stamped (fun _ => rfl) fun _ => List.nil_subset _
    | node stamp kind summary cs ds => exact .stamped (fun _ => rfl) fun _ => List.Subset.refl _
  exact hmade.mono fun r hr c hc => (hr g List.mem_cons_self).of_mem_children hc

end Green

namespace Splice

open Mint (Registering)

variable {xs : List Splice} {cs : List Green}

def replacements (xs : List Splice) : List Green := xs.map Prod.snd

theorem replacements_under_subset (index : Nat) (xs : List Splice) :
    replacements (under index xs) ⊆ replacements xs := by
  intro g hg
  obtain ⟨x, hx, rfl⟩ := List.mem_map.mp hg
  exact forall_under_replacement (fun y hy => List.mem_map_of_mem hy) index x hx

theorem registering_renew {g : Green}
    (h : Registering (g :: replacements xs) (rebuild g xs) fun g => [g]) :
    Registering (g :: replacements xs) (renew g xs) fun g => [g] := by
  rcases xs with _ | ⟨⟨_ | ⟨i, is⟩, replacement⟩, xs⟩
  · exact .pure (by simp)
  · exact .pure (by simp [replacements])
  · exact h

theorem registering_rebuildAmong
    (ih : ∀ c ∈ cs, ∀ xs : List Splice,
      Registering (c :: replacements xs) (rebuild c xs) fun g => [g])
    (index : Nat) (xs : List Splice) :
    Registering (cs ++ replacements xs) (rebuildAmong index cs xs) id := by
  induction cs generalizing index with
  | nil => exact .pure (List.nil_subset _)
  | cons c cs ihcs =>
      rw [rebuildAmong_cons]
      have hsub := replacements_under_subset index xs
      refine ((registering_renew (ih c List.mem_cons_self _)).of_subset
        (List.cons_subset_cons c (List.Subset.trans hsub (List.subset_append_right _ _)))).bind fun c' => ?_
      refine ((ihcs (fun b hb => ih b (List.mem_cons_of_mem c hb)) (index + 1)).of_subset
        fun g hg => by simpa using .inr (.inr (List.mem_append.mp hg))).bind fun cs' => ?_
      exact .pure (by simp)

theorem registering_rebuild (g : Green) (xs : List Splice) :
    Registering (g :: replacements xs) (rebuild g xs) fun g => [g] := by
  induction g generalizing xs with
  | token stamp shape ds => exact .pure (by simp)
  | node stamp kind summary cs ds ih =>
      rw [rebuild]
      have hamong := (registering_rebuildAmong ih 0 xs).bind fun cs' =>
        (Green.registering_assemble kind cs' ds).of_subset (List.subset_append_left _ _)
      refine hamong.mono fun r hr => List.forall_mem_append.mpr ⟨fun c hc => ?_, fun g hg => ?_⟩
      · exact (hr _ List.mem_cons_self).of_mem_children hc
      · exact hr g (List.mem_cons_of_mem _ hg)

end Splice

end LosslessSyntax
