import LosslessSyntax.Proofs.Edit.Conserve
import LosslessSyntax.Proofs.Green.Equality
import LosslessSyntax.Proofs.Green.Form

namespace LosslessSyntax

namespace Green

variable {g a b c : Green} {ds es : List Diagnostic} {d : Diagnostic} {supply rest : Supply}

section Bears

structure Bears (a : Green) (ds : List Diagnostic) (b : Green) : Prop where
  wellFormed : b.WellFormed
  sameForm : SameForm a b
  children : b.children = a.children
  diagnostics : b.diagnostics = a.diagnostics ++ ds

theorem Bears.refl (h : a.WellFormed) : Bears a [] a :=
  ⟨h, .refl a, rfl, (List.append_nil _).symm⟩

theorem Bears.trans (h : Bears a ds b) (h' : Bears b es c) : Bears a (ds ++ es) c := by
  refine ⟨h'.wellFormed, h.sameForm.trans h'.sameForm, h'.children.trans h.children, ?_⟩
  rw [h'.diagnostics, h.diagnostics, List.append_assoc]

theorem exists_attach (h : g.WellFormed) (d : Diagnostic) (supply : Supply) :
    ∃ g', g.attach d supply = .ok (g', ⟨supply.next + 1⟩) ∧ g.Bears [d] g' := by
  cases h with
  | token hw hm => exact ⟨_, rfl, .token hw hm, .token .., rfl, rfl⟩
  | @node stamp kind cs ds hcs hw =>
      refine ⟨_, attach_summarized stamp kind cs ds d supply, ?_⟩
      exact ⟨.node hcs hw, .node _ _ _ _ _ _ _ rfl, rfl, rfl⟩

theorem bears_of_attach (h : a.WellFormed) (hattach : a.attach d supply = .ok (b, rest)) :
    a.Bears [d] b := by
  obtain ⟨g, hg, hbears⟩ := exists_attach h d supply
  cases hattach.symm.trans hg
  exact hbears

theorem exists_attachAll (h : g.WellFormed) (ds : List Diagnostic) (supply : Supply) :
    ∃ g' rest, g.attachAll ds supply = .ok (g', rest) ∧ g.Bears ds g' := by
  induction ds generalizing g supply with
  | nil => exact ⟨g, supply, rfl, .refl h⟩
  | cons d ds ih =>
      obtain ⟨b, hb, hbears⟩ := exists_attach h d supply
      obtain ⟨c, rest, hc, hlater⟩ := ih hbears.wellFormed ⟨supply.next + 1⟩
      exact ⟨c, rest, (Mint.bind_ok hb).trans hc, hbears.trans hlater⟩

theorem Bears.descend?_cons (h : Bears a ds b) (i : Nat) (is : List Nat) :
    b.descend? (i :: is) = a.descend? (i :: is) := by
  rw [Green.descend?_cons, Green.descend?_cons, child?, child?, h.children]

theorem Bears.congruent (h : Bears a ds b) : a.Congruent b := by
  intro q
  cases q with
  | nil => exact .some h.sameForm
  | cons i is =>
      rw [h.descend?_cons]
      exact rel_refl .refl _

end Bears

theorem Recast.sameForm (h : a.Recast b) : SameForm a b := by
  obtain ⟨hn, hn', hkind, -, hlength⟩ := h
  cases a with
  | token stamp shape ds => exact nomatch hn
  | node stamp kind summary cs ds =>
      cases b with
      | token stamp' shape' ds' => exact nomatch hn'
      | node stamp' kind' summary' cs' ds' =>
          obtain rfl : kind' = kind := hkind
          exact .node _ _ _ _ _ _ _ hlength

section Congruent

variable {m m' : Green} {q : List Nat} {xs : List Entry}

theorem Congruent.paths_eq (h : a.Congruent b) : b.paths = a.paths := by
  refine eq_of_pairwise_lt (f := id) b.pairwise_paths a.pairwise_paths fun q => ?_
  rw [mem_paths_iff, mem_paths_iff, h.isSome_eq]

theorem Congruent.size_eq (h : a.Congruent b) : b.size = a.size := by
  rw [← length_paths, ← length_paths, h.paths_eq]

theorem Congruent.trimmedAt_eq (ha : a.WellFormed) (hb : b.WellFormed) (h : a.Congruent b)
    (hm : a.descend? q = some m) (hm' : b.descend? q = some m') :
    b.trimmedAt (q, m') = a.trimmedAt (q, m) := by
  rw [Green.trimmedAt_eq ha hm, Green.trimmedAt_eq hb hm', h.offsetAt_eq ha hb, presentLengths,
    presentLengths, (h.descend hm hm').shapes_eq]

def located (root : Green) (q : List Nat) : List LocatedDiagnostic :=
  (root.descend? q).elim [] fun m => root.locatedAt (q, m)

theorem collected_eq_located (hxs : ∀ x ∈ xs, a.descend? x.1 = some x.2) :
    a.collected xs = (xs.map Prod.fst).flatMap a.located := by
  rw [List.flatMap_map, collected]
  refine List.flatMap_congr fun x hx => ?_
  rw [located, hxs x hx]
  rfl

end Congruent

end Green

namespace Edit

variable {old mid new e m m' : Green} {p q : List Nat} {ds es : List Diagnostic} {f : Edit}

def Noting (p : List Nat) (ds : List Diagnostic) (q : List Nat) (m m' : Green) : Prop :=
  Green.SameForm m m' ∧ m'.diagnostics = m.diagnostics ++ if q = p then ds else []

theorem Noting.of_ne (hq : q ≠ p) (hform : Green.SameForm m m')
    (hds : m'.diagnostics = m.diagnostics) : Noting p ds q m m' :=
  ⟨hform, by rw [if_neg hq, List.append_nil, hds]⟩

theorem Noting.trans {m'' : Green} (h : Noting p ds q m m') (h' : Noting p es q m' m'') :
    Noting p (ds ++ es) q m m'' := by
  refine ⟨h.1.trans h'.1, ?_⟩
  rw [h'.2, h.2, List.append_assoc]
  split
  · rfl
  · rw [List.append_nil]

structure Annotated (old : Green) (p : List Nat) (ds : List Diagnostic) (new : Green) : Prop where
  wellFormed : new.WellFormed
  noting : ∀ q, Option.Rel (Noting p ds q) (old.descend? q) (new.descend? q)

namespace Annotated

theorem refl (h : old.WellFormed) (p : List Nat) : Annotated old p [] old := by
  refine ⟨h, fun q => rel_refl (fun m => ⟨.refl m, ?_⟩) _⟩
  rw [ite_self, List.append_nil]

theorem trans (h : Annotated old p ds mid) (h' : Annotated mid p es new) :
    Annotated old p (ds ++ es) new :=
  ⟨h'.wellFormed, fun q => rel_trans (h.noting q) (h'.noting q) fun _ _ _ => Noting.trans⟩

theorem congruent (h : Annotated old p ds new) : old.Congruent new :=
  fun q => rel_imp (h.noting q) fun _ _ => And.left

theorem exists_noting (h : Annotated old p ds new) (hm : old.descend? q = some m) :
    ∃ m', new.descend? q = some m' ∧ Noting p ds q m m' := by
  rcases rel_cases (h.noting q) with ⟨hnone, -⟩ | ⟨n, m', hn, hm', hnoting⟩
  · exact nomatch hnone.symm.trans hm
  · obtain rfl := Option.some.inj (hn.symm.trans hm)
    exact ⟨m', hm', hnoting⟩

section Located

variable {xs ys : List Green.Entry} (hold : old.WellFormed) (h : Annotated old p ds new)
include hold h

theorem located_of_ne (hq : q ≠ p) : new.located q = old.located q := by
  rw [Green.located, Green.located]
  rcases rel_cases (h.noting q) with ⟨hm, hm'⟩ | ⟨m, m', hm, hm', -, hds⟩
  · rw [hm, hm']
    rfl
  · have htrimmed := h.congruent.trimmedAt_eq hold h.wellFormed hm hm'
    rw [if_neg hq, List.append_nil] at hds
    rw [hm, hm', Option.elim_some, Option.elim_some, Green.locatedAt, Green.locatedAt, htrimmed,
      hds]

theorem located_self (he : old.descend? p = some e) :
    new.located p = old.locatedAt (p, e) ++ ds.map fun d => ⟨old.trimmedAt (p, e), d⟩ := by
  obtain ⟨e', he', -, hds⟩ := h.exists_noting he
  have htrimmed := h.congruent.trimmedAt_eq hold h.wellFormed he he'
  rw [if_pos rfl] at hds
  rw [Green.located, he', Option.elim_some, Green.locatedAt, Green.locatedAt, htrimmed, hds,
    List.map_append]

theorem flatMap_located (hne : ∀ x ∈ xs, x.1 ≠ p) (hxs : ∀ x ∈ xs, old.descend? x.1 = some x.2) :
    (xs.map Prod.fst).flatMap new.located = old.collected xs := by
  rw [Green.collected_eq_located hxs]
  refine List.flatMap_congr fun q hq => ?_
  obtain ⟨x, hx, rfl⟩ := List.mem_map.mp hq
  exact h.located_of_ne hold (hne x hx)

theorem collected_eq (hlisting : old.listing [] = xs ++ (p, e) :: ys) :
    new.collected (new.listing []) = old.collected xs ++
      (old.locatedAt (p, e) ++ (ds.map fun d => ⟨old.trimmedAt (p, e), d⟩) ++
        old.collected ys) := by
  have hall : ∀ x ∈ xs ++ (p, e) :: ys, old.descend? x.1 = some x.2 :=
    fun x hx => Green.descend?_of_mem_listing (Green.descend?_nil _) (hlisting ▸ hx)
  obtain ⟨hxs, hrest⟩ := List.forall_mem_append.mp hall
  obtain ⟨he, hys⟩ := List.forall_mem_cons.mp hrest
  have hpairs := old.pairwise_listing []
  rw [hlisting] at hpairs
  obtain ⟨-, htail, hbefore⟩ := List.pairwise_append.mp hpairs
  have hne : ∀ x ∈ xs, x.1 ≠ p := fun x hx => hbefore x hx (p, e) List.mem_cons_self
  have hne' : ∀ y ∈ ys, y.1 ≠ p := fun y hy => ((List.pairwise_cons.mp htail).1 y hy).symm
  -- The new tree has the paths of the old one, so that both collect along the same list.
  rw [Green.collected_eq_located fun x => Green.descend?_of_mem_listing (Green.descend?_nil _)]
  change new.paths.flatMap new.located = _
  rw [h.congruent.paths_eq, Green.paths, hlisting, List.map_append, List.map_cons,
    List.flatMap_append, List.flatMap_cons, h.flatMap_located hold hne hxs,
    h.flatMap_located hold hne' hys, h.located_self hold he]

end Located

end Annotated

theorem Edited.noting (h : Edited old [f] new) (he : old.descend? f.path.indices = some e)
    (hbears : e.Bears ds f.replacement) (q : List Nat) :
    Option.Rel (Noting f.path.indices ds q) (old.descend? q) (new.descend? q) := by
  rcases path_cases [f] q with ⟨x, hx, js, rfl⟩ | habove | hapart
  · obtain rfl := List.mem_singleton.mp hx
    rw [h.replaced x hx, Green.descend?_append, he, Option.bind_some]
    -- Only at the edited path itself is there anything new: below it the children are the same.
    cases js with
    | nil => exact .some ⟨hbears.sameForm, by rw [if_pos (List.append_nil _), hbears.diagnostics]⟩
    | cons i is =>
        rw [hbears.descend?_cons]
        exact rel_refl (fun m => .of_ne (by simp) (.refl m) rfl) _
  · obtain ⟨m, m', hm, hm', hrecast⟩ := h.rebuilt q habove
    obtain ⟨x, hx, -, hne⟩ := habove
    obtain rfl := List.mem_singleton.mp hx
    rw [hm, hm']
    exact .some (.of_ne hne hrecast.sameForm hrecast.diagnostics)
  · have hne : q ≠ f.path.indices := by
      rintro rfl
      exact (hapart f (List.mem_singleton_self f)).1 List.prefix_rfl
    rw [h.shared q hapart]
    exact rel_refl (fun m => .of_ne hne (.refl m) rfl) _

theorem Edited.annotated (h : Edited old [f] new) (he : old.descend? f.path.indices = some e)
    (hbears : e.Bears ds f.replacement) : Annotated old f.path.indices ds new :=
  ⟨h.wellFormed, h.noting he hbears⟩

end Edit

end LosslessSyntax
