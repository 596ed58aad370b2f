import LosslessSyntax.Proofs.Edit.Conflict
import LosslessSyntax.Proofs.Session.Resolve

namespace LosslessSyntax

namespace Edit

def Stands (root : Green) (e : Edit) : Prop :=
  ∃ g, root.descend? e.path.indices = some g ∧ ∀ x, e.expected = some x → g.same x = true

inductive Refused (root : Green) (e : Edit) : Failure → Prop
  | unresolved {k : Nat} :
      k < e.path.depth → (root.descend? (e.path.indices.take k)).isSome →
      root.descend? (e.path.indices.take (k + 1)) = none →
      Refused root e (.rejected (.invalidPath e.path k))
  | stale {g x : Green} :
      root.descend? e.path.indices = some g → e.expected = some x → g.same x = false →
      Refused root e (.illegalShape g.kind (.staleTarget e.path))

theorem Refused.not_stands {root : Green} {e : Edit} {f : Failure} (h : Refused root e f) :
    ¬ e.Stands root := by
  rintro ⟨g, hg, hx⟩
  cases h with
  | @unresolved k hk hsome hnone =>
      have hpart := Green.isSome_descend?_of_leads (List.take_prefix (k + 1) e.path.indices)
        (Option.isSome_iff_exists.mpr ⟨g, hg⟩)
      rw [hnone] at hpart
      exact nomatch hpart
  | stale hg' hexp hsame =>
      obtain rfl := Option.some.inj (hg.symm.trans hg')
      exact nomatch (hx _ hexp).symm.trans hsame

def target (root : Green) (e : Edit) : Target :=
  ⟨e.path, root.rangeAt e.path.indices, e.replacement⟩

def totalDepth (edits : List Edit) : Nat := (edits.map fun e => e.path.depth).sum

theorem textRange_of_holds {s : Session} {root : Green} {is : List Nat} {m : Green} {id : Nat}
    (hroot : root.WellFormed) (hm : root.descend? is = some m)
    (hid : s.Holds id m (root.offsetAt is)) :
    ∃ p, s.placements[id]? = some p ∧ p.green = m ∧ p.textRange = .ok (root.rangeAt is) := by
  obtain ⟨p, hp, hg, ho⟩ := hid
  have hle := Green.offsetAt_add_width_le hroot hm
  have hmax := hroot.width_le
  have hwidth := (hroot.of_descend? hm).checkedWidth_eq
  refine ⟨p, hp, hg, ?_⟩
  have hrange : Checked.rangeOfLength (root.offsetAt is) m.width = .ok (root.rangeAt is) := by
    rw [Checked.rangeOfLength, TextRange.ofLength?, if_pos (by omega)]
    simp only [Green.rangeAt, Green.widthAt_eq hm]
  rw [Placement.textRange, hg, ho, hwidth]
  exact hrange

section Resolve

variable {s t : Session} {e : Edit} {m : Green} {id : Nat}

theorem resolve_of_holds (hroot : s.root.WellFormed)
    (hm : s.root.descend? e.path.indices = some m) (ht : Session.resolve e.path s = .ok id t)
    (hid : t.Holds id m (s.root.offsetAt e.path.indices))
    (hexp : ∀ x, e.expected = some x → m.same x = true) :
    e.resolve s = .ok (e.target s.root) t := by
  obtain ⟨p, hp, hg, hrange⟩ := textRange_of_holds hroot hm hid
  have hfirst : e.resolve s = _ := Nav.bind_ok ht
  rw [Nav.bind_ok (Nav.placement_eq hp)] at hfirst
  have hlast : (Nav.ofExcept p.textRange >>= fun range =>
      (pure ⟨e.path, range, e.replacement⟩ : Nav Target)) t = .ok (e.target s.root) t := by
    rw [hrange]
    rfl
  cases hx : e.expected with
  | none =>
      rw [hx] at hfirst
      exact hfirst.trans hlast
  | some x =>
      simp only [hx, hg] at hfirst
      rw [if_pos (hexp x hx)] at hfirst
      exact hfirst.trans hlast

theorem resolve_of_stale {x : Green} (hroot : s.root.WellFormed)
    (hm : s.root.descend? e.path.indices = some m) (ht : Session.resolve e.path s = .ok id t)
    (hid : t.Holds id m (s.root.offsetAt e.path.indices)) (hx : e.expected = some x)
    (hsame : m.same x = false) :
    e.resolve s = .error (.illegalShape m.kind (.staleTarget e.path)) t := by
  obtain ⟨p, hp, rfl, -⟩ := textRange_of_holds hroot hm hid
  have hfirst : e.resolve s = _ := Nav.bind_ok ht
  rw [Nav.bind_ok (Nav.placement_eq hp)] at hfirst
  simp only [hx] at hfirst
  rw [if_neg (Bool.eq_false_iff.mp hsame)] at hfirst
  exact hfirst

end Resolve

theorem resolve_spec {s : Session} (hs : s.Reached) (e : Edit) :
    (e.Stands s.root ∧ ∃ t, e.resolve s = .ok (e.target s.root) t ∧
        Session.GrownBy e.path.depth s t) ∨
      (∃ f t, e.Refused s.root f ∧ e.resolve s = .error f t) ∨
      (∃ t, Arena.capacity < s.placements.size + e.path.depth ∧
        e.resolve s = .error (.aborted .arenaFull) t) := by
  have hroot := hs.root_wellFormed
  rcases Session.resolve_spec hs e.path with
    ⟨m, id, t, hm, ht, hgrown, hid⟩ | ⟨k, t, hk, hsome, hnone, hgrown, ht⟩ | ⟨t, hfull, ht⟩
  · by_cases hexp : ∀ x, e.expected = some x → m.same x = true
    · exact .inl ⟨⟨m, hm, hexp⟩, t, resolve_of_holds hroot hm ht hid hexp, hgrown⟩
    · obtain ⟨x, hx, hsame⟩ : ∃ x, e.expected = some x ∧ m.same x = false := by
        simpa only [not_forall, exists_prop, Bool.not_eq_true] using hexp
      exact .inr (.inl ⟨_, t, .stale hm hx hsame, resolve_of_stale hroot hm ht hid hx hsame⟩)
  · exact .inr (.inl ⟨_, t, .unresolved hk hsome hnone, Nav.bind_error ht⟩)
  · exact .inr (.inr ⟨t, hfull, Nav.bind_error ht⟩)

theorem resolveAll_spec {s : Session} (hs : s.Reached) (edits : List Edit) :
    ((∀ e ∈ edits, e.Stands s.root) ∧ ∃ t,
        resolveAll edits s = .ok (edits.map (target s.root)) t ∧
        Session.GrownBy (totalDepth edits) s t) ∨
      (∃ pre e post f t, edits = pre ++ e :: post ∧ (∀ x ∈ pre, x.Stands s.root) ∧
        e.Refused s.root f ∧ resolveAll edits s = .error f t) ∨
      (∃ t, Arena.capacity < s.placements.size + totalDepth edits ∧
        resolveAll edits s = .error (.aborted .arenaFull) t) := by
  induction edits generalizing s with
  | nil => exact .inl ⟨List.forall_mem_nil _, s, rfl, .refl hs.coherent _⟩
  | cons e es ih =>
      have htotal : totalDepth (e :: es) = e.path.depth + totalDepth es := rfl
      rcases resolve_spec hs e with ⟨hstands, t, ht, hst⟩ | ⟨f, t, hf, ht⟩ | ⟨t, hfull, ht⟩
      · have hreached : t.Reached := Nav.after_of_ok ht ▸ hs.after (Nav.Moving.resolveEdit e)
        have hroot : t.root = s.root := hst.grown.root
        have hrun : resolveAll (e :: es) s = _ := Nav.bind_ok ht
        rcases ih hreached with ⟨hall, u, hu, htu⟩ | ⟨pre, e', post, f, u, rfl, hpre, hf, hu⟩ |
          ⟨u, hfull, hu⟩
        · rw [hroot] at hall hu
          refine .inl ⟨List.forall_mem_cons.mpr ⟨hstands, hall⟩, u, ?_, htotal ▸ hst.trans htu⟩
          rw [hrun, Nav.bind_ok hu]
          rfl
        · rw [hroot] at hpre hf
          refine .inr (.inl ⟨e :: pre, e', post, f, u, rfl,
            List.forall_mem_cons.mpr ⟨hstands, hpre⟩, hf, ?_⟩)
          rw [hrun, Nav.bind_error hu]
        · refine .inr (.inr ⟨u, ?_, ?_⟩)
          · have := hst.size_le
            rw [htotal]
            omega
          · rw [hrun, Nav.bind_error hu]
      · exact .inr (.inl ⟨[], e, es, f, t, rfl, List.forall_mem_nil _, hf, Nav.bind_error ht⟩)
      · refine .inr (.inr ⟨t, ?_, Nav.bind_error ht⟩)
        rw [htotal]
        omega

def NotAfter (e f : Edit) : Prop := e.path.indices ≤ f.path.indices

instance : DecidableRel NotAfter := fun e f =>
  inferInstanceAs (Decidable (e.path.indices ≤ f.path.indices))

instance : Std.Total NotAfter := ⟨fun e f => le_total e.path.indices f.path.indices⟩

instance : IsTrans Edit NotAfter := ⟨fun _ _ _ h h' => le_trans (α := List Nat) h h'⟩

def sorted (edits : List Edit) : List Edit := edits.insertionSort NotAfter

theorem sorted_perm (edits : List Edit) : (sorted edits).Perm edits :=
  List.perm_insertionSort _ _

theorem sorted_pairwise (edits : List Edit) : (sorted edits).Pairwise NotAfter :=
  List.pairwise_insertionSort _ _

theorem sort_map_target (root : Green) (edits : List Edit) :
    Target.sort (edits.map (target root)) = (sorted edits).map (target root) := by
  rw [Target.sort_eq_insertionSort, sorted]
  exact (List.map_insertionSort NotAfter Target.NotAfter (target root) edits
    fun _ _ _ _ => Iff.rfl).symm

def Apart (e f : Edit) : Prop := Path.Apart e.path.indices f.path.indices

theorem Apart.symm {e f : Edit} (h : Apart e f) : Apart f e := Path.Apart.symm h

def Overlap (edits : List Edit) (e f : Edit) : Prop :=
  [e, f].Subperm edits ∧ e.path.isPrefixOf f.path = true

theorem not_overlap_of_pairwise_apart {edits : List Edit} (h : edits.Pairwise Apart)
    (e f : Edit) : ¬ Overlap edits e f := by
  rintro ⟨⟨l, hperm, hsub⟩, hp⟩
  have hl := (hperm.pairwise_iff Apart.symm).mp (h.sublist hsub)
  exact (List.pairwise_pair.mp hl).1 (Path.isPrefixOf_iff.mp hp)

theorem Stands.isSome {root : Green} {e : Edit} (h : e.Stands root) :
    (root.descend? e.path.indices).isSome := by
  obtain ⟨g, hg, -⟩ := h
  exact Option.isSome_iff_exists.mpr ⟨g, hg⟩

section Targets

variable {root : Green} {edits : List Edit}

theorem sharesByte_of_apart (hroot : root.WellFormed)
    (hstands : ∀ e ∈ edits, e.Stands root) {a b : Target}
    (ha : a ∈ (sorted edits).map (target root)) (hb : b ∈ (sorted edits).map (target root))
    (hab : a.Apart b) : a.range.sharesByte b.range = false := by
  obtain ⟨e, he, rfl⟩ := List.mem_map.mp ha
  obtain ⟨f, hf, rfl⟩ := List.mem_map.mp hb
  have he' := (hstands e ((sorted_perm edits).mem_iff.mp he)).isSome
  have hf' := (hstands f ((sorted_perm edits).mem_iff.mp hf)).isSome
  exact Green.not_sharesByte_rangeAt hroot he' hf' hab.1 hab.2

theorem conflict?_sort (hroot : root.WellFormed) (hstands : ∀ e ∈ edits, e.Stands root) :
    (∃ e f, Overlap edits e f ∧
        Target.conflict? (Target.sort (edits.map (target root))) =
          some (e.target root, f.target root)) ∨
      (edits.Pairwise Apart ∧
        Target.conflict? (Target.sort (edits.map (target root))) = none) := by
  have hsorted := Target.sort_pairwise (edits.map (target root))
  rw [sort_map_target] at hsorted ⊢
  cases hc : Target.conflict? ((sorted edits).map (target root)) with
  | none =>
      have hapart := List.pairwise_map.mp (Target.apart_of_conflict?_eq_none hsorted hc)
      exact .inr ⟨((sorted_perm edits).pairwise_iff Apart.symm).mp hapart, rfl⟩
  | some pair =>
      obtain ⟨t, u⟩ := pair
      obtain ⟨hp, hsub⟩ := Target.prefix_of_conflict?_eq_some hsorted
        (fun a ha b hb hab => sharesByte_of_apart hroot hstands ha hb hab) hc
      obtain ⟨l, hl, heq⟩ := List.sublist_map_iff.mp hsub
      obtain ⟨e, f, rfl⟩ : ∃ e f, l = [e, f] := by
        have hlen := congrArg List.length heq
        rw [List.length_map] at hlen
        exact List.length_eq_two.mp hlen.symm
      simp only [List.map_cons, List.map_nil, List.cons.injEq, and_true] at heq
      obtain ⟨rfl, rfl⟩ := heq
      have hsubperm : [e, f].Subperm edits := hl.subperm.trans (sorted_perm edits).subperm
      exact .inl ⟨e, f, ⟨hsubperm, Path.isPrefixOf_iff.mpr hp⟩, rfl⟩

end Targets

end Edit

namespace Session

theorem apply_of_conflict {s t : Session} {edits : List Edit} {targets : List Target}
    {a b : Target} (h : Edit.resolveAll edits s = .ok targets t)
    (hc : Target.conflict? (Target.sort targets) = some (a, b)) (supply : Supply) :
    apply edits supply s = .error (.rejected (.overlappingEdit a.range b.range)) t := by
  have hv : validate edits s = .error (.rejected (.overlappingEdit a.range b.range)) t := by
    rw [validate, Nav.bind_ok h]
    simp only [hc]
    rfl
  exact Nav.bind_error hv

theorem apply_of_no_conflict {s t : Session} {edits : List Edit} {targets : List Target}
    (h : Edit.resolveAll edits s = .ok targets t)
    (hc : Target.conflict? (Target.sort targets) = none) (supply : Supply) :
    apply edits supply s = Nav.ofExcept ((Target.replaceAll t.root (Target.sort targets)
      supply).bind fun r => ofRoot r.1 r.2) t := by
  have hv : validate edits s = .ok (Target.sort targets) t := by
    rw [validate, Nav.bind_ok h]
    simp only [hc]
    rfl
  exact Nav.bind_ok hv

theorem answer_apply_of_no_conflict {s t : Session} {edits : List Edit} {targets : List Target}
    (h : Edit.resolveAll edits s = .ok targets t)
    (hc : Target.conflict? (Target.sort targets) = none) (supply : Supply) :
    Nav.answer (apply edits supply) s =
      (Target.replaceAll t.root (Target.sort targets) supply).bind fun r => ofRoot r.1 r.2 := by
  rw [Nav.answer, apply_of_no_conflict h hc]
  exact Nav.answer_ofExcept _ t

theorem after_apply {s t : Session} {edits : List Edit} {targets : List Target}
    (h : Edit.resolveAll edits s = .ok targets t) (supply : Supply) :
    Nav.after (apply edits supply) s = t := by
  cases hc : Target.conflict? (Target.sort targets) with
  | some pair => exact Nav.after_of_error (apply_of_conflict h hc supply)
  | none =>
      rw [Nav.after, apply_of_no_conflict h hc]
      exact Nav.after_ofExcept _ t

theorem answer_apply_cases {s : Session} (hs : s.Reached) (edits : List Edit) (supply : Supply) :
    ((∀ e ∈ edits, e.Stands s.root) ∧ edits.Pairwise Edit.Apart ∧
        Nav.answer (apply edits supply) s =
          (Target.replaceAll s.root ((Edit.sorted edits).map (Edit.target s.root)) supply).bind
            fun r => ofRoot r.1 r.2) ∨
      (∃ pre e post f, edits = pre ++ e :: post ∧ (∀ x ∈ pre, x.Stands s.root) ∧
        e.Refused s.root f ∧ Nav.answer (apply edits supply) s = .error f) ∨
      ((∀ e ∈ edits, e.Stands s.root) ∧ ∃ e f, Edit.Overlap edits e f ∧
        Nav.answer (apply edits supply) s =
          .error (.rejected (.overlappingEdit (s.root.rangeAt e.path.indices)
            (s.root.rangeAt f.path.indices)))) ∨
      (Arena.capacity < s.placements.size + Edit.totalDepth edits ∧
        Nav.answer (apply edits supply) s = .error (.aborted .arenaFull)) := by
  rcases Edit.resolveAll_spec hs edits with
    ⟨hall, t, ht, hst⟩ | ⟨pre, e, post, f, t, heq, hpre, hf, ht⟩ | ⟨t, hfull, ht⟩
  · rcases Edit.conflict?_sort hs.root_wellFormed hall with ⟨e, f, hef, hc⟩ | ⟨hapart, hc⟩
    · exact .inr (.inr (.inl ⟨hall, e, f, hef,
        Nav.answer_of_error (apply_of_conflict ht hc supply)⟩))
    · have hanswer := answer_apply_of_no_conflict ht hc supply
      rw [Edit.sort_map_target, hst.grown.root] at hanswer
      exact .inl ⟨hall, hapart, hanswer⟩
  · have hv : validate edits s = .error f t := Nav.bind_error ht
    exact .inr (.inl ⟨pre, e, post, f, heq, hpre, hf, Nav.answer_of_error (Nav.bind_error hv)⟩)
  · have hv : validate edits s = .error (.aborted .arenaFull) t := Nav.bind_error ht
    exact .inr (.inr (.inr ⟨hfull, Nav.answer_of_error (Nav.bind_error hv)⟩))

end Session

end LosslessSyntax
