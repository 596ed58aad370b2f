import LosslessSyntax.Proofs.Edit.Extent
import LosslessSyntax.Proofs.Edit.Substitution

namespace LosslessSyntax

namespace Edit

def gain (root : Green) (e : Edit) : Int := e.splice.gain root

def growth (root : Green) (edits : List Edit) : Int := (edits.map (gain root)).sum

def growthBefore (root : Green) (edits : List Edit) (q : List Nat) : Int :=
  growth root (edits.filter fun e => e.path.indices < q)

def growthWithin (root : Green) (edits : List Edit) (q : List Nat) : Int :=
  growth root (edits.filter fun e => q.isPrefixOf e.path.indices)

variable {root : Green} {edits : List Edit}

theorem growth_perm {others : List Edit} (h : edits.Perm others) :
    growth root edits = growth root others := by
  induction h with
  | nil => rfl
  | cons e _ ih => simpa [growth] using ih
  | swap e f es => simp [growth, Int.add_left_comm]
  | trans _ _ ih₁ ih₂ => exact ih₁.trans ih₂

theorem growth_splices : Splice.growth root (splices edits) = growth root edits := by
  rw [Splice.growth, splices, List.map_map]
  exact growth_perm (sorted_perm edits)

theorem growthBefore_splices (q : List Nat) :
    Splice.growthBefore root (splices edits) q = growthBefore root edits q := by
  rw [Splice.growthBefore, splices, List.filter_map, Splice.growth, List.map_map]
  exact growth_perm ((sorted_perm edits).filter _)

theorem growthWithin_splices (q : List Nat) :
    Splice.growthWithin root (splices edits) q = growthWithin root edits q := by
  rw [Splice.growthWithin, splices, List.filter_map, Splice.growth, List.map_map]
  exact growth_perm ((sorted_perm edits).filter _)

theorem width_add_growth_root {e : Edit} (h : e.path.isRoot = true) :
    (root.width : Int) + growth root [e] = e.replacement.width := by
  have hsplice : e.splice = ([], e.replacement) := by rw [splice, isRoot_iff.mp h]
  have hreplaced := Splice.width_add_growth_replacement root e.replacement
  rw [← hsplice] at hreplaced
  exact hreplaced

inductive Completed (root : Green) (edits : List Edit) :
    Except Failure (Session × Supply) → Prop
  | accepted {g : Green} {next rest : Supply} {new : Session} :
      g.WellFormed → g.isNode = true → (g.width : Int) = root.width + growth root edits →
      (∀ e ∈ edits, e.path.isRoot = true → e.replacement.isNode = true) →
      Session.ofRoot g next = .ok (new, rest) → Completed root edits (.ok (new, rest))
  | rootToken {e : Edit} :
      e ∈ edits → e.path.isRoot = true → e.replacement.isNode = false →
      Completed root edits (.error (.illegalShape e.replacement.kind .rootReplacedByToken))
  | tooWide {q : List Nat} {m : Green} :
      Above edits q → root.descend? q = some m →
      maxSize < m.width + growthWithin root edits q → maxSize < root.width + growth root edits →
      Completed root edits (.error (.illegalShape m.kind .widthOverflow))

theorem completed_of_root {e : Edit} (he : e.path.isRoot = true) (hr : e.replacement.WellFormed)
    (supply : Supply) :
    Completed root [e] ((Target.replaceAll root ((sorted [e]).map (target root)) supply).bind
      fun r => Session.ofRoot r.1 r.2) := by
  rw [replaceAll_root he]
  cases hnode : e.replacement.isNode with
  | true =>
      refine .accepted hr hnode (width_add_growth_root he).symm ?_ rfl
      intro f hf _
      obtain rfl := List.mem_singleton.mp hf
      exact hnode
  | false => exact .rootToken List.mem_cons_self he hnode

theorem completed_nil (hroot : root.WellFormed) (hn : root.isNode = true) (supply : Supply) :
    Completed root [] ((Target.replaceAll root ((sorted []).map (target root)) supply).bind
      fun r => Session.ofRoot r.1 r.2) :=
  .accepted hroot hn (Int.add_zero _).symm (fun _ he => absurd he List.not_mem_nil) rfl

theorem isNode_of_renew {g' : Green} {supply rest : Supply}
    (hs : Splice.Settled root (splices edits)) (hne : edits ≠ [])
    (hroots : ∀ e ∈ edits, e.path.isRoot = false)
    (h : Splice.renew root (splices edits) supply = .ok (g', rest)) : g'.isNode = true := by
  have hpaths : ∀ x ∈ splices edits, x.1 ≠ [] := by
    intro x hx hnil
    obtain ⟨e, he, rfl⟩ := mem_splices_iff.mp hx
    exact nomatch (hroots e he).symm.trans (isRoot_iff.mpr hnil)
  obtain ⟨m, m', -, hm', hrecast⟩ :=
    (Splice.renewed_of_renew hs h).rebuilt (Splice.above_nil (splices_ne_nil hne) hpaths)
  obtain rfl := Option.some.inj hm'
  exact hrecast.isNode'

theorem completed_of_renew (hroot : root.WellFormed) (hs : Splice.Settled root (splices edits))
    (hr : ∀ e ∈ edits, e.replacement.WellFormed) (hne : edits ≠ [])
    (hroots : ∀ e ∈ edits, e.path.isRoot = false) (supply : Supply) :
    Completed root edits ((Splice.renew root (splices edits) supply).bind
      fun r => Session.ofRoot r.1 r.2) := by
  have hout := Splice.outcome_of_renew hroot hs (forall_splices_replacement hr) supply
  cases hrun : Splice.renew root (splices edits) supply with
  | ok r =>
      rw [hrun] at hout
      cases hout with
      | @fits g' rest hwf hwidth =>
          rw [growth_splices] at hwidth
          exact .accepted hwf (isNode_of_renew hs hne hroots hrun) hwidth
            (fun e he h => nomatch (hroots e he).symm.trans h) rfl
  | error e =>
      rw [hrun] at hout
      cases hout with
      | spills hq hm hwithin hover =>
          rw [growthWithin_splices] at hwithin
          rw [growth_splices] at hover
          exact .tooWide (above_splices_iff.mp hq) hm hwithin hover

theorem completed_of_replaceAll (hroot : root.WellFormed) (hn : root.isNode = true)
    (hstands : ∀ e ∈ edits, e.Stands root) (hapart : edits.Pairwise Apart)
    (hr : ∀ e ∈ edits, e.replacement.WellFormed) (supply : Supply) :
    Completed root edits ((Target.replaceAll root ((sorted edits).map (target root)) supply).bind
      fun r => Session.ofRoot r.1 r.2) := by
  by_cases hroots : ∃ e ∈ edits, e.path.isRoot = true
  · obtain ⟨e, he, heroot⟩ := hroots
    obtain rfl := eq_singleton_of_isRoot hapart he heroot
    exact completed_of_root heroot (hr e he) supply
  · have hroots : ∀ e ∈ edits, e.path.isRoot = false := by
      intro e he
      exact Bool.eq_false_iff.mpr fun h => hroots ⟨e, he, h⟩
    by_cases hne : edits = []
    · subst hne
      exact completed_nil hroot hn supply
    · rw [replaceAll_splices hstands hapart hne hroots]
      exact completed_of_renew hroot (settled_splices hstands hapart) hr hne hroots supply

structure Decided (root : Green) (edits : List Edit) (r : Except Failure (Session × Supply)) :
    Prop where
  refused : ∀ pre e post, edits = pre ++ e :: post → (∀ x ∈ pre, x.Stands root) →
    ¬ e.Stands root → ∃ f, e.Refused root f ∧ r = .error f
  overlapping : (∀ e ∈ edits, e.Stands root) →
    ((∃ a b, r = .error (.rejected (.overlappingEdit a b))) ↔ ∃ e f, Overlap edits e f)
  ranges : (∀ e ∈ edits, e.Stands root) →
    ∀ a b, r = .error (.rejected (.overlappingEdit a b)) → ∃ e f, Overlap edits e f ∧
      a = root.rangeAt e.path.indices ∧ b = root.rangeAt f.path.indices
  misshapen : (∀ e ∈ edits, e.Stands root) → (¬ ∃ e f, Overlap edits e f) →
    ((∃ kind reason, r = .error (.illegalShape kind reason)) ↔
      (∃ e ∈ edits, e.path.isRoot = true ∧ e.replacement.isNode = false) ∨
        maxSize < root.width + growth root edits)
  blamed : (∀ e ∈ edits, e.Stands root) →
    ∀ kind reason, r = .error (.illegalShape kind reason) →
      (reason = .rootReplacedByToken ∧ ∃ e ∈ edits, e.path.isRoot = true ∧
        e.replacement.isNode = false ∧ kind = e.replacement.kind) ∨
      (reason = .widthOverflow ∧ ∃ q m, Above edits q ∧ root.descend? q = some m ∧
        kind = m.kind ∧ maxSize < m.width + growthWithin root edits q)
  accepted : (∀ e ∈ edits, e.Stands root) → (¬ ∃ e f, Overlap edits e f) →
    (∀ e ∈ edits, e.path.isRoot = true → e.replacement.isNode = true) →
    root.width + growth root edits ≤ maxSize → ∃ new rest, r = .ok (new, rest)

theorem first_unique {α : Type} {P : α → Prop} {as as' bs bs' : List α} {a b : α}
    (h : as ++ a :: as' = bs ++ b :: bs') (has : ∀ x ∈ as, P x) (ha : ¬ P a)
    (hbs : ∀ x ∈ bs, P x) (hb : ¬ P b) : a = b := by
  induction as generalizing bs with
  | nil =>
      cases bs with
      | nil => exact (List.cons.inj h).1
      | cons y ys => exact absurd ((List.cons.inj h).1 ▸ hbs y List.mem_cons_self) ha
  | cons x xs ih =>
      cases bs with
      | nil => exact absurd ((List.cons.inj h).1 ▸ has x List.mem_cons_self) hb
      | cons y ys =>
          exact ih (List.cons.inj h).2 (fun z hz => has z (List.mem_cons_of_mem x hz))
            (fun z hz => hbs z (List.mem_cons_of_mem y hz))

variable {r : Except Failure (Session × Supply)}

theorem decided_of_refused {pre post : List Edit} {e : Edit} {f : Failure}
    (hpre : ∀ x ∈ pre, x.Stands root) (hf : e.Refused root f) :
    Decided root (pre ++ e :: post) (.error f) := by
  have hnot : ¬ ∀ x ∈ pre ++ e :: post, x.Stands root := by
    intro h
    exact hf.not_stands (h e (List.mem_append_right pre List.mem_cons_self))
  refine ⟨?_, fun h => absurd h hnot, fun h => absurd h hnot, fun h => absurd h hnot,
    fun h => absurd h hnot, fun h => absurd h hnot⟩
  intro pre' e' post' heq hpre' he'
  obtain rfl := first_unique heq hpre hf.not_stands hpre' he'
  exact ⟨f, hf, rfl⟩

theorem no_first_refused {pre post : List Edit} {e : Edit} (h : ∀ x ∈ edits, x.Stands root)
    (heq : edits = pre ++ e :: post) : e.Stands root :=
  h e (heq ▸ List.mem_append_right pre List.mem_cons_self)

theorem decided_of_overlap {e f : Edit} (hstands : ∀ x ∈ edits, x.Stands root)
    (hef : Overlap edits e f) :
    Decided root edits (.error (.rejected (.overlappingEdit (root.rangeAt e.path.indices)
      (root.rangeAt f.path.indices)))) := by
  have hover : ∃ e f, Overlap edits e f := ⟨e, f, hef⟩
  refine ⟨fun pre e post heq _ he => absurd (no_first_refused hstands heq) he,
    fun _ => ⟨fun _ => hover, fun _ => ⟨_, _, rfl⟩⟩, ?_,
    fun _ h => absurd hover h, fun _ _ _ h => (nomatch h), fun _ h => absurd hover h⟩
  intro _ a b heq
  cases heq
  exact ⟨e, f, hef, rfl, rfl⟩

theorem decided_of_completed (hstands : ∀ x ∈ edits, x.Stands root)
    (hapart : edits.Pairwise Apart) (h : Completed root edits r) : Decided root edits r := by
  have hover : ¬ ∃ e f, Overlap edits e f := by
    rintro ⟨e, f, hef⟩
    exact not_overlap_of_pairwise_apart hapart e f hef
  have hrefused : ∀ {r' : Except Failure (Session × Supply)} pre e post,
      edits = pre ++ e :: post → (∀ x ∈ pre, x.Stands root) → ¬ e.Stands root →
      ∃ f, e.Refused root f ∧ r' = .error f := by
    intro r' pre e post heq _ he
    exact absurd (no_first_refused hstands heq) he
  cases h with
  | @accepted g next rest new hwf hn hwidth hroots ho =>
      have hfits := hwf.width_le
      refine ⟨hrefused, fun _ => ⟨fun ⟨_, _, h⟩ => (nomatch h), fun h => absurd h hover⟩,
        fun _ _ _ h => (nomatch h), fun _ _ => ⟨fun ⟨_, _, h⟩ => (nomatch h), ?_⟩,
        fun _ _ _ h => (nomatch h), fun _ _ _ _ => ⟨new, rest, rfl⟩⟩
      rintro (⟨e, he, heroot, hnode⟩ | hwide)
      · exact nomatch hnode.symm.trans (hroots e he heroot)
      · omega
  | @rootToken e he heroot hnode =>
      refine ⟨hrefused, fun _ => ⟨fun ⟨_, _, h⟩ => (nomatch h), fun h => absurd h hover⟩,
        fun _ _ _ h => (nomatch h),
        fun _ _ => ⟨fun _ => .inl ⟨e, he, heroot, hnode⟩, fun _ => ⟨_, _, rfl⟩⟩, ?_, ?_⟩
      · intro _ kind reason h
        cases h
        exact .inl ⟨rfl, e, he, heroot, hnode, rfl⟩
      · intro _ _ hroots _
        exact nomatch hnode.symm.trans (hroots e he heroot)
  | @tooWide q m hq hm hwithin hwide =>
      refine ⟨hrefused, fun _ => ⟨fun ⟨_, _, h⟩ => (nomatch h), fun h => absurd h hover⟩,
        fun _ _ _ h => (nomatch h), fun _ _ => ⟨fun _ => .inr hwide, fun _ => ⟨_, _, rfl⟩⟩,
        ?_, ?_⟩
      · intro _ kind reason h
        cases h
        exact .inr ⟨rfl, q, m, hq, hm, rfl, hwithin⟩
      · intro _ _ _ hfits
        omega

theorem apply_decided {s : Session} (hs : s.Reached) (hr : ∀ e ∈ edits, e.replacement.WellFormed)
    (supply : Supply) :
    Decided s.root edits (Nav.answer (Session.apply edits supply) s) ∨
      (Arena.capacity < s.placements.size + totalDepth edits ∧
        Nav.answer (Session.apply edits supply) s = .error (.aborted .arenaFull)) := by
  rcases Session.answer_apply_cases hs edits supply with ⟨hstands, hapart, h⟩ |
    ⟨pre, e, post, f, rfl, hpre, hf, h⟩ | ⟨hstands, e, f, hef, h⟩ | hfull
  · have hcompleted := completed_of_replaceAll hs.root_wellFormed hs.root_isNode hstands hapart hr
      supply
    rw [← h] at hcompleted
    exact .inl (decided_of_completed hstands hapart hcompleted)
  · rw [h]
    exact .inl (decided_of_refused hpre hf)
  · rw [h]
    exact .inl (decided_of_overlap hstands hef)
  · exact .inr hfull

end Edit

theorem Session.completed_of_apply {s new : Session} {edits : List Edit} {supply rest : Supply}
    (hs : s.Reached) (hr : ∀ e ∈ edits, e.replacement.WellFormed)
    (h : Nav.answer (apply edits supply) s = .ok (new, rest)) :
    Edit.Completed s.root edits (.ok (new, rest)) := by
  rcases answer_apply_cases hs edits supply with ⟨hstands, hapart, ha⟩ |
    ⟨pre, e, post, f, -, -, -, ha⟩ | ⟨-, e, f, -, ha⟩ | ⟨-, ha⟩
  · rw [← h, ha]
    exact Edit.completed_of_replaceAll hs.root_wellFormed hs.root_isNode hstands hapart hr supply
  · exact nomatch h.symm.trans ha
  · exact nomatch h.symm.trans ha
  · exact nomatch h.symm.trans ha

namespace Sample

def nested : List Edit :=
  [.atPath ⟨[2]⟩ (token 8 .invalidToken 0), .atPath ⟨[0, 0]⟩ (token 9 .identifierToken 1),
    .atPath ⟨[2, 0]⟩ (token 8 .invalidToken 0)]

theorem nested_decided : session.Reached ∧ (∀ e ∈ nested, e.replacement.WellFormed) ∧
    Edit.Decided assignment nested (Nav.answer (Session.apply nested ⟨10⟩) session) := by
  have hwf : ∀ e ∈ nested, e.replacement.WellFormed := by
    intro e he
    simp only [nested, List.mem_cons, List.not_mem_nil, or_false] at he
    rcases he with rfl | rfl | rfl <;> exact token_wellFormed _ _ (by decide)
  have hroom : ¬ Arena.capacity < session.placements.size + Edit.totalDepth nested := by decide
  exact ⟨session_reached, hwf,
    (Edit.apply_decided session_reached hwf ⟨10⟩).resolve_right fun h => hroom h.1⟩

end Sample

end LosslessSyntax
