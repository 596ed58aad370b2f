import LosslessSyntax.Proofs.Edit.Renewal
import LosslessSyntax.Proofs.Edit.Splice
import LosslessSyntax.Proofs.Edit.Validate
import LosslessSyntax.Proofs.Green.Sound

namespace LosslessSyntax

namespace Edit

def Above (edits : List Edit) (q : List Nat) : Prop :=
  ∃ e ∈ edits, q <+: e.path.indices ∧ q ≠ e.path.indices

def splice (e : Edit) : Splice := (e.path.indices, e.replacement)

def splices (edits : List Edit) : List Splice := (sorted edits).map splice

variable {root : Green} {edits : List Edit}

theorem mem_splices_iff {x : Splice} : x ∈ splices edits ↔ ∃ e ∈ edits, e.splice = x := by
  rw [splices, List.mem_map]
  constructor <;> rintro ⟨e, he, hx⟩
  · exact ⟨e, (sorted_perm edits).mem_iff.mp he, hx⟩
  · exact ⟨e, (sorted_perm edits).mem_iff.mpr he, hx⟩

theorem splice_mem_splices {e : Edit} (he : e ∈ edits) : e.splice ∈ splices edits :=
  mem_splices_iff.mpr ⟨e, he, rfl⟩

theorem forall_splices_replacement {P : Green → Prop} (h : ∀ e ∈ edits, P e.replacement) :
    ∀ x ∈ splices edits, P x.2 := by
  intro x hx
  obtain ⟨e, he, rfl⟩ := mem_splices_iff.mp hx
  exact h e he

theorem above_splices_iff {q : List Nat} : Splice.Above (splices edits) q ↔ Above edits q := by
  constructor
  · rintro ⟨x, hx, hq⟩
    obtain ⟨e, he, rfl⟩ := mem_splices_iff.mp hx
    exact ⟨e, he, hq⟩
  · rintro ⟨e, he, hq⟩
    exact ⟨e.splice, splice_mem_splices he, hq⟩

theorem splices_ne_nil (h : edits ≠ []) : splices edits ≠ [] := by
  obtain ⟨e, he⟩ := List.exists_mem_of_ne_nil edits h
  exact List.ne_nil_of_mem (splice_mem_splices he)

theorem settled_splices (hstands : ∀ e ∈ edits, e.Stands root) (hapart : edits.Pairwise Apart) :
    Splice.Settled root (splices edits) := by
  refine ⟨?_, ?_⟩
  · intro is r hx
    obtain ⟨e, he, heq⟩ := mem_splices_iff.mp hx
    obtain ⟨rfl, -⟩ := Prod.mk.inj heq
    exact (hstands e he).isSome
  · exact List.pairwise_map.mpr (((sorted_perm edits).pairwise_iff Apart.symm).mpr hapart)

theorem isRoot_iff {p : Path} : p.isRoot = true ↔ p.indices = [] := List.isEmpty_iff

theorem eq_singleton_of_isRoot {e : Edit} (hapart : edits.Pairwise Apart) (he : e ∈ edits)
    (hroot : e.path.isRoot = true) : edits = [e] :=
  Path.eq_singleton_of_pairwise_apart (f := fun e : Edit => e.path.indices) hapart he
    (isRoot_iff.mp hroot)

theorem replaceAll_root {e : Edit} (h : e.path.isRoot = true) :
    Target.replaceAll root ((sorted [e]).map (target root)) =
      if e.replacement.isNode then pure e.replacement
      else Mint.fail (.illegalShape e.replacement.kind .rootReplacedByToken) := by
  change Target.replaceAll root [e.target root] = _
  rw [Target.replaceAll, if_pos (show (e.target root).path.isRoot = true from h)]
  rfl

theorem below_sorted (root : Green) (edits : List Edit) :
    ((sorted edits).map (target root)).map (Target.below 0) = splices edits := by
  rw [List.map_map]
  rfl

theorem sorted_splices (edits : List Edit) : Splice.Sorted (splices edits) :=
  List.pairwise_map.mpr (sorted_pairwise edits)

theorem replaceAll_splices (hstands : ∀ e ∈ edits, e.Stands root) (hapart : edits.Pairwise Apart)
    (hne : edits ≠ []) (hroots : ∀ e ∈ edits, e.path.isRoot = false) :
    Target.replaceAll root ((sorted edits).map (target root)) =
      Splice.renew root (splices edits) := by
  have hpaths : ∀ x ∈ splices edits, x.1 ≠ [] := by
    intro x hx hnil
    obtain ⟨e, he, rfl⟩ := mem_splices_iff.mp hx
    exact Bool.eq_false_iff.mp (hroots e he) (isRoot_iff.mpr hnil)
  have hsplice : Target.splice root 0 ((sorted edits).map (target root)) =
      Splice.rebuild root (splices edits) := by
    have hbelow := below_sorted root edits
    have htargets : (sorted edits).map (target root) ≠ [] := fun hnil =>
      splices_ne_nil hne (by rw [← hbelow, hnil]; rfl)
    rw [← hbelow] at hpaths ⊢
    refine Target.splice_eq_rebuild ?_ ?_ htargets hpaths
    · exact hbelow.symm ▸ sorted_splices edits
    · exact hbelow.symm ▸ settled_splices hstands hapart
  rw [Splice.renew_eq_rebuild (splices_ne_nil hne) hpaths, ← hsplice]
  cases hs : sorted edits with
  | nil => exact absurd ((hs ▸ sorted_perm edits).nil_eq).symm hne
  | cons e es =>
      have he : e ∈ edits := (sorted_perm edits).mem_iff.mp (hs ▸ List.mem_cons_self)
      rw [List.map_cons, Target.replaceAll]
      exact if_neg (Bool.eq_false_iff.mp (hroots e he))

theorem renew_of_replaceAll (hstands : ∀ e ∈ edits, e.Stands root)
    (hapart : edits.Pairwise Apart) {g : Green} {supply rest : Supply}
    (h : Target.replaceAll root ((sorted edits).map (target root)) supply = .ok (g, rest)) :
    Splice.renew root (splices edits) supply = .ok (g, rest) := by
  by_cases hroots : ∃ e ∈ edits, e.path.isRoot = true
  · obtain ⟨e, he, heroot⟩ := hroots
    obtain rfl := eq_singleton_of_isRoot hapart he heroot
    have hsplices : splices [e] = [([], e.replacement)] := by
      rw [← isRoot_iff.mp heroot]
      rfl
    rw [replaceAll_root heroot] at h
    rw [hsplices]
    split at h
    · exact h
    · exact nomatch h
  · by_cases hne : edits = []
    · subst hne
      exact h
    · rw [← replaceAll_splices hstands hapart hne fun e he =>
        Bool.eq_false_iff.mpr fun h => hroots ⟨e, he, h⟩]
      exact h

end Edit

/-- What a batch makes of a tree. The stamps drawn for nodes are those up to the stamp of the new
session, and each stands for one path above an edited one. -/
structure Substitution (old : Green) (edits : List Edit) (supply : Supply) (new : Session)
    (rest : Supply) : Prop where
  replaced : ∀ e ∈ edits, ∀ js,
    new.root.descend? (e.path.indices ++ js) = e.replacement.descend? js
  rebuilt : ∀ q, Edit.Above edits q → ∃ m m', old.descend? q = some m ∧
    new.root.descend? q = some m' ∧ m.Recast m' ∧
    ∀ x : Green, x.Before supply → m'.same x = false
  shared : ∀ q, (∀ e ∈ edits, Path.Apart e.path.indices q) →
    new.root.descend? q = old.descend? q
  minted : Set.BijOn new.root.stampAt {q | Edit.Above edits q} (Set.Ico supply.next new.stamp)
  drawn : rest = ⟨new.stamp + 1⟩

namespace Splice

theorem Renewed.substitution {root g : Green} {edits : List Edit} {supply next rest : Supply}
    {new : Session} (h : Renewed root (Edit.splices edits) supply g next)
    (ho : Session.ofRoot g next = .ok (new, rest)) :
    Substitution root edits supply new rest := by
  cases ho
  have habove : {q | Edit.Above edits q} = {q | Above (Edit.splices edits) q} :=
    Set.ext fun q => Edit.above_splices_iff.symm
  refine ⟨?_, ?_, ?_, habove ▸ h.minted, rfl⟩
  · intro e he js
    exact h.replaced (Edit.splice_mem_splices he) js
  · intro q hq
    have hq := Edit.above_splices_iff.mpr hq
    obtain ⟨m, m', hm, hm', hrecast⟩ := h.rebuilt hq
    have hlow := (h.minted.mapsTo hq).1
    rw [Green.stampAt_eq hm'] at hlow
    refine ⟨m, m', hm, hm', hrecast, ?_⟩
    intro x hx
    have hne : ¬ m'.stamp = x.stamp := Nat.ne_of_gt (Nat.lt_of_lt_of_le hx hlow)
    rw [Green.same, beq_eq_false_iff_ne.mpr hne, Bool.and_false]
  · intro q hq
    refine h.shared ?_
    intro x hx
    obtain ⟨e, he, rfl⟩ := Edit.mem_splices_iff.mp hx
    exact hq e he

end Splice

namespace Session

theorem answer_apply_nil (s : Session) (supply : Supply) :
    Nav.answer (apply [] supply) s = ofRoot s.root supply :=
  answer_apply_of_no_conflict (show Edit.resolveAll [] s = .ok [] s from rfl) rfl supply

theorem answer_apply_root {s : Session} (hs : s.Reached) {e : Edit} (he : e.path.isRoot = true)
    (hnode : e.replacement.isNode = true)
    (hexp : ∀ x, e.expected = some x → s.root.same x = true) (supply : Supply) :
    Nav.answer (apply [e] supply) s = ofRoot e.replacement supply := by
  have hnil := Edit.isRoot_iff.mp he
  have hstands : e.Stands s.root := ⟨s.root, by rw [hnil, Green.descend?_nil], hexp⟩
  rcases answer_apply_cases hs [e] supply with ⟨-, -, h⟩ | ⟨pre, f, post, err, heq, -, hf, -⟩ |
    ⟨-, f, g, hfg, -⟩ | ⟨hfull, -⟩
  · rw [h, Edit.replaceAll_root he, if_pos hnode]
    rfl
  · have hmem : f ∈ [e] := heq ▸ List.mem_append_right pre List.mem_cons_self
    exact absurd (List.mem_singleton.mp hmem ▸ hstands) hf.not_stands
  · exact absurd hfg (Edit.not_overlap_of_pairwise_apart (List.pairwise_singleton _ _) f g)
  · have hdepth : Edit.totalDepth [e] = 0 := congrArg List.length hnil
    rw [hdepth] at hfull
    exact absurd hs.size_le (Nat.not_le.mpr hfull)

theorem renew_of_apply {s : Session} (hs : s.Reached) {edits : List Edit} {supply rest : Supply}
    {new : Session} (h : Nav.answer (apply edits supply) s = .ok (new, rest)) :
    edits.Pairwise Edit.Apart ∧ Splice.Settled s.root (Edit.splices edits) ∧
      ∃ next, Splice.renew s.root (Edit.splices edits) supply = .ok (new.root, next) ∧
        ofRoot new.root next = .ok (new, rest) := by
  rcases answer_apply_cases hs edits supply with ⟨hstands, hapart, ha⟩ |
    ⟨pre, f, post, err, -, -, -, ha⟩ | ⟨-, f, g, -, ha⟩ | ⟨-, ha⟩
  · rw [h] at ha
    cases hr : Target.replaceAll s.root ((Edit.sorted edits).map (Edit.target s.root)) supply with
    | error err =>
        rw [hr] at ha
        exact nomatch ha
    | ok r =>
        rw [hr] at ha
        obtain ⟨-, hroot⟩ := coherent_of_ofRoot ha.symm
        refine ⟨hapart, Edit.settled_splices hstands hapart, r.2, ?_, ?_⟩
        · rw [hroot]
          exact Edit.renew_of_replaceAll hstands hapart hr
        · rw [hroot]
          exact ha.symm
  · exact nomatch h.symm.trans ha
  · exact nomatch h.symm.trans ha
  · exact nomatch h.symm.trans ha

theorem substitution_of_apply {s : Session} (hs : s.Reached) {edits : List Edit}
    {supply rest : Supply} {new : Session}
    (h : Nav.answer (apply edits supply) s = .ok (new, rest)) :
    Substitution s.root edits supply new rest := by
  obtain ⟨-, hsettled, next, hrenew, ho⟩ := renew_of_apply hs h
  exact (Splice.renewed_of_renew hsettled hrenew).substitution ho

theorem apply_substitutes {s : Session} (hs : s.Reached) (edits : List Edit) (supply : Supply) :
    (∀ new rest, Nav.answer (apply edits supply) s = .ok (new, rest) →
        Substitution s.root edits supply new rest) ∧
      (∀ e, edits = [e] → e.path.isRoot = true → e.replacement.isNode = true →
        (∀ x, e.expected = some x → s.root.same x = true) →
        ∃ new, Nav.answer (apply edits supply) s = .ok (new, ⟨supply.next + 1⟩) ∧
          new.root = e.replacement) ∧
      (edits = [] →
        ∃ new, Nav.answer (apply edits supply) s = .ok (new, ⟨supply.next + 1⟩) ∧
          new.root = s.root) := by
  refine ⟨?_, ?_, ?_⟩
  · intro new rest h
    exact substitution_of_apply hs h
  · rintro e rfl he hnode hexp
    exact ⟨_, answer_apply_root hs he hnode hexp supply, rfl⟩
  · rintro rfl
    exact ⟨_, answer_apply_nil s supply, rfl⟩

end Session

namespace Sample

def token (stamp : Nat) (kind : Kind) (text : Nat) : Green :=
  .token stamp ⟨kind, 0, text, 0, false⟩ []

def node (stamp : Nat) (kind : Kind) (cs : List Green) : Green :=
  .node stamp kind (Green.summarize cs []) cs []

def assignment : Green :=
  node 6 .assignmentStatement
    [node 1 .simpleNameReference [token 0 .identifierToken 1], token 2 .equalToken 1,
      node 4 .numericLiteral [token 3 .decimalIntegerLiteralToken 2], token 5 .semicolonToken 1]

theorem token_wellFormed (stamp : Nat) (kind : Kind) {text : Nat} (h : text ≤ maxSize) :
    (token stamp kind text).WellFormed :=
  .token (by simpa [TokenShape.width] using h) fun h => nomatch h

theorem assignment_wellFormed : assignment.WellFormed := by
  refine .node ?_ (by decide)
  intro c hc
  simp only [List.mem_cons, List.not_mem_nil, or_false] at hc
  rcases hc with rfl | rfl | rfl | rfl
  · exact .node (List.forall_mem_singleton.mpr (token_wellFormed _ _ (by decide))) (by decide)
  · exact token_wellFormed _ _ (by decide)
  · exact .node (List.forall_mem_singleton.mpr (token_wellFormed _ _ (by decide))) (by decide)
  · exact token_wellFormed _ _ (by decide)

def session : Session where
  stamp := 7
  root := assignment
  placements := #[Placement.make assignment 0 none 0]

theorem session_reached : session.Reached := by
  have ho : Session.ofRoot assignment ⟨7⟩ = .ok (session, ⟨8⟩) := rfl
  exact .opened assignment_wellFormed rfl ho

def edits : List Edit :=
  [.atPath ⟨[2, 0]⟩ (token 8 .decimalIntegerLiteralToken 3),
    .atPath ⟨[0, 0]⟩ (token 9 .identifierToken 1)]

theorem edits_accepted : (Nav.answer (Session.apply edits ⟨10⟩) session).isOk = true := by
  decide +kernel

theorem edits_substituted : session.Reached ∧ ∃ new rest,
    Nav.answer (Session.apply edits ⟨10⟩) session = .ok (new, rest) ∧
      Substitution assignment edits ⟨10⟩ new rest := by
  refine ⟨session_reached, ?_⟩
  cases h : Nav.answer (Session.apply edits ⟨10⟩) session with
  | error e => exact absurd edits_accepted (by rw [h]; exact Bool.false_ne_true)
  | ok r =>
      exact ⟨r.1, r.2, rfl, (Session.apply_substitutes session_reached edits ⟨10⟩).1 r.1 r.2 h⟩

end Sample

end LosslessSyntax
