import LosslessSyntax.Proofs.Edit.AnyOrder
import LosslessSyntax.Proofs.Edit.TextSplice
import LosslessSyntax.Proofs.Green.Carried
import LosslessSyntax.Proofs.Session.Collect
import LosslessSyntax.Proofs.Session.Hull

namespace LosslessSyntax

namespace Edit

variable {root old new m : Green} {edits : List Edit} {e : Edit} {q : List Nat}
  {ds : List Diagnostic}

def spares (edits : List Edit) (q : List Nat) : Bool :=
  edits.all fun e => !e.path.indices.isPrefixOf q

theorem spares_iff : spares edits q = true ↔ ∀ e ∈ edits, ¬ e.path.indices <+: q := by
  simp only [spares, List.all_eq_true, Bool.not_eq_true', ← List.isPrefixOf_iff_prefix,
    Bool.not_eq_true]

structure Conserved (old : Green) (edits : List Edit) (new : Green) : Prop where
  ordered : new.carried.Pairwise fun x y => x.1 < y.1
  spared : new.carried.filter (fun x => spares edits x.1) =
    old.carried.filter fun x => spares edits x.1
  replaced : ∀ e ∈ edits, new.carried.filter (fun x => e.path.indices.isPrefixOf x.1) =
    e.replacement.carried.map fun x => (e.path.indices ++ x.1, x.2)
  exact : ∀ x, x ∈ new.carried ↔
    (x ∈ old.carried ∧ spares edits x.1 = true) ∨
      ∃ e ∈ edits, ∃ y ∈ e.replacement.carried, x = (e.path.indices ++ y.1, y.2)

namespace Edited

theorem carried_spared (h : Edited old edits new) (hq : spares edits q = true) :
    (new.descend? q).map Green.diagnostics = (old.descend? q).map Green.diagnostics := by
  have hq := spares_iff.mp hq
  rcases path_cases edits q with ⟨e, he, js, rfl⟩ | habove | hapart
  · exact absurd (List.prefix_append _ js) (hq e he)
  · obtain ⟨m, m', hm, hm', hrecast⟩ := h.rebuilt q habove
    rw [hm, hm', Option.map_some, Option.map_some, hrecast.diagnostics]
  · rw [h.shared q hapart]

theorem mem_carried_spared (h : Edited old edits new) (hq : spares edits q = true) :
    (q, ds) ∈ new.carried ↔ (q, ds) ∈ old.carried := by
  rw [Green.mem_carried_iff, Green.mem_carried_iff, h.carried_spared hq]

theorem mem_carried_replaced (h : Edited old edits new) (he : e ∈ edits) (js : List Nat) :
    (e.path.indices ++ js, ds) ∈ new.carried ↔ (js, ds) ∈ e.replacement.carried := by
  rw [Green.mem_carried_iff, Green.mem_carried_iff, h.replaced e he]

theorem filter_spared (h : Edited old edits new) :
    new.carried.filter (fun x => spares edits x.1) =
      old.carried.filter fun x => spares edits x.1 := by
  refine eq_of_pairwise_lt (new.pairwise_carried.filter _) (old.pairwise_carried.filter _) ?_
  rintro ⟨q, ds⟩
  rw [List.mem_filter, List.mem_filter]
  exact and_congr_left fun hq => h.mem_carried_spared hq

theorem filter_replaced (h : Edited old edits new) (he : e ∈ edits) :
    new.carried.filter (fun x => e.path.indices.isPrefixOf x.1) =
      e.replacement.carried.map fun x => (e.path.indices ++ x.1, x.2) := by
  refine eq_of_pairwise_lt (new.pairwise_carried.filter _) ?_ ?_
  · refine List.pairwise_map.mpr (e.replacement.pairwise_carried.imp ?_)
    exact fun hlt => List.append_left_lt hlt
  · rintro ⟨q, ds⟩
    rw [List.mem_filter, List.mem_map]
    constructor
    · rintro ⟨hx, hp⟩
      obtain ⟨js, rfl⟩ := List.isPrefixOf_iff_prefix.mp hp
      exact ⟨(js, ds), (h.mem_carried_replaced he js).mp hx, rfl⟩
    · rintro ⟨⟨js, ds'⟩, hy, heq⟩
      obtain ⟨rfl, rfl⟩ := Prod.mk.inj heq
      exact ⟨(h.mem_carried_replaced he js).mpr hy,
        List.isPrefixOf_iff_prefix.mpr (List.prefix_append _ js)⟩

theorem conserved (h : Edited old edits new) : Conserved old edits new := by
  refine ⟨new.pairwise_carried, h.filter_spared, fun e he => h.filter_replaced he, ?_⟩
  rintro ⟨q, ds⟩
  constructor
  · intro hx
    by_cases hq : spares edits q = true
    · exact .inl ⟨(h.mem_carried_spared hq).mp hx, hq⟩
    · obtain ⟨e, he, js, rfl⟩ : ∃ e ∈ edits, e.path.indices <+: q := by
        simpa only [spares_iff, not_forall, not_not, exists_prop] using hq
      exact .inr ⟨e, he, (js, ds), (h.mem_carried_replaced he js).mp hx, rfl⟩
  · rintro (⟨hx, hq⟩ | ⟨e, he, ⟨js, ds'⟩, hy, heq⟩)
    · exact (h.mem_carried_spared hq).mpr hx
    · obtain ⟨rfl, rfl⟩ := Prod.mk.inj heq
      exact (h.mem_carried_replaced he js).mpr hy

end Edited

end Edit

structure LocatedDiagnostic.Moved (shift : Int) (x y : LocatedDiagnostic) : Prop where
  start : (y.range.start : Int) = x.range.start + shift
  stop : (y.range.stop : Int) = x.range.stop + shift
  diagnostic : y.diagnostic = x.diagnostic

namespace Green

variable {root new m : Green} {q : List Nat}

theorem map_diagnostic_collected (root : Green) (xs : List Entry) :
    (root.collected xs).map LocatedDiagnostic.diagnostic = xs.flatMap fun x => x.2.diagnostics := by
  rw [collected, List.map_flatMap]
  refine List.flatMap_congr fun x _ => ?_
  rw [locatedAt, List.map_map]
  exact List.map_id _

theorem map_diagnostic_eq_carried (root : Green) :
    (root.collected (root.listing [])).map LocatedDiagnostic.diagnostic =
      root.carried.flatMap Prod.snd := by
  rw [map_diagnostic_collected, carried, List.flatMap_map]

theorem trimmedAt_moved (hroot : root.WellFormed) (hnew : new.WellFormed)
    (hm : root.descend? q = some m) (hm' : new.descend? q = some m) :
    ((new.trimmedAt (q, m)).start : Int) =
        (root.trimmedAt (q, m)).start + (new.offsetAt q - root.offsetAt q : Int) ∧
      ((new.trimmedAt (q, m)).stop : Int) =
        (root.trimmedAt (q, m)).stop + (new.offsetAt q - root.offsetAt q : Int) := by
  rw [trimmedAt_eq hroot hm, trimmedAt_eq hnew hm', TextRange.trimmedFrom_eq_shift,
    TextRange.trimmedFrom_eq_shift (root.offsetAt q)]
  simp only [TextRange.shift]
  omega

theorem moved_locatedAt (hroot : root.WellFormed) (hnew : new.WellFormed)
    (hm : root.descend? q = some m) (hm' : new.descend? q = some m) :
    List.Forall₂ (LocatedDiagnostic.Moved (new.offsetAt q - root.offsetAt q))
      (root.locatedAt (q, m)) (new.locatedAt (q, m)) := by
  obtain ⟨hstart, hstop⟩ := trimmedAt_moved hroot hnew hm hm'
  rw [locatedAt, locatedAt, List.forall₂_map_left_iff, List.forall₂_map_right_iff, List.forall₂_same]
  exact fun d _ => ⟨hstart, hstop, rfl⟩

end Green

namespace Session

variable {s new : Session} {edits : List Edit} {supply rest : Supply} {q : List Nat} {m : Green}

theorem opened_of_apply (hs : s.Reached) (hr : ∀ e ∈ edits, e.replacement.WellFormed)
    (h : Nav.answer (apply edits supply) s = .ok (new, rest)) :
    new.Reached ∧ new.strays = 0 := by
  cases completed_of_apply hs hr h with
  | accepted hwf hn hwidth hroots ho => exact ⟨.opened hwf hn ho, strays_of_ofRoot ho⟩

theorem diagnostics_root (hs : s.Reached) (hroom : s.root.size + s.strays ≤ Arena.capacity) :
    s.Answers (diagnostics rootId) (s.root.collected (s.root.listing [])) :=
  diagnostics_answers hs.grounded (Nat.not_lt.mpr hroom) .root (Green.descend?_nil _)

theorem Reached.apply_conserves (hs : s.Reached) (hr : ∀ e ∈ edits, e.replacement.WellFormed)
    (h : Nav.answer (apply edits supply) s = .ok (new, rest))
    (hsize : new.root.size ≤ Arena.capacity) :
    Edit.Conserved s.root edits new.root ∧
      new.Answers (diagnostics rootId) (new.root.collected (new.root.listing [])) ∧
      (new.root.collected (new.root.listing [])).map LocatedDiagnostic.diagnostic =
        new.root.carried.flatMap Prod.snd ∧
      (s.root.size + s.strays ≤ Arena.capacity →
        s.Answers (diagnostics rootId) (s.root.collected (s.root.listing []))) ∧
      ∀ q m, s.root.descend? q = some m → (∀ e ∈ edits, Path.Apart e.path.indices q) →
        new.root.descend? q = some m ∧
        List.Forall₂ (LocatedDiagnostic.Moved (new.root.offsetAt q - s.root.offsetAt q))
          (s.root.locatedAt (q, m)) (new.root.locatedAt (q, m)) := by
  have hedited := edited_of_apply hs hr h
  obtain ⟨hnew, hstrays⟩ := opened_of_apply hs hr h
  have hroom : new.root.size + new.strays ≤ Arena.capacity := by
    rwa [hstrays, Nat.add_zero]
  refine ⟨hedited.conserved, diagnostics_root hnew hroom, new.root.map_diagnostic_eq_carried,
    diagnostics_root hs, ?_⟩
  intro q m hm hapart
  have hfound : new.root.descend? q = some m := (hedited.shared q hapart).trans hm
  exact ⟨hfound, Green.moved_locatedAt hs.root_wellFormed hedited.wellFormed hm hfound⟩

end Session

namespace Sample

def placeholder : Green :=
  .token 2 (TokenShape.absent .equalToken) [expected "an equal sign"]

def longLiteral : Green :=
  .token 9 ⟨.decimalIntegerLiteralToken, 0, 3, 0, false⟩ [expected "a shorter literal"]

def doubts : List Edit :=
  [.atPath ⟨[0, 0]⟩ (token 8 .identifierToken 4), .atPath ⟨[3, 0]⟩ longLiteral]

def doubted : Green :=
  node 12 .assignmentStatement
    [node 10 .simpleNameReference [token 8 .identifierToken 4], placeholder,
      node 3 .numericLiteral [], node 11 .numericLiteral [longLiteral]]

def doubtedSession : Session := ⟨13, doubted, #[Placement.make doubted 0 none 0]⟩

theorem doubts_wellFormed : ∀ e ∈ doubts, e.replacement.WellFormed := by
  intro e he
  simp only [doubts, List.mem_cons, List.not_mem_nil, or_false] at he
  rcases he with rfl | rfl
  · exact token_wellFormed _ _ (by decide)
  · exact .token (by decide) fun h => nomatch h

theorem doubts_accepted :
    Nav.answer (Session.apply doubts ⟨10⟩) lackingSession = .ok (doubtedSession, ⟨14⟩) := by
  with_unfolding_all rfl

theorem doubts_conserve : lackingSession.Reached ∧ (∀ e ∈ doubts, e.replacement.WellFormed) ∧
    Nav.answer (Session.apply doubts ⟨10⟩) lackingSession = .ok (doubtedSession, ⟨14⟩) ∧
    doubtedSession.root.size ≤ Arena.capacity ∧ Edit.Conserved lacking doubts doubted ∧
    ([1], [expected "an equal sign"]) ∈ doubted.carried ∧
    ([3, 0], [expected "a shorter literal"]) ∈ doubted.carried ∧
    lackingSession.Answers (Session.diagnostics Session.rootId)
      [⟨⟨1, 1, by decide⟩, expected "an equal sign"⟩] ∧
    doubtedSession.Answers (Session.diagnostics Session.rootId)
      [⟨⟨4, 4, by decide⟩, expected "an equal sign"⟩,
        ⟨⟨4, 7, by decide⟩, expected "a shorter literal"⟩] ∧
    List.Forall₂ (LocatedDiagnostic.Moved 3) [⟨⟨1, 1, by decide⟩, expected "an equal sign"⟩]
      [⟨⟨4, 4, by decide⟩, expected "an equal sign"⟩] := by
  have hsize : doubtedSession.root.size ≤ Arena.capacity := by decide
  obtain ⟨hconserved, hafter, -, hbefore, hmoved⟩ :=
    lackingSession_reached.apply_conserves doubts_wellFormed doubts_accepted hsize
  have hapart : ∀ e ∈ doubts, Path.Apart e.path.indices [1] := by decide
  exact ⟨lackingSession_reached, doubts_wellFormed, doubts_accepted, hsize, hconserved,
    Green.mem_carried_iff.mpr rfl, Green.mem_carried_iff.mpr rfl, hbefore lackingSession_room,
    hafter, (hmoved [1] placeholder rfl hapart).2⟩

end Sample

end LosslessSyntax
