import LosslessSyntax.Proofs.Edit.AnyOrder
import Mathlib.Algebra.BigOperators.Group.List.Basic

namespace LosslessSyntax

namespace Edit

/-- The second batch puts back what the first one replaced. Its edits come in any order, and each may
be recorded with the element that it takes away. -/
structure Undoes (old : Green) (edits undo : List Edit) : Prop where
  paths : (undo.map Edit.path).Perm (edits.map Edit.path)
  restores : ∀ f ∈ undo, old.descend? f.path.indices = some f.replacement
  recorded : ∀ f ∈ undo, ∀ x, f.expected = some x →
    ∀ e ∈ edits, e.path = f.path → e.replacement.same x = true

def revert (old : Green) (e : Edit) : Edit :=
  .atPath e.path ((old.descend? e.path.indices).getD e.replacement)

variable {old new : Green} {edits undo : List Edit}

theorem undoes_map_revert (h : ∀ e ∈ edits, e.Stands old) :
    Undoes old edits (edits.map (revert old)) := by
  refine ⟨?_, ?_, ?_⟩
  · rw [List.map_map]
    exact .refl _
  · rintro f hf
    obtain ⟨e, he, rfl⟩ := List.mem_map.mp hf
    obtain ⟨g, hg, -⟩ := h e he
    rw [revert, hg]
    exact hg
  · rintro f hf x hx
    obtain ⟨e, -, rfl⟩ := List.mem_map.mp hf
    exact nomatch hx

def shift (old new : Green) (p : Path) : Int := new.widthAt p.indices - old.widthAt p.indices

theorem growth_eq_sum_shift
    (h : ∀ e ∈ edits, new.descend? e.path.indices = some e.replacement) :
    growth old edits = ((edits.map Edit.path).map (shift old new)).sum := by
  rw [growth, List.map_map]
  refine congrArg List.sum (List.map_congr_left ?_)
  intro e he
  rw [gain, Splice.gain, splice, Function.comp, shift, Green.widthAt_eq (h e he)]

theorem sum_shift_add (old new : Green) (ps : List Path) :
    (ps.map (shift new old)).sum + (ps.map (shift old new)).sum = 0 := by
  induction ps with
  | nil => rfl
  | cons p ps ih =>
      simp only [List.map_cons, List.sum_cons, shift] at ih ⊢
      omega

namespace Undoes

theorem exists_edit (h : Undoes old edits undo) {f : Edit} (hf : f ∈ undo) :
    ∃ e ∈ edits, e.path = f.path :=
  List.mem_map.mp (h.paths.mem_iff.mp (List.mem_map_of_mem hf))

theorem exists_undo (h : Undoes old edits undo) {e : Edit} (he : e ∈ edits) :
    ∃ f ∈ undo, f.path = e.path :=
  List.mem_map.mp (h.paths.mem_iff.mpr (List.mem_map_of_mem he))

theorem above_iff (h : Undoes old edits undo) {q : List Nat} : Above undo q ↔ Above edits q := by
  constructor
  · rintro ⟨f, hf, hq⟩
    obtain ⟨e, he, hpath⟩ := h.exists_edit hf
    exact ⟨e, he, hpath ▸ hq⟩
  · rintro ⟨e, he, hq⟩
    obtain ⟨f, hf, hpath⟩ := h.exists_undo he
    exact ⟨f, hf, hpath ▸ hq⟩

theorem apart (h : Undoes old edits undo) (hapart : edits.Pairwise Apart) :
    undo.Pairwise Apart := by
  have hundo : (undo.map Edit.path).Pairwise fun p q => Path.Apart p.indices q.indices :=
    (h.paths.pairwise_iff Path.Apart.symm).mpr (List.pairwise_map.mpr hapart)
  rw [List.pairwise_map] at hundo
  exact hundo

theorem edited (h : Undoes old edits undo) (hold : old.WellFormed) (hnew : Edited old edits new) :
    Edited new undo old := by
  refine ⟨hold, ?_, ?_, ?_⟩
  · intro f hf js
    rw [Green.descend?_append, h.restores f hf, Option.bind_some]
  · intro q hq
    obtain ⟨m, m', hm, hm', hrecast⟩ := hnew.rebuilt q (h.above_iff.mp hq)
    exact ⟨m', m, hm', hm, hrecast.symm⟩
  · intro q hq
    refine (hnew.shared q ?_).symm
    intro e he
    obtain ⟨f, hf, hpath⟩ := h.exists_undo he
    exact hpath ▸ hq f hf

theorem stands (h : Undoes old edits undo) (hnew : Edited old edits new) :
    ∀ f ∈ undo, f.Stands new := by
  intro f hf
  obtain ⟨e, he, hpath⟩ := h.exists_edit hf
  have hfound := hnew.replaced e he []
  rw [List.append_nil, Green.descend?_nil, hpath] at hfound
  exact ⟨e.replacement, hfound, fun x hx => h.recorded f hf x hx e he hpath⟩

theorem growth_add (h : Undoes old edits undo) (hnew : Edited old edits new) :
    growth new undo + growth old edits = 0 := by
  have hundo : growth new undo = ((undo.map Edit.path).map (shift new old)).sum := by
    refine growth_eq_sum_shift fun f hf => ?_
    rw [h.restores f hf]
  have hedits : growth old edits = ((edits.map Edit.path).map (shift old new)).sum := by
    refine growth_eq_sum_shift fun e he => ?_
    have hfound := hnew.replaced e he []
    rwa [List.append_nil, Green.descend?_nil] at hfound
  rw [hundo, hedits, (h.paths.map _).sum_eq, sum_shift_add]

theorem isNode_of_isRoot (h : Undoes old edits undo) (hn : old.isNode = true) {f : Edit}
    (hf : f ∈ undo) (hroot : f.path.isRoot = true) : f.replacement.isNode = true := by
  have hfound := h.restores f hf
  rw [isRoot_iff.mp hroot, Green.descend?_nil] at hfound
  exact Option.some.inj hfound ▸ hn

theorem ready {qs : List (List Nat)} (h : Undoes old edits undo) (hold : old.WellFormed)
    (hn : old.isNode = true) (hnew : Edited old edits new) (hready : Ready old edits qs) :
    Ready new undo qs := by
  refine ⟨?_, h.stands hnew, h.apart hready.apart, fun f hf => h.isNode_of_isRoot hn hf, ?_,
    hready.nil_mem, hready.room⟩
  · intro f hf
    exact hold.of_descend? (h.restores f hf)
  · intro f hf
    obtain ⟨e, he, hpath⟩ := h.exists_edit hf
    exact hpath ▸ hready.leads e he

theorem agrees {back : Green} (h : Undoes old edits undo) (hold : old.WellFormed)
    (hnew : Edited old edits new) (hback : Edited new undo back) : Agrees edits old back := by
  obtain ⟨hcontent, halike, hsame⟩ := (h.edited hold hnew).agrees hback
  exact ⟨hcontent, halike, fun q hq => hsame q (mt h.above_iff.mp hq)⟩

end Undoes

end Edit

namespace Session

open Edit

variable {s u new : Session} {edits undo : List Edit} {supply rest : Supply}

def Restores (old : Green) (edits undo : List Edit) (u : Session) (supply : Supply) : Prop :=
  ∃ back rest, Nav.answer (apply undo supply) u = .ok (back, rest) ∧ Agrees edits old back.root

theorem restores_of_completed {old : Green} (hu : u.Reached) (hold : old.WellFormed)
    (hn : old.isNode = true) (hundo : Undoes old edits undo) (hedited : Edited old edits u.root)
    (hwidth : (u.root.width : Int) = old.width + growth old edits)
    (h : Completed u.root undo (Nav.answer (apply undo supply) u)) :
    Restores old edits undo u supply := by
  cases hrun : Nav.answer (apply undo supply) u with
  | ok r =>
      have hwf : ∀ f ∈ undo, f.replacement.WellFormed := fun f hf =>
        hold.of_descend? (hundo.restores f hf)
      exact ⟨r.1, r.2, hrun, hundo.agrees hold hedited (edited_of_apply hu hwf hrun)⟩
  | error e =>
      rw [hrun] at h
      cases h with
      | rootToken hf hroot hnode =>
          exact nomatch hnode.symm.trans (hundo.isNode_of_isRoot hn hf hroot)
      | tooWide _ _ _ hwide =>
          have hle := hold.width_le
          have hsum := hundo.growth_add hedited
          omega

theorem apply_undone (hs : s.Reached) (hr : ∀ e ∈ edits, e.replacement.WellFormed)
    (h : Nav.answer (apply edits supply) s = .ok (new, rest)) :
    Undoes s.root edits (edits.map (revert s.root)) ∧
      ∀ undo, Undoes s.root edits undo →
        (∀ supply', Restores s.root edits undo new supply') ∧
        ∀ u supply', u.Reached → u.root = new.root → Restores s.root edits undo u supply' ∨
          (Arena.capacity < u.placements.size + totalDepth undo ∧
            Nav.answer (apply undo supply') u = .error (.aborted .arenaFull)) := by
  have hready := ready_of_apply hs hr h
  have hedited := edited_of_apply hs hr h
  have hold := hs.root_wellFormed
  have hn := hs.root_isNode
  refine ⟨undoes_map_revert hready.stands, ?_⟩
  intro undo hundo
  have hready' := hundo.ready hold hn hedited hready
  obtain ⟨hnew, hwidth, hconfined⟩ : new.Reached ∧
      (new.root.width : Int) = s.root.width + growth s.root edits ∧
      Confined (Nav.after (apply edits supply) s).placed new := by
    cases completed_of_apply hs hr h with
    | accepted hwf hnode hwidth _ ho =>
        obtain ⟨-, hroot⟩ := coherent_of_ofRoot ho
        exact ⟨.opened hwf hnode ho, hroot ▸ hwidth,
          .of_opened ho hwf hready.nil_mem hready.room⟩
  refine ⟨?_, ?_⟩
  · intro supply'
    exact restores_of_completed hnew hold hn hundo hedited hwidth
      (hconfined.completed hnew.root_isNode hready'.stands hready'.apart hready'.leads
        hready'.wellFormed supply')
  · intro u supply' hu hroot
    rw [← hroot] at hedited hwidth hready'
    rcases answer_apply_cases hu undo supply' with ⟨-, -, ha⟩ | ⟨pre, f, post, e, rfl, -, hf, -⟩ |
      ⟨-, f, g, hfg, -⟩ | hfull
    · have hcompleted := completed_of_replaceAll hu.root_wellFormed hu.root_isNode hready'.stands
        hready'.apart hready'.wellFormed supply'
      rw [← ha] at hcompleted
      exact .inl (restores_of_completed hu hold hn hundo hedited hwidth hcompleted)
    · exact absurd (hready'.stands f (List.mem_append_right pre List.mem_cons_self)) hf.not_stands
    · exact absurd hfg (not_overlap_of_pairwise_apart hready'.apart f g)
    · exact .inr hfull

end Session

namespace Sample

theorem edits_undone : session.Reached ∧ (∀ e ∈ edits, e.replacement.WellFormed) ∧
    ∃ new rest, Nav.answer (Session.apply edits ⟨10⟩) session = .ok (new, rest) ∧
      Session.Restores assignment edits (edits.map (Edit.revert assignment)) new ⟨20⟩ := by
  refine ⟨session_reached, edits_wellFormed, ?_⟩
  cases h : Nav.answer (Session.apply edits ⟨10⟩) session with
  | error e => exact absurd edits_accepted (by rw [h]; exact Bool.false_ne_true)
  | ok r =>
      obtain ⟨hundoes, hall⟩ := Session.apply_undone session_reached edits_wellFormed h
      exact ⟨r.1, r.2, rfl, (hall _ hundoes).1 ⟨20⟩⟩

end Sample

end LosslessSyntax
