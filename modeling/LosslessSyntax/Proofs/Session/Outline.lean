import LosslessSyntax.Proofs.Green.Outline
import LosslessSyntax.Proofs.Session.Offset
import LosslessSyntax.Proofs.Session.Safe
import LosslessSyntax.Proofs.Session.Tour

namespace LosslessSyntax

namespace Green

def lengths : Green → String
  | node _ _ _ _ _ => ""
  | token _ shape _ =>
      if shape.missing then ""
      else
        " [" ++ toString shape.leading ++ "+" ++ toString shape.text ++ "+" ++
          toString shape.trailing ++ "]"

theorem missing_append_lengths (g : Green) :
    (if g.isMissing then " missing" else "") ++ g.lengths = g.detail.display := by
  cases g with
  | node stamp kind summary cs ds => rfl
  | token stamp shape ds =>
      cases hmissing : shape.missing <;> simp [isMissing, lengths, detail, Detail.display, hmissing]

end Green

namespace Session

def margin : Nat → String
  | 0 => ""
  | depth + 1 => margin depth ++ "  "

theorem margin_eq_indent (depth : Nat) : margin depth = indent depth := by
  induction depth with
  | zero => rfl
  | succ depth ih =>
      rw [margin, ih, indent, indent, Nat.mul_succ, List.replicate_add, String.ofList_append]
      rfl

def describe (s : Session) (id : Nat) : Except Failure (List String) :=
  match s.placements[id]? with
  | none => .error (.aborted (.unknownPlacement id))
  | some p => do
      let text ← p.display
      let depth := (s.path id).depth
      pure ((margin depth ++ text ++ p.green.lengths) ::
        p.green.diagnostics.map fun d => margin depth ++ "  ! " ++ d.display)

def Tells (s t : Session) (id : Nat) (lines : List String) : Prop :=
  ∀ u : Session, u.Coherent → Extends s u → Extends u t → id < u.placements.size →
    u.describe id = .ok lines

variable {s t : Session} {id : Nat} {q : List Nat} {m : Green}

theorem describe_eq (hs : s.Grounded) (h : s.At q id) (hm : s.root.descend? q = some m) :
    s.describe id = .ok ((s.root.entryLines (q, m)).map OutlineLine.display) := by
  obtain ⟨p, hp, rfl, hoffset⟩ := hs.held h hm
  have hfits := Green.offsetAt_add_width_le hs.wellFormed hm
  have hmax := hs.wellFormed.width_le
  have hsized : p.Sized := ⟨hs.wellFormed.of_descend? hm, by omega⟩
  have hhead : margin q.length ++ (p.kind.name ++ "@" ++
      (toString p.offset ++ ".." ++ toString (p.offset + p.green.width)) ++
        if p.green.isMissing then " missing" else "") ++ p.green.lengths =
      (OutlineLine.element q.length p.green.kind p.offset (p.offset + p.green.width)
        p.green.detail).display := by
    rw [OutlineLine.display, ← p.green.missing_append_lengths, margin_eq_indent]
    simp only [String.append_assoc, Placement.kind]
  have hnotes : OutlineLine.display ∘ OutlineLine.note (q.length + 1) =
      fun d : Diagnostic => margin q.length ++ "  ! " ++ d.display := by
    funext d
    have hmark : "  ! " = "  " ++ "! " := by decide
    rw [Function.comp_apply, OutlineLine.display, ← margin_eq_indent, margin, hmark]
    simp only [String.append_assoc]
  rw [describe, hp, Green.entryLines, List.map_cons, List.map_map, ← hoffset, ← hhead, hnotes]
  dsimp only
  rw [hsized.display_eq, h.path_eq hs.coherent]
  rfl

theorem tells_of_at (hs : s.Grounded) (hst : Explored s t) (h : t.At q id)
    (hm : t.root.descend? q = some m) :
    Tells s t id ((t.root.entryLines (q, m)).map OutlineLine.display) := by
  intro u hu hsu hut hlt
  have hgrounded : u.Grounded := ⟨hu, hsu.root ▸ hs.wellFormed⟩
  rw [hut.root] at hm ⊢
  exact describe_eq hgrounded (h.of_extends hu hst.coherent hut hlt) hm

theorem dump_tells_walk {root : Green} {supply rest : Supply} (hroot : root.WellFormed)
    (hsize : root.size < Arena.capacity)
    (hds : ∀ q m, root.descend? q = some m → ∀ d ∈ m.diagnostics, d.Unbroken)
    (ho : ofRoot root supply = .ok (s, rest)) :
    ∃ text es t w, root.dump = .ok text ∧
      Tour s (Walk.ofNode rootId) es t ⟨rootId, none, false⟩ ∧
      Walk.next ⟨rootId, none, false⟩ t = .ok (none, w) t ∧
      ∃ lines, List.Forall₂ (Tells s t) (entered es) lines ∧
        text.toList.splitOn '\n' = lines.flatten.map String.toList ++ [[]] := by
  obtain ⟨text, htext, hsplit⟩ := Green.splitOn_dump hroot hds
  obtain ⟨hs, rfl⟩ := coherent_of_ofRoot ho
  have hnil : [] ∈ s.root.paths := Green.mem_paths_iff.mpr rfl
  have hroom : s.root.paths.length ≤ Arena.capacity := by
    rw [Green.length_paths]
    exact Nat.le_of_lt hsize
  have hdescend := Green.descend?_nil s.root
  have hconfined := Confined.of_opened ho hroot hnil hroom
  obtain ⟨es, t, htour, hst, hentered, -⟩ := hconfined.tour .root hdescend (lists_paths hdescend)
  refine ⟨text, es, t, _, htext, htour, Walk.next_of_over _ rfl t,
    (s.root.listing []).map fun x => (s.root.entryLines x).map OutlineLine.display, ?_, ?_⟩
  · have hentries : List.Forall₂ (fun x id => t.root.descend? x.1 = some x.2 ∧ t.At x.1 id)
        (s.root.listing []) (entered es) := by
      refine (List.forall₂_and_left _ _).mpr ⟨fun x hx => ?_, hentered.flip⟩
      rw [hst.grown.root]
      exact Green.descend?_of_mem_listing hdescend hx
    rw [List.forall₂_map_right_iff]
    refine (hentries.imp fun x id hx => ?_).flip
    rw [← hst.grown.root]
    exact tells_of_at ⟨hs, hroot⟩ hst hx.2 hx.1
  · rw [hsplit, List.flatMap_def, List.map_flatten, List.map_map, Function.comp_def]
    simp only [List.map_map]
    rfl

end Session

namespace Sample

open Session

theorem lacking_unbroken {q : List Nat} {m : Green} (hm : lacking.descend? q = some m) :
    ∀ d ∈ m.diagnostics, d.Unbroken := by
  have hall : ∀ x ∈ lacking.listing [], ∀ d ∈ x.2.diagnostics, d = expected "an equal sign" := by
    decide
  intro d hd
  obtain rfl := hall (q, m) (Green.mem_listing_iff.mpr ⟨q, rfl, hm⟩) d hd
  exact ⟨by decide, by decide⟩

def lackingLines : List String :=
  ["ASSIGNMENT_STATEMENT@0..3",
    "  SIMPLE_NAME_REFERENCE@0..1",
    "    IDENTIFIER_TOKEN@0..1 [0+1+0]",
    "  EQUAL_TOKEN@1..1 missing",
    "    ! error[syntax]: expected an equal sign",
    "  NUMERIC_LITERAL@1..1",
    "  NUMERIC_LITERAL@1..3",
    "    DECIMAL_INTEGER_LITERAL_TOKEN@1..3 [0+2+0]"]

theorem lacking_lines :
    ((lacking.listing []).flatMap fun x =>
      (lacking.entryLines x).map fun line => line.display.toList) =
      lackingLines.map String.toList := by
  decide +kernel

theorem lacking_told : lacking.WellFormed ∧ lacking.size < Arena.capacity ∧
    (∀ q m, lacking.descend? q = some m → ∀ d ∈ m.diagnostics, d.Unbroken) ∧
    ∃ text es t lines, lacking.dump = .ok text ∧
      Tour lackingSession (Walk.ofNode rootId) es t ⟨rootId, none, false⟩ ∧
      List.Forall₂ (Tells lackingSession t) (entered es) lines ∧
      text.toList.splitOn '\n' = lines.flatten.map String.toList ++ [[]] ∧
      lines.flatten = lackingLines := by
  have hsize : lacking.size < Arena.capacity := by decide
  obtain ⟨text, es, t, w, htext, htour, -, lines, htells, hsplit⟩ :=
    dump_tells_walk lacking_wellFormed hsize (fun _ _ => lacking_unbroken) lackingSession_opened
  obtain ⟨text', htext', hsplit'⟩ := Green.splitOn_dump lacking_wellFormed fun _ _ => lacking_unbroken
  obtain rfl : text = text' := Except.ok.inj (htext.symm.trans htext')
  have hlines : lines.flatten = lackingLines := by
    rw [lacking_lines] at hsplit'
    have heq := List.append_cancel_right (hsplit.symm.trans hsplit')
    exact List.map_injective_iff.mpr (fun _ _ => String.toList_injective) heq
  exact ⟨lacking_wellFormed, hsize, fun _ _ => lacking_unbroken, text, es, t, lines, htext, htour,
    htells, hsplit, hlines⟩

end Sample

end LosslessSyntax
