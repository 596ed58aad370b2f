import LosslessSyntax.Proofs.Green.Mint
import LosslessSyntax.Proofs.Green.WellFormed

namespace LosslessSyntax

namespace Green

mutual

def shapes : Green → List TokenShape
  | token _ shape _ => [shape]
  | node _ _ _ cs _ => shapesAmong cs

def shapesAmong : List Green → List TokenShape
  | [] => []
  | c :: cs => c.shapes ++ shapesAmong cs

end

def tokenWidths (shapes : List TokenShape) : Nat :=
  (shapes.map fun s => s.leading + s.text + s.trailing).sum

theorem tokenWidths_append (as bs : List TokenShape) :
    tokenWidths (as ++ bs) = tokenWidths as + tokenWidths bs := by
  rw [tokenWidths, List.map_append, List.sum_append, tokenWidths, tokenWidths]

variable {g : Green} {cs : List Green}

theorem widths_eq_of_children (h : ∀ c ∈ cs, c.width = tokenWidths c.shapes) :
    widths cs = tokenWidths (shapesAmong cs) := by
  induction cs with
  | nil => rfl
  | cons c cs ih =>
      have hc := h c List.mem_cons_self
      have hcs := ih fun b hb => h b (List.mem_cons_of_mem c hb)
      rw [widths_cons, shapesAmong, tokenWidths_append, hc, hcs]

theorem WellFormed.width_eq (h : g.WellFormed) : g.width = tokenWidths g.shapes := by
  induction g with
  | token stamp shape ds => exact (Nat.add_zero _).symm
  | node stamp kind summary cs ds ih =>
      rw [← h.widths_children rfl]
      exact widths_eq_of_children fun c hc => ih c hc (h.of_mem_children hc)

theorem widths_eq_tokenWidths (hcs : ∀ c ∈ cs, c.WellFormed) :
    widths cs = tokenWidths (shapesAmong cs) :=
  widths_eq_of_children fun c hc => (hcs c hc).width_eq

theorem exists_descend?_node {stamp : Nat} {kind : Kind} {summary : Summary}
    {ds : List Diagnostic} {P : Green → Prop} :
    (∃ q m, (node stamp kind summary cs ds).descend? q = some m ∧ P m) ↔
      P (node stamp kind summary cs ds) ∨ ∃ c ∈ cs, ∃ q m, c.descend? q = some m ∧ P m := by
  constructor
  · rintro ⟨_ | ⟨i, q⟩, m, hm, hp⟩
    · exact .inl (Option.some.inj hm ▸ hp)
    · obtain ⟨c, hc, hm⟩ := descend?_cons_eq_some_iff.mp hm
      exact .inr ⟨c, List.mem_of_getElem? hc, q, m, hm, hp⟩
  · rintro (hp | ⟨c, hc, q, m, hm, hp⟩)
    · exact ⟨[], _, rfl, hp⟩
    · obtain ⟨i, hi⟩ := List.getElem?_of_mem hc
      exact ⟨i :: q, m, descend?_cons_eq_some_iff.mpr ⟨c, hi, hm⟩, hp⟩

theorem exists_descend?_token {stamp : Nat} {shape : TokenShape} {ds : List Diagnostic}
    {P : Green → Prop} :
    (∃ q m, (token stamp shape ds).descend? q = some m ∧ P m) ↔ P (token stamp shape ds) := by
  constructor
  · rintro ⟨_ | ⟨i, q⟩, m, hm, hp⟩
    · exact Option.some.inj hm ▸ hp
    · exact nomatch hm
  · exact fun hp => ⟨[], _, rfl, hp⟩

theorem WellFormed.containsMissing_iff (h : g.WellFormed) :
    g.containsMissing = true ↔ ∃ q m, g.descend? q = some m ∧ m.isMissing = true := by
  induction g with
  | token stamp shape ds => exact (exists_descend?_token (P := fun m => m.isMissing = true)).symm
  | node stamp kind summary cs ds ih =>
      have hchildren := fun c hc => ih c hc (h.of_mem_children hc)
      cases h with
      | node hcs hw =>
          rw [exists_descend?_node]
          change cs.any containsMissing = true ↔ _
          rw [List.any_eq_true]
          constructor
          · rintro ⟨c, hc, hmissing⟩
            exact .inr ⟨c, hc, (hchildren c hc).mp hmissing⟩
          · rintro (hmissing | ⟨c, hc, hmissing⟩)
            · exact nomatch hmissing
            · exact ⟨c, hc, (hchildren c hc).mpr hmissing⟩

theorem WellFormed.containsDiagnostics_iff (h : g.WellFormed) :
    g.containsDiagnostics = true ↔ ∃ q m, g.descend? q = some m ∧ m.diagnostics ≠ [] := by
  have hown : ∀ ds : List Diagnostic, (!ds.isEmpty) = true ↔ ds ≠ [] := by
    intro ds
    simp
  induction g with
  | token stamp shape ds =>
      exact (hown ds).trans (exists_descend?_token (P := fun m => m.diagnostics ≠ [])).symm
  | node stamp kind summary cs ds ih =>
      have hchildren := fun c hc => ih c hc (h.of_mem_children hc)
      cases h with
      | node hcs hw =>
          rw [exists_descend?_node]
          change (!ds.isEmpty || cs.any containsDiagnostics) = true ↔ _
          rw [Bool.or_eq_true, hown, List.any_eq_true]
          constructor
          · rintro (hds | ⟨c, hc, hdiagnostics⟩)
            · exact .inl hds
            · exact .inr ⟨c, hc, (hchildren c hc).mp hdiagnostics⟩
          · rintro (hds | ⟨c, hc, hdiagnostics⟩)
            · exact .inl hds
            · exact .inr ⟨c, hc, (hchildren c hc).mpr hdiagnostics⟩

theorem WellFormed.missing_lengths {stamp : Nat} {shape : TokenShape} {ds : List Diagnostic}
    (h : (Green.token stamp shape ds).WellFormed) (hmissing : shape.missing = true) :
    shape.leading = 0 ∧ shape.text = 0 ∧ shape.trailing = 0 := by
  cases h with
  | token hw hm =>
      have hzero := hm hmissing
      rw [TokenShape.width] at hzero
      omega

structure Exact (n : Green) : Prop where
  width : n.width = tokenWidths n.shapes
  width_le : n.width ≤ maxSize
  starts : ∀ i, n.childStart? i =
    (n.child? i).map fun _ => ((n.children.take i).map Green.width).sum
  containsMissing : n.containsMissing = true ↔
    ∃ q m, n.descend? q = some m ∧ m.isMissing = true
  containsDiagnostics : n.containsDiagnostics = true ↔
    ∃ q m, n.descend? q = some m ∧ m.diagnostics ≠ []
  missing : ∀ stamp shape ds, n = token stamp shape ds → shape.missing = true →
    shape.leading = 0 ∧ shape.text = 0 ∧ shape.trailing = 0

theorem WellFormed.exact (h : g.WellFormed) : g.Exact := by
  refine ⟨h.width_eq, h.width_le, h.childStart?_eq, h.containsMissing_iff,
    h.containsDiagnostics_iff, ?_⟩
  rintro stamp shape ds rfl hmissing
  exact h.missing_lengths hmissing

section Create

variable {supply : Supply} {kind : Kind}

theorem assemble_fails_iff (hcs : ∀ c ∈ cs, c.WellFormed) (ds : List Diagnostic) :
    (∃ e, assemble kind cs ds supply = .error e) ↔ maxSize < tokenWidths (shapesAmong cs) := by
  rw [assemble_eq kind hcs, widths_eq_tokenWidths hcs]
  split
  · rename_i hle
    exact ⟨fun ⟨_, h⟩ => (nomatch h), fun h => absurd hle (Nat.not_le.mpr h)⟩
  · rename_i hlt
    exact ⟨fun _ => Nat.not_le.mp hlt, fun _ => ⟨_, rfl⟩⟩

theorem replaceChild_eq {index : Nat} (hi : index < g.children.length) (replacement : Green) :
    g.replaceChild index replacement supply =
      assemble g.kind (g.children.set index replacement) g.diagnostics supply := by
  have hchild : g.childAt index = .ok g.children[index] := by
    rw [childAt, child?, List.getElem?_eq_getElem hi]
  have hrun : Mint.ofExcept (g.childAt index) supply = .ok (g.children[index], supply) := by
    rw [hchild]
    rfl
  rw [replaceChild, Mint.bind_ok hrun]

end Create

end Green

end LosslessSyntax
