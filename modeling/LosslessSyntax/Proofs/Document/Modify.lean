import LosslessSyntax.Document
import LosslessSyntax.Proofs.Green.Mint
import LosslessSyntax.Proofs.Session.Run

namespace LosslessSyntax

namespace Document

def applied (root : Green) (edits : List (Path × Green)) (supply : Supply) :
    Except Failure (Session × Supply) :=
  (Session.ofRoot root supply).bind fun r =>
    Nav.answer (Session.apply (edits.map fun e => Edit.atPath e.1 e.2) r.2) r.1

variable {d d' : Document} {edits : List (Path × Green)} {supply rest : Supply} {s : Session}

/-- The ways in which a call can end. Only where the version is at its end does a call that fails
leave another document behind. -/
inductive Ending (d : Document) (edits : List (Path × Green)) (supply : Supply) :
    EStateM.Result Failure Document (Session × Supply) → Prop
  | viewed {s : Session} {rest : Supply} :
      edits = [] → d.session supply = .ok (s, rest) → Ending d edits supply (.ok (s, rest) d)
  | refused {e : Failure} :
      edits ≠ [] → applied d.root edits supply = .error e → Ending d edits supply (.error e d)
  | replaced {s : Session} {rest : Supply} :
      edits ≠ [] → applied d.root edits supply = .ok (s, rest) →
      d.version.toNat + 1 < UInt64.size →
      Ending d edits supply (.ok (s, rest) ⟨s.root, d.version + 1⟩)
  | overran {s : Session} {rest : Supply} :
      edits ≠ [] → applied d.root edits supply = .ok (s, rest) →
      d.version.toNat + 1 = UInt64.size →
      Ending d edits supply (.error (.aborted .versionOverflow) ⟨s.root, d.version⟩)

theorem modify_of_error {e : Failure} (hne : edits ≠ [])
    (h : applied d.root edits supply = .error e) : modify edits supply d = .error e d := by
  obtain ⟨x, edits, rfl⟩ := List.exists_cons_of_ne_nil hne
  change EStateM.bind (Revision.ofExcept (applied d.root (x :: edits) supply)) _ d = _
  rw [h]
  rfl

theorem modify_of_ok (hne : edits ≠ []) (h : applied d.root edits supply = .ok (s, rest)) :
    modify edits supply d =
      match Revision.countUp ⟨s.root, d.version⟩ with
      | .ok _ d' => .ok (s, rest) d'
      | .error e d' => .error e d' := by
  obtain ⟨x, edits, rfl⟩ := List.exists_cons_of_ne_nil hne
  change EStateM.bind (Revision.ofExcept (applied d.root (x :: edits) supply)) _ d = _
  rw [h]
  change EStateM.bind Revision.countUp _ ⟨s.root, d.version⟩ = _
  rw [EStateM.bind]
  cases Revision.countUp ⟨s.root, d.version⟩ <;> rfl

theorem modify_ending (d : Document) (edits : List (Path × Green)) (supply : Supply) :
    Ending d edits supply (modify edits supply d) := by
  by_cases hne : edits = []
  · subst hne
    exact .viewed rfl rfl
  · cases happlied : applied d.root edits supply with
    | error e =>
        rw [modify_of_error hne happlied]
        exact .refused hne happlied
    | ok r =>
        by_cases hlt : d.version.toNat + 1 < UInt64.size
        · rw [modify_of_ok hne happlied, Revision.countUp, if_pos hlt]
          exact .replaced hne happlied hlt
        · have hle : d.version.toNat + 1 ≤ UInt64.size := d.version.toNat_lt_size
          rw [modify_of_ok hne happlied, Revision.countUp, if_neg hlt]
          exact .overran hne happlied (Nat.le_antisymm hle (Nat.not_lt.mp hlt))

theorem modify_eq_ok (h : modify edits supply d = .ok (s, rest) d') :
    ∃ opened next, d.session supply = .ok (opened, next) ∧
      ((s = opened ∧ rest = next ∧ d' = d) ∨
        ∃ t, Session.apply (edits.map fun e => Edit.atPath e.1 e.2) next opened =
            .ok (s, rest) t ∧ d'.root = s.root) := by
  obtain ⟨opened, next, hopened⟩ : ∃ s next, d.session supply = .ok (s, next) := ⟨_, _, rfl⟩
  refine ⟨opened, next, hopened, ?_⟩
  have hending := modify_ending d edits supply
  rw [h] at hending
  cases hending with
  | viewed hnil hs =>
      cases hs.symm.trans hopened
      exact .inl ⟨rfl, rfl, rfl⟩
  | replaced hne happlied hlt =>
      rw [applied, show Session.ofRoot d.root supply = .ok (opened, next) from hopened] at happlied
      obtain ⟨t, ht⟩ := Nav.ok_of_answer_eq_ok happlied
      exact .inr ⟨t, ht, rfl⟩

end Document

end LosslessSyntax
