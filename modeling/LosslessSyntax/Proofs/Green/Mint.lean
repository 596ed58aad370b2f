import LosslessSyntax.Green.Build

namespace LosslessSyntax

namespace Mint

variable {α β : Type} {m : Mint α} {f : α → Mint β} {supply rest : Supply} {a a' : α} {b : β}
  {e : Failure}

theorem bind_ok (h : m supply = .ok (a, rest)) : (m >>= f) supply = f a rest := by
  change (m supply).bind (fun r => f r.1 r.2) = _
  rw [h]
  rfl

theorem bind_error (h : m supply = .error e) : (m >>= f) supply = .error e := by
  change (m supply).bind (fun r => f r.1 r.2) = _
  rw [h]
  rfl

theorem bind_eq_ok_iff :
    (m >>= f) supply = .ok (b, rest) ↔
      ∃ a next, m supply = .ok (a, next) ∧ f a next = .ok (b, rest) := by
  constructor
  · intro h
    cases hm : m supply with
    | error e => exact nomatch (bind_error hm).symm.trans h
    | ok r => exact ⟨r.1, r.2, rfl, (bind_ok hm).symm.trans h⟩
  · rintro ⟨a, next, hm, hf⟩
    exact (bind_ok hm).trans hf

theorem bind_eq_error_iff :
    (m >>= f) supply = .error e ↔
      m supply = .error e ∨ ∃ a next, m supply = .ok (a, next) ∧ f a next = .error e := by
  constructor
  · intro h
    cases hm : m supply with
    | error e' =>
        have heq := (bind_error hm).symm.trans h
        rw [Except.error.injEq] at heq
        exact .inl (heq ▸ rfl)
    | ok r => exact .inr ⟨r.1, r.2, rfl, (bind_ok hm).symm.trans h⟩
  · rintro (hm | ⟨a, next, hm, hf⟩)
    · exact bind_error hm
    · exact (bind_ok hm).trans hf

theorem pure_eq_ok_iff : (pure a : Mint α) supply = .ok (a', rest) ↔ a = a' ∧ supply = rest := by
  change Except.ok (a, supply) = .ok (a', rest) ↔ _
  rw [Except.ok.injEq, Prod.mk.injEq]

theorem ofExcept_eq_ok_iff {x : Except Failure α} :
    ofExcept x supply = .ok (a, rest) ↔ x = .ok a ∧ supply = rest := by
  cases x with
  | error e => exact ⟨fun h => (nomatch h), fun ⟨h, _⟩ => (nomatch h)⟩
  | ok b =>
      change Except.ok (b, supply) = .ok (a, rest) ↔ _
      rw [Except.ok.injEq, Prod.mk.injEq, Except.ok.injEq]

end Mint

end LosslessSyntax
