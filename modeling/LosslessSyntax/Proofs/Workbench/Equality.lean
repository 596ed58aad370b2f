import LosslessSyntax.Proofs.Green.Equality
import LosslessSyntax.Proofs.Workbench.Registry

namespace LosslessSyntax

namespace Workbench

variable {w : Workbench} {a b : Green}

theorem Reachable.twin_of_alike (h : w.Reachable) (ha : a ∈ w.elements) (hb : b ∈ w.elements)
    (hab : a.alike b = true) : a.Twin b := by
  obtain ⟨r, hr⟩ := h.listed
  exact Green.twin_of_alike (hr.elements a ha) (hr.elements b hb) hab

theorem Reachable.alike_iff_content (h : w.Reachable) :
    (∀ a ∈ w.elements, ∀ b ∈ w.elements,
      (a.alike b = true ↔ a.SameContent b) ∧
        (a.alike b = true → a.unstamped = b.unstamped ∧ a.contentHash = b.contentHash)) ∧
      ∀ n ∈ w.elements, ∀ e ∈ w.elements, ∀ index d supply,
        (∃ made rest, n.replaceChild index e supply = .ok (made, rest)) →
        ∀ supply', ∃ x y last last',
          (n.attach d >>= (·.replaceChild index e)) supply' = .ok (x, last) ∧
            (n.replaceChild index e >>= (·.attach d)) supply = .ok (y, last') ∧
            x.alike y = true ∧ y.alike x = true := by
  have hwf := fun g hg => (h.sound.elements g hg).wellFormed
  refine ⟨?_, ?_⟩
  · intro a ha b hb
    have htwin := h.twin_of_alike ha hb
    refine ⟨⟨fun hab => (htwin hab).sameContent, fun hab => ?_⟩, fun hab => ?_⟩
    · exact (hab.twin (hwf a ha) (hwf b hb)).alike
    · exact ⟨htwin hab, (htwin hab).contentHash_eq⟩
  · rintro n hn e he index d supply ⟨made, rest, hmade⟩ supply'
    obtain ⟨x, y, last, last', hx, hy, hxy⟩ :=
      Green.attach_replaceChild_comm (hwf n hn) (hwf e he) hmade d supply'
    have hyx : y.Twin x := hxy.symm
    exact ⟨x, y, last, last', hx, hy, hxy.alike, hyx.alike⟩

end Workbench

namespace Sample

def restatement : Green := node 3 .expressionStatement statement.children

def pair : Workbench where
  supply := ⟨4⟩
  elements := restatement :: bench.elements
  builders := []
  sessions := []
  documents := []

theorem pair_reachable : pair.Reachable := by
  have hstatement : statement ∈ bench.elements := by simp [bench]
  have hname : token 0 .identifierToken 3 ∈ bench.elements := by
    simp [bench, statement, Green.children, node]
  have hmade : restatement.Creation bench.elements bench.supply ⟨4⟩ :=
    @Green.Creation.replaceChild _ _ _ _ 0 _ _ hstatement hname rfl
  exact .step bench_reachable (.create hmade)

theorem pair_alike : pair.Reachable ∧ statement.alike restatement = true ∧
    statement.contentHash = restatement.contentHash := by
  have hstatement : statement ∈ pair.elements := by simp [pair, bench]
  have hrestatement : restatement ∈ pair.elements := by simp [pair]
  have hboth := pair_reachable.alike_iff_content.1 statement hstatement restatement hrestatement
  have halike : statement.alike restatement = true :=
    hboth.1.mpr ⟨rfl, rfl, ⟨rfl, rfl⟩, ⟨rfl, rfl⟩, trivial⟩
  exact ⟨pair_reachable, halike, (hboth.2 halike).2⟩

end Sample

end LosslessSyntax
