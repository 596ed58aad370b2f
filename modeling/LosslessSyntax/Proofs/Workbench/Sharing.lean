import LosslessSyntax.Proofs.Session.Survey
import LosslessSyntax.Proofs.Workbench.Equality

namespace LosslessSyntax

open Session (ofRoot)

namespace Green.Twin

variable {a b : Green}

theorem paired_ofRoot (h : a.Twin b) (ha : a.WellFormed) (hb : b.WellFormed)
    (hn : a.isNode = true) (supply supply' : Supply) :
    ∃ s rest s' rest', ofRoot a supply = .ok (s, rest) ∧ ofRoot b supply' = .ok (s', rest') ∧
      s.Paired s' := by
  have hok (g : Green) (supply : Supply) : ∃ s rest, ofRoot g supply = .ok (s, rest) :=
    ⟨_, _, rfl⟩
  obtain ⟨s, rest, ho⟩ := hok a supply
  obtain ⟨s', rest', ho'⟩ := hok b supply'
  refine ⟨s, rest, s', rest', ho, ho', ?_, ?_, ?_⟩
  · rcases Session.agree_ofRoot h supply supply' with
      ⟨e, he, -⟩ | ⟨_, _, _, _, hs, hs', hst, -⟩
    · cases ho.symm.trans he
    · cases ho.symm.trans hs
      cases ho'.symm.trans hs'
      exact hst
  · exact ⟨.opened ha hn ho, Session.strays_of_ofRoot ho⟩
  · exact ⟨.opened hb (h.isNode_eq.symm.trans hn) ho', Session.strays_of_ofRoot ho'⟩

end Green.Twin

namespace Workbench

variable {w : Workbench}

theorem Reachable.surveys_match (h : w.Reachable) :
    ∀ g ∈ w.elements, ∀ g' ∈ w.elements, g.isNode = true → g.alike g' = true →
      ∀ supply supply', ∃ s rest s' rest',
        ofRoot g supply = .ok (s, rest) ∧ ofRoot g' supply' = .ok (s', rest') ∧
          ∀ inquiries, Survey.Match ((Survey.opened s rest).run inquiries)
            ((Survey.opened s' rest').run inquiries) := by
  intro g hg g' hg' hn halike supply supply'
  have hwf := fun e he => (h.sound.elements e he).wellFormed
  obtain ⟨s, rest, s', rest', ho, ho', hpaired⟩ :=
    (h.twin_of_alike hg hg' halike).paired_ofRoot (hwf g hg) (hwf g' hg') hn supply supply'
  refine ⟨s, rest, s', rest', ho, ho', fun inquiries => ?_⟩
  have hopened : (Survey.opened s rest).Paired (Survey.opened s' rest') := ⟨hpaired, rfl, nofun⟩
  exact hopened.match_run inquiries

end Workbench

namespace Sample

def emptyList (stamp : Nat) : Green := node stamp .list []

def sharing : Green := node 2 .list [emptyList 0, emptyList 0]

def copying : Green := node 3 .list [emptyList 0, emptyList 1]

def lists : Workbench where
  supply := ⟨4⟩
  elements := [copying, sharing, emptyList 1, emptyList 0]
  builders := []
  sessions := []
  documents := []

theorem lists_reachable : lists.Reachable := by
  have hnone (held : List Green) : ∀ c ∈ ([] : List Green), c ∈ held := nofun
  have hone : ∀ c ∈ [emptyList 0, emptyList 0], c ∈ [emptyList 1, emptyList 0] := by simp
  have hboth : ∀ c ∈ [emptyList 0, emptyList 1], c ∈ [sharing, emptyList 1, emptyList 0] := by simp
  have hfirst : (Workbench.empty ⟨0⟩).Step ⟨⟨1⟩, [emptyList 0], [], [], []⟩ :=
    .create (.node (hnone []) rfl)
  have hsecond : Workbench.Step ⟨⟨1⟩, [emptyList 0], [], [], []⟩
      ⟨⟨2⟩, [emptyList 1, emptyList 0], [], [], []⟩ := .create (.node (hnone _) rfl)
  have hsharing : Workbench.Step ⟨⟨2⟩, [emptyList 1, emptyList 0], [], [], []⟩
      ⟨⟨3⟩, [sharing, emptyList 1, emptyList 0], [], [], []⟩ := .create (.node hone rfl)
  exact .step (.step (.step (.step (.empty ⟨0⟩) hfirst) hsecond) hsharing)
    (.create (.node hboth rfl))

def tour : List Inquiry :=
  [.ask (.find (.resolve ⟨[1]⟩)), .ask (.find (.resolve ⟨[0]⟩)), .walk 2, .advance 0 false false,
    .advance 0 false true, .advance 0 false false, .apply [(⟨[0]⟩, emptyList 4)]]

theorem tour_matches : lists.Reachable ∧ sharing.alike copying = true ∧
    ∃ s rest s' rest', ofRoot sharing ⟨4⟩ = .ok (s, rest) ∧ ofRoot copying ⟨4⟩ = .ok (s', rest') ∧
      Survey.Match ((Survey.opened s rest).run tour) ((Survey.opened s' rest').run tour) := by
  have halike : sharing.alike copying = true := by decide
  obtain ⟨s, rest, s', rest', ho, ho', hmatch⟩ := lists_reachable.surveys_match sharing
    (by simp [lists]) copying (by simp [lists]) rfl halike ⟨4⟩ ⟨4⟩
  exact ⟨lists_reachable, halike, s, rest, s', rest', ho, ho', hmatch tour⟩

end Sample

end LosslessSyntax
