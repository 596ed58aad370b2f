import LosslessSyntax.Proofs.Green.Reading
import LosslessSyntax.Proofs.Workbench.Equality

namespace LosslessSyntax

theorem Workbench.Reachable.dump_identifies {w : Workbench} (h : w.Reachable) {a b : Green}
    (ha : a ∈ w.elements) (hb : b ∈ w.elements) (hda : a.containsDiagnostics = false)
    (hdb : b.containsDiagnostics = false) :
    ∃ text text', a.dump = .ok text ∧ b.dump = .ok text' ∧
      (text = text' ↔ a.alike b = true) ∧ (text = text' ↔ a.SameContent b) := by
  have hpa : a.Plain := ⟨(h.sound.elements a ha).wellFormed, hda⟩
  have hpb : b.Plain := ⟨(h.sound.elements b hb).wellFormed, hdb⟩
  obtain ⟨text, hdump, -⟩ := hpa.splitOn_dump
  obtain ⟨text', hdump', -⟩ := hpb.splitOn_dump
  have hcontent := hpa.dump_eq_iff hpb
  rw [hdump, hdump', Except.ok.injEq] at hcontent
  have halike := (h.alike_iff_content.1 a ha b hb).1
  exact ⟨text, text', hdump, hdump', hcontent.trans halike.symm, hcontent⟩

namespace Sample

def lacked : Green := node 2 .list [.token 0 (TokenShape.absent .identifierToken) []]

def blank : Green := node 3 .list [token 1 .identifierToken 0]

def outlined : Workbench where
  supply := ⟨4⟩
  elements := blank :: lacked :: (blank.children ++ lacked.children)
  builders := []
  sessions := []
  documents := []

theorem outlined_reachable : outlined.Reachable := by
  have hmissing : (Workbench.empty ⟨0⟩).Step ⟨⟨1⟩, lacked.children, [], [], []⟩ :=
    .create (.missing rfl)
  have htoken : Workbench.Step ⟨⟨1⟩, lacked.children, [], [], []⟩
      ⟨⟨2⟩, blank.children ++ lacked.children, [], [], []⟩ := .create (.token (by decide) rfl)
  have hheld : ∀ c ∈ lacked.children, c ∈ blank.children ++ lacked.children := by
    intro c hc
    exact List.mem_append_right _ hc
  have hlacked : Workbench.Step ⟨⟨2⟩, blank.children ++ lacked.children, [], [], []⟩
      ⟨⟨3⟩, lacked :: (blank.children ++ lacked.children), [], [], []⟩ :=
    .create (.node hheld rfl)
  have hheld' : ∀ c ∈ blank.children, c ∈ lacked :: (blank.children ++ lacked.children) := by
    intro c hc
    exact List.mem_cons_of_mem _ (List.mem_append_left _ hc)
  exact .step (.step (.step (.step (.empty ⟨0⟩) hmissing) htoken) hlacked)
    (.create (.node hheld' rfl))

theorem missing_shows : outlined.Reachable ∧ lacked.width = blank.width ∧
    lacked.alike blank = false ∧
    ∃ text text', lacked.dump = .ok text ∧ blank.dump = .ok text' ∧ text ≠ text' := by
  have hlacked : lacked ∈ outlined.elements := by simp [outlined]
  have hblank : blank ∈ outlined.elements := by simp [outlined]
  obtain ⟨text, text', hdump, hdump', halike, -⟩ :=
    outlined_reachable.dump_identifies hlacked hblank rfl rfl
  have hunlike : lacked.alike blank = false := by decide
  refine ⟨outlined_reachable, rfl, hunlike, text, text', hdump, hdump', fun heq => ?_⟩
  exact Bool.false_ne_true (hunlike.symm.trans (halike.mp heq))

end Sample

end LosslessSyntax
