import LosslessSyntax.Proofs.Session.Faultless
import LosslessSyntax.Proofs.Workbench.Sound

namespace LosslessSyntax

theorem Workbench.Reachable.visits_faultless {w : Workbench} (h : w.Reachable) {root : Green}
    (hroot : root ∈ w.elements) (hn : root.isNode = true) (supply : Supply) :
    ∃ s rest, Session.ofRoot root supply = .ok (s, rest) ∧
      ∀ v, Relation.ReflTransGen Visit.Step ⟨s, [Session.rootId], 0⟩ v → v.Faultless root := by
  have ho : ∃ s rest, Session.ofRoot root supply = .ok (s, rest) := ⟨_, _, rfl⟩
  obtain ⟨s, rest, ho⟩ := ho
  have hwf := (h.sound.elements root hroot).wellFormed
  exact ⟨s, rest, ho, fun v hv => ((Visit.Reachable.opened hwf hn ho).later hv).1.faultless⟩

namespace Sample

def brimful : Green :=
  node 2 .expressionStatement
    [token 0 .identifierToken (maxSize - 1), token 1 .semicolonToken 1]

def brim : Workbench where
  supply := ⟨3⟩
  elements := brimful :: brimful.children.reverse
  builders := []
  sessions := []
  documents := []

theorem brim_reachable : brim.Reachable := by
  have hname : (Workbench.empty ⟨0⟩).Step
      ⟨⟨1⟩, [token 0 .identifierToken (maxSize - 1)], [], [], []⟩ :=
    .create (.token (by decide) rfl)
  have hsemicolon : Workbench.Step ⟨⟨1⟩, [token 0 .identifierToken (maxSize - 1)], [], [], []⟩
      ⟨⟨2⟩, brimful.children.reverse, [], [], []⟩ := .create (.token (by decide) rfl)
  have hheld : ∀ c ∈ brimful.children, c ∈ brimful.children.reverse := by
    intro c hc
    exact List.mem_reverse.mpr hc
  exact .step (.step (.step (.empty ⟨0⟩) hname) hsemicolon) (.create (.node hheld rfl))

def brimSession : Session := ⟨3, brimful, #[Placement.make brimful 0 none 0]⟩

def brimVisit : Visit where
  session := Nav.after (Session.childAt Session.rootId 1) brimSession
  handles := [1, Session.rootId]
  detached := 0

theorem brimVisit_step : Visit.Step ⟨brimSession, [Session.rootId], 0⟩ brimVisit := by
  have hrun : (Request.childAt Session.rootId 1).run brimSession = .ok [1] brimVisit.session := rfl
  exact Visit.Step.answered (v := ⟨brimSession, [Session.rootId], 0⟩) (List.Subset.refl _) hrun

theorem brimful_faultless : brim.Reachable ∧ brimful.isNode = true ∧
    brimVisit.session.placements[1]?.map Placement.offset = some (maxSize - 1) ∧
    brimVisit.Faultless brimful ∧
    ∀ e t, (Request.trimmedRange 1).run brimVisit.session = .error e t → e.Excused t := by
  have hmem : brimful ∈ brim.elements := List.mem_cons_self
  obtain ⟨s, rest, ho, hfaultless⟩ := brim_reachable.visits_faultless hmem rfl ⟨3⟩
  cases ho
  have ho : Session.ofRoot brimful ⟨3⟩ = .ok (brimSession, ⟨4⟩) := rfl
  have hwf := (brim_reachable.sound.elements brimful hmem).wellFormed
  have hlater := (Visit.Reachable.opened hwf rfl ho).step brimVisit_step
  have hvisit := hfaultless brimVisit (.single brimVisit_step)
  have hlast : brimVisit.session.At [1] 1 :=
    .child (p := Placement.make (token 1 .semicolonToken 1) (maxSize - 1) (some 0) 1) .root rfl rfl
  have hfits := (hvisit.attached 1 (hlast.attached hlater.sound.reached.coherent)).1
  exact ⟨brim_reachable, rfl, rfl, hvisit,
    hvisit.excused (.trimmedRange 1) trivial (List.forall_mem_singleton.mpr hfits)⟩

end Sample

end LosslessSyntax
