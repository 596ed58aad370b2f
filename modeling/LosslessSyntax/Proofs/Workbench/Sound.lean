import LosslessSyntax.Proofs.Document.Modify
import LosslessSyntax.Proofs.Edit.Verdict
import LosslessSyntax.Proofs.Green.Exact
import LosslessSyntax.Proofs.Workbench.Step

namespace LosslessSyntax

theorem Green.Creation.made {held : List Green} {supply rest : Supply} {g : Green}
    (hheld : ∀ c ∈ held, c.Sound supply) (h : g.Creation held supply rest) :
    g.Made supply rest := by
  cases h with
  | token hle h => exact Green.made_of_ofShape (TokenShape.fits_of_le hle) h
  | missing h => exact Green.made_of_ofShape (TokenShape.fits_absent _) h
  | node hcs h => exact Green.made_of_assemble (fun c hc => hheld c (hcs c hc)) h
  | fittingNode hcs h => exact Green.made_of_ofFittingChildren (fun c hc => hheld c (hcs c hc)) h
  | replaceChild hparent hreplacement h =>
      exact Green.made_of_replaceChild (hheld _ hparent) (hheld _ hreplacement) h
  | attach helement h => exact Green.made_of_attach (hheld _ helement) h

namespace Session

structure Sound (supply : Supply) (s : Session) : Prop where
  reached : s.Reached
  root : s.root.Sound supply
  placed : ∀ {id : Nat} {p : Placement}, s.placements[id]? = some p → p.green.Sound supply

variable {s t : Session} {supply rest : Supply}

theorem Sound.mono (hs : s.Sound supply) (hle : supply.next ≤ rest.next) : s.Sound rest :=
  ⟨hs.reached, hs.root.mono hle, fun hp => (hs.placed hp).mono hle⟩

theorem sound_of_ofRoot {g : Green} (hg : g.Sound supply) (hn : g.isNode = true)
    (h : ofRoot g supply = .ok (s, rest)) : s.Sound rest ∧ supply.next ≤ rest.next := by
  have hs : s.Reached := .opened hg.wellFormed hn h
  have hle : supply.next ≤ rest.next := by
    cases h
    exact Nat.le_succ _
  have hover := Over.of_ofRoot (hg.mono hle) h
  exact ⟨⟨hs, hover.root, hover.placed⟩, hle⟩

theorem Sound.over (hs : s.Sound supply) : s.Over (Green.Sound supply) := ⟨hs.root, hs.placed⟩

theorem Sound.move (hs : s.Sound supply) (h : Move (Green.Sound supply) s t) :
    t.Sound supply := by
  have ht := hs.over.move (fun _ _ hg hc => hg.of_mem_children hc) h
  exact ⟨hs.reached.moved (h.mono fun _ _ => trivial), ht.root, ht.placed⟩

theorem Sound.after {α : Type} {m : Nav α} (hs : s.Sound supply)
    (hm : Nav.Moving (Green.Sound supply) m) : (Nav.after m s).Sound supply := by
  have hmoves := hm s
  generalize Nav.after m s = t at hmoves
  induction hmoves with
  | refl => exact hs
  | tail _ hmove ih => exact ih.move hmove

structure Applied (supply : Supply) (t new : Session) (rest : Supply) : Prop where
  before : t.Sound rest
  after : new.Sound rest
  isNode : new.root.isNode = true
  next_le : supply.next ≤ rest.next

theorem Sound.apply {edits : List Edit} {new : Session} (hs : s.Sound supply)
    (hr : ∀ e ∈ edits, e.replacement.Sound supply)
    (h : Session.apply edits supply s = .ok (new, rest) t) : Applied supply t new rest := by
  have ht : t.Sound supply := Nav.after_of_ok h ▸ hs.after (Nav.Moving.apply edits supply)
  have hanswer := Nav.answer_of_ok h
  obtain ⟨-, hsettled, next, hrenew, ho⟩ := renew_of_apply hs.reached hanswer
  have hrenewed := Splice.renewed_of_renew hsettled hrenew
  have hwf : new.root.WellFormed ∧ new.root.isNode = true := by
    cases completed_of_apply hs.reached (fun e he => (hr e he).wellFormed) hanswer with
    | accepted hwf hn hwidth hroots ho =>
        obtain ⟨-, rfl⟩ := coherent_of_ofRoot ho
        exact ⟨hwf, hn⟩
  have hroot : new.root.Sound next := by
    refine ⟨hwf.1, ?_⟩
    intro q m hm
    refine hrenewed.stamp_lt (fun q m hm => hs.root.before hm) ?_ hm
    intro x hx q m hm
    exact (Edit.forall_splices_replacement hr x hx).before hm
  obtain ⟨hnew, hle⟩ := sound_of_ofRoot hroot hwf.2 ho
  have hle := Nat.le_trans hrenewed.next_le hle
  exact ⟨ht.mono hle, hnew, hwf.2, hle⟩

end Session

namespace Document

structure Sound (supply : Supply) (d : Document) : Prop where
  root : d.root.Sound supply
  isNode : d.root.isNode = true

variable {d d' : Document} {supply rest : Supply}

theorem Sound.mono (hd : d.Sound supply) (hle : supply.next ≤ rest.next) : d.Sound rest :=
  ⟨hd.root.mono hle, hd.isNode⟩

theorem Sound.modify {s : Session} {edits : List (Path × Green)} (hd : d.Sound supply)
    (hr : ∀ e ∈ edits, e.2.Sound supply)
    (h : modify edits supply d = .ok (s, rest) d') :
    s.Sound rest ∧ d'.Sound rest ∧ supply.next ≤ rest.next := by
  obtain ⟨opened, next, hopened, h⟩ := modify_eq_ok h
  obtain ⟨hsound, hle⟩ := Session.sound_of_ofRoot hd.root hd.isNode hopened
  rcases h with ⟨rfl, rfl, rfl⟩ | ⟨t, happly, hroot⟩
  · exact ⟨hsound, hd.mono hle, hle⟩
  · have hreplacements : ∀ x ∈ edits, (Edit.atPath x.1 x.2).replacement.Sound next := by
      intro x hx
      exact (hr x hx).mono hle
    have happlied := hsound.apply (List.forall_mem_map.mpr hreplacements) happly
    refine ⟨happlied.after, ⟨?_, ?_⟩, Nat.le_trans hle happlied.next_le⟩
    · exact hroot ▸ happlied.after.root
    · exact hroot ▸ happlied.isNode

end Document

namespace Workbench

structure Sound (w : Workbench) : Prop where
  elements : ∀ g ∈ w.elements, g.Sound w.supply
  builders : ∀ b ∈ w.builders, b.Sound w.supply
  sessions : ∀ s ∈ w.sessions, s.Sound w.supply
  documents : ∀ d ∈ w.documents, d.Sound w.supply

namespace Sound

variable {w w' : Workbench} {rest : Supply}

theorem empty (supply : Supply) : (Workbench.empty supply).Sound :=
  ⟨List.forall_mem_nil _, List.forall_mem_nil _, List.forall_mem_nil _, List.forall_mem_nil _⟩

theorem draw (h : w.Sound) (hle : w.supply.next ≤ rest.next) : (w.draw rest).Sound :=
  ⟨fun g hg => (h.elements g hg).mono hle, fun b hb => (h.builders b hb).mono hle,
    fun s hs => (h.sessions s hs).mono hle, fun d hd => (h.documents d hd).mono hle⟩

theorem hold (h : w.Sound) {gs : List Green} (hgs : ∀ g ∈ gs, g.Sound w.supply) :
    (w.hold gs).Sound :=
  ⟨List.forall_mem_append.mpr ⟨hgs, h.elements⟩, h.builders, h.sessions, h.documents⟩

theorem hold_one (h : w.Sound) {g : Green} (hg : g.Sound w.supply) : (w.hold [g]).Sound :=
  h.hold (List.forall_mem_singleton.mpr hg)

theorem forall_mem_set {α : Type} {P : α → Prop} {xs : List α} (h : ∀ x ∈ xs, P x) (i : Nat)
    {a : α} (ha : P a) : ∀ x ∈ xs.set i a, P x := by
  intro x hx
  rcases List.mem_or_eq_of_mem_set hx with hx | rfl
  · exact h x hx
  · exact ha

theorem putBuilder (h : w.Sound) (i : Nat) {b : Builder} (hb : b.Sound w.supply) :
    (w.putBuilder i b).Sound :=
  ⟨h.elements, forall_mem_set h.builders i hb, h.sessions, h.documents⟩

theorem putSession (h : w.Sound) (i : Nat) {s : Session} (hs : s.Sound w.supply) :
    (w.putSession i s).Sound :=
  ⟨h.elements, h.builders, forall_mem_set h.sessions i hs, h.documents⟩

theorem putDocument (h : w.Sound) (i : Nat) {d : Document} (hd : d.Sound w.supply) :
    (w.putDocument i d).Sound :=
  ⟨h.elements, h.builders, h.sessions, forall_mem_set h.documents i hd⟩

theorem addSession (h : w.Sound) {s : Session} (hs : s.Sound w.supply) : (w.addSession s).Sound :=
  ⟨h.elements, h.builders, List.forall_mem_cons.mpr ⟨hs, h.sessions⟩, h.documents⟩

theorem step (h : w.Sound) (hstep : Step w w') : w'.Sound := by
  have hsession := fun {i : Nat} {s : Session} (hs : w.sessions[i]? = some s) =>
    h.sessions s (List.mem_of_getElem? hs)
  have hdocument := fun {i : Nat} {d : Document} (hd : w.documents[i]? = some d) =>
    h.documents d (List.mem_of_getElem? hd)
  cases hstep with
  | create hg =>
      have hmade := hg.made h.elements
      exact (h.draw hmade.next_le).hold_one hmade.sound
  | part hg hc => exact h.hold_one ((h.elements _ hg).of_mem_children hc)
  | newBuilder internsTokens depthHint =>
      have hb := Builder.sound_new w.supply internsTokens depthHint
      exact ⟨h.elements, List.forall_mem_cons.mpr ⟨hb, h.builders⟩, h.sessions, h.documents⟩
  | callBuilder hb hcall =>
      have hserved := (h.builders _ (List.mem_of_getElem? hb)).call h.elements hcall
      exact ((h.draw hserved.next_le).putBuilder _ hserved.builder).hold hserved.elements
  | openSession hg hn ho =>
      obtain ⟨hs, hle⟩ := Session.sound_of_ofRoot (h.elements _ hg) hn ho
      exact (h.draw hle).addSession hs
  | move hs hmove => exact h.putSession _ ((hsession hs).move (hmove.mono h.elements))
  | handle hs hp => exact h.hold_one ((hsession hs).placed hp)
  | apply hs hr happly =>
      have happlied := (hsession hs).apply (fun e he => h.elements _ (hr e he)) happly
      exact (((h.draw happlied.next_le).putSession _ happlied.before).addSession
        happlied.after).hold_one happlied.after.root
  | @refuse i s t edits f hs hr happly =>
      have ht := (hsession hs).after (Nav.Moving.apply edits w.supply)
      rw [Nav.after_of_error happly] at ht
      exact h.putSession _ ht
  | newDocument hg hn =>
      have hd : (Document.ofRoot _).Sound w.supply := ⟨h.elements _ hg, hn⟩
      exact ⟨h.elements, h.builders, h.sessions, List.forall_mem_cons.mpr ⟨hd, h.documents⟩⟩
  | viewDocument hd ho =>
      obtain ⟨hs, hle⟩ := Session.sound_of_ofRoot (hdocument hd).root (hdocument hd).isNode ho
      exact ((h.draw hle).addSession hs).hold_one ((hdocument hd).mono hle).root
  | modify hd hr hmodify =>
      obtain ⟨hs, hd', hle⟩ := (hdocument hd).modify (fun e he => h.elements _ (hr e he)) hmodify
      exact (((h.draw hle).putDocument _ hd').addSession hs).hold_one hd'.root

end Sound

theorem Reachable.sound {w : Workbench} (h : w.Reachable) : w.Sound := by
  induction h with
  | empty supply => exact .empty supply
  | step _ hstep ih => exact ih.step hstep

theorem Reachable.held_exact {w : Workbench} (h : w.Reachable) :
    (∀ g ∈ w.elements, ∀ q n, g.descend? q = some n → n.Exact) ∧
      (∀ kind cs supply, (∀ c ∈ cs, c ∈ w.elements) →
        ((∃ e, Green.ofChildren kind cs supply = .error e) ↔
          maxSize < Green.tokenWidths (Green.shapesAmong cs))) ∧
      (∀ g ∈ w.elements, ∀ replacement ∈ w.elements, ∀ index supply,
        index < g.children.length →
        ((∃ e, g.replaceChild index replacement supply = .error e) ↔
          maxSize < Green.tokenWidths (Green.shapesAmong (g.children.set index replacement)))) := by
  have hwf := fun g hg => (h.sound.elements g hg).wellFormed
  refine ⟨?_, ?_, ?_⟩
  · intro g hg q n hn
    exact ((hwf g hg).of_descend? hn).exact
  · intro kind cs supply hcs
    exact Green.assemble_fails_iff (fun c hc => hwf c (hcs c hc)) []
  · intro g hg replacement hr index supply hi
    rw [Green.replaceChild_eq hi]
    refine Green.assemble_fails_iff ?_ g.diagnostics
    intro c hc
    rcases List.mem_or_eq_of_mem_set hc with hc | rfl
    · exact (hwf g hg).of_mem_children hc
    · exact hwf c hr

end Workbench

namespace Sample

def statement : Green :=
  node 2 .expressionStatement
    [token 0 .identifierToken 3, .token 1 (TokenShape.absent .semicolonToken) []]

def bench : Workbench where
  supply := ⟨3⟩
  elements := statement :: statement.children.reverse
  builders := []
  sessions := []
  documents := []

theorem bench_reachable : bench.Reachable := by
  have htoken : (Workbench.empty ⟨0⟩).Step
      ⟨⟨1⟩, [token 0 .identifierToken 3], [], [], []⟩ := .create (.token (by decide) rfl)
  have hmissing : Workbench.Step ⟨⟨1⟩, [token 0 .identifierToken 3], [], [], []⟩
      ⟨⟨2⟩, statement.children.reverse, [], [], []⟩ := .create (.missing rfl)
  have hheld : ∀ c ∈ statement.children, c ∈ statement.children.reverse := by
    intro c hc
    exact List.mem_reverse.mpr hc
  exact .step (.step (.step (.empty ⟨0⟩) htoken) hmissing) (.create (.node hheld rfl))

theorem statement_exact : bench.Reachable ∧ statement.Exact :=
  ⟨bench_reachable, bench_reachable.held_exact.1 statement List.mem_cons_self [] statement rfl⟩

end Sample

end LosslessSyntax
