import LosslessSyntax.Proofs.Builder.Event
import LosslessSyntax.Proofs.Green.Registry
import LosslessSyntax.Proofs.Workbench.Sound

namespace LosslessSyntax

namespace Green

open Mint (Registering)

variable {held : List Green} {r : Registry} {g : Green} {rest : Supply}

theorem Creation.registered (hheld : ∀ c ∈ held, r.Lists c)
    (h : g.Creation held r.supply rest) : r.Admits rest [g] := by
  cases h with
  | token hle h => exact registering_ofShape _ r (List.forall_mem_nil _) _ _ h
  | missing h => exact registering_ofShape _ r (List.forall_mem_nil _) _ _ h
  | node hcs h => exact registering_assemble _ _ _ r (fun c hc => hheld c (hcs c hc)) _ _ h
  | fittingNode hcs h =>
      exact registering_ofFittingChildren _ _ r (fun c hc => hheld c (hcs c hc)) _ _ h
  | replaceChild hparent hreplacement h =>
      refine registering_replaceChild _ _ _ r ?_ _ _ h
      exact List.forall_mem_cons.mpr
        ⟨hheld _ hparent, List.forall_mem_singleton.mpr (hheld _ hreplacement)⟩
  | attach helement h =>
      exact registering_attach _ _ r (List.forall_mem_singleton.mpr (hheld _ helement)) _ _ h

end Green

namespace Builder

open Mint (Registering)

variable {held out : List Green} {b b' : Builder} {r : Registry} {rest : Supply}

def contents (b : Builder) : List Green := b.cache.map Prod.snd ++ b.pending.toList

theorem contents_push (b : Builder) (g : Green) : (b.push g).contents = b.contents ++ [g] := by
  rw [contents, push, Array.toList_push, ← List.append_assoc]
  rfl

theorem contents_emptied_subset :
    ({ b with opened := [], pending := #[] } : Builder).contents ⊆ b.contents :=
  List.append_subset.mpr ⟨List.subset_append_left _ _, List.nil_subset _⟩

theorem registering_intern (b : Builder) (shape : TokenShape) :
    Registering b.contents (b.intern shape) fun made => made.1 :: made.2.contents := by
  have hfresh := (Green.registering_ofShape shape).of_subset (List.nil_subset b.contents)
  rw [intern]
  split
  · cases hlookup : b.cache.lookup shape with
    | some cached =>
        have hcached := List.mem_map_of_mem (f := Prod.snd) (mem_of_lookup hlookup)
        exact .pure (List.cons_subset.mpr
          ⟨List.mem_append_left _ hcached, List.Subset.refl b.contents⟩)
    | none =>
        refine hfresh.bind fun token => .pure ?_
        exact List.cons_subset.mpr ⟨List.mem_cons_self, List.Subset.refl _⟩
  · refine hfresh.bind fun token => .pure ?_
    exact List.Subset.refl (token :: b.contents)

theorem registering_requireTokenKind (kind : Kind) :
    Registering [] (requireTokenKind kind) fun _ => [] := by
  rw [requireTokenKind]
  split
  · exact .pure (List.nil_subset _)
  · exact .fail _

theorem registering_token (b : Builder) (kind : Kind) (leading text trailing : Nat) :
    Registering b.contents (b.token kind leading text trailing)
      fun made => made.1 :: made.2.contents :=
  ((registering_requireTokenKind kind).of_subset (List.nil_subset _)).bind fun _ =>
    b.registering_intern _

theorem registering_missing (b : Builder) (kind : Kind) :
    Registering b.contents (b.missing kind) fun made => made.1 :: made.2.contents :=
  ((registering_requireTokenKind kind).of_subset (List.nil_subset _)).bind fun _ =>
    b.registering_intern _

theorem registering_createToken (b : Builder) (shape : TokenShape) :
    Registering b.contents (b.createToken shape)
      fun made => made.1.toOption.toList ++ made.2.contents := by
  rw [createToken]
  cases checkToken shape with
  | error e => exact .pure (List.Subset.refl _)
  | ok u =>
      exact (b.registering_intern shape).bind fun made => .pure (List.subset_append_left _ _)

theorem registering_pushed {m : Mint (Green × Builder)}
    (h : Registering b.contents m fun made => made.1 :: made.2.contents) :
    Registering b.contents (do let (token, b) ← m; pure (b.push token)) contents := by
  refine h.bind fun made => .pure ?_
  rw [contents_push]
  intro g hg
  rw [List.mem_append, List.mem_singleton] at hg
  rcases hg with hg | rfl
  · exact List.mem_append_left _ (List.mem_cons_of_mem _ hg)
  · exact List.mem_append_left _ List.mem_cons_self

theorem registering_checkedNode (b : Builder) (kind : Kind) (cs : List Green) :
    Registering cs (b.checkedNode kind cs) fun g => [g] := by
  rw [checkedNode]
  split
  · exact .fail _
  · exact (Registering.ofExcept _).bind fun _ =>
      Green.registering_assemble kind cs []

theorem registering_finishNode (b : Builder) :
    Registering b.contents b.finishNode contents := by
  rw [finishNode]
  cases b.opened with
  | nil => exact .fail _
  | cons top opened =>
      have hpending : b.pending.toList ⊆ b.contents := List.subset_append_right _ _
      have hcs : b.pending.toList.drop top.firstChild ⊆ b.contents :=
        List.Subset.trans (List.drop_subset _ _) hpending
      refine ((Green.registering_assemble top.kind _ []).of_subset hcs).bind fun node => .pure ?_
      intro g hg
      simp only [contents, Array.toList_push, List.mem_append, List.mem_singleton] at hg ⊢
      rcases hg with hg | hg | rfl
      · exact .inr (.inl hg)
      · refine .inr (.inr (List.mem_of_mem_take (i := top.firstChild) ?_))
        rwa [← Array.toList_shrink, Array.shrink_eq_take]
      · exact .inl rfl

theorem Call.registered (hheld : ∀ c ∈ held, r.Lists c) (hb : ∀ g ∈ b.contents, r.Lists g)
    (h : Call held b r.supply b' out rest) : r.Admits rest (out ++ b'.contents) := by
  have hand := fun {g : Green} {rest : Supply} (h : r.Admits rest [g]) =>
    show r.Admits rest ([g] ++ b.contents) by
      obtain ⟨r', hsupply, hgrows, hmade⟩ := h
      exact ⟨r', hsupply, hgrows,
        List.forall_mem_append.mpr ⟨hmade, fun c hc => (hb c hc).mono hgrows⟩⟩
  cases h with
  | token hle h => exact b.registering_token _ _ _ _ r hb _ _ h
  | missing h => exact b.registering_missing _ r hb _ _ h
  | createToken h | refuseToken h => exact b.registering_createToken _ r hb _ _ h
  | node hcs h =>
      exact hand (Green.registering_ofFittingChildren _ _ r (fun c hc => hheld c (hcs c hc)) _ _ h)
  | checkedNode hcs h =>
      exact hand (b.registering_checkedNode _ _ r (fun c hc => hheld c (hcs c hc)) _ _ h)
  | startNode kind => exact .of_forall hb
  | push hg =>
      refine .of_forall ?_
      rw [List.nil_append, contents_push]
      exact List.forall_mem_append.mpr ⟨hb, List.forall_mem_singleton.mpr (hheld _ hg)⟩
  | pushToken hle h => exact registering_pushed (b.registering_token _ _ _ _) r hb _ _ h
  | pushMissing h => exact registering_pushed (b.registering_missing _) r hb _ _ h
  | finishNode h => exact b.registering_finishNode r hb _ _ h
  | finish h =>
      obtain ⟨hroot, rfl⟩ := Prod.mk.inj h
      have hroot := List.mem_append_right (b.cache.map Prod.snd) (mem_of_soleRoot hroot)
      exact .of_forall (List.forall_mem_append.mpr ⟨List.forall_mem_singleton.mpr (hb _ hroot),
        fun g hg => hb g (contents_emptied_subset hg)⟩)
  | giveUp h =>
      obtain ⟨-, rfl⟩ := Prod.mk.inj h
      exact .of_forall fun g hg => hb g (contents_emptied_subset hg)

end Builder

namespace Session

variable {s t new : Session} {r : Registry} {rest : Supply} {edits : List Edit}

theorem Over.mono_lists {r' : Registry} (hs : s.Over r.Lists) (hgrows : r.Grows r') :
    s.Over r'.Lists :=
  hs.mono fun _ hg => hg.mono hgrows

theorem Over.after_apply (hs : s.Over r.Lists) (edits : List Edit) (supply : Supply) :
    (Nav.after (Session.apply edits supply) s).Over r.Lists :=
  hs.after (fun _ _ hg hc => hg.of_mem_children hc) (Nav.Moving.apply edits supply)

theorem admits_of_ofRoot {g : Green} (hg : r.Lists g)
    (h : ofRoot g r.supply = .ok (s, rest)) :
    ∃ r' : Registry, r'.supply = rest ∧ r.Grows r' ∧ s.Over r'.Lists := by
  have hle : r.supply.next ≤ rest.next := by
    cases h
    exact Nat.le_succ _
  have hgrows := Registry.grows_skipTo hle
  exact ⟨r.skipTo rest, rfl, hgrows, .of_ofRoot (hg.mono hgrows) h⟩

theorem admits_of_apply (hreached : s.Reached) (hs : s.Over r.Lists)
    (hr : ∀ e ∈ edits, r.Lists e.replacement)
    (h : Session.apply edits r.supply s = .ok (new, rest) t) :
    ∃ r' : Registry, r'.supply = rest ∧ r.Grows r' ∧ new.Over r'.Lists := by
  obtain ⟨-, -, next, hrenew, ho⟩ := renew_of_apply hreached (Nav.answer_of_ok h)
  have hreplacements : ∀ g ∈ Splice.replacements (Edit.splices edits), r.Lists g :=
    List.forall_mem_map.mpr (Edit.forall_splices_replacement hr)
  obtain ⟨r', rfl, hgrows, hmade⟩ := Splice.registering_renew (Splice.registering_rebuild _ _) r
    (List.forall_mem_cons.mpr ⟨hs.root, hreplacements⟩) _ _ hrenew
  obtain ⟨r'', hsupply, hgrows', hnew⟩ := admits_of_ofRoot (hmade _ List.mem_cons_self) ho
  exact ⟨r'', hsupply, hgrows.trans hgrows', hnew⟩

end Session

namespace Document

variable {d d' : Document} {s : Session} {r : Registry} {rest : Supply}
  {edits : List (Path × Green)}

theorem admits_of_modify (hd : d.Sound r.supply) (hroot : r.Lists d.root)
    (hr : ∀ e ∈ edits, r.Lists e.2) (h : modify edits r.supply d = .ok (s, rest) d') :
    ∃ r' : Registry, r'.supply = rest ∧ r.Grows r' ∧ s.Over r'.Lists ∧ r'.Lists d'.root := by
  obtain ⟨opened, next, hsession, h⟩ := modify_eq_ok h
  have hreached := (Session.sound_of_ofRoot hd.root hd.isNode hsession).1.reached
  obtain ⟨r', rfl, hgrows, hopened⟩ := Session.admits_of_ofRoot hroot hsession
  rcases h with ⟨rfl, rfl, rfl⟩ | ⟨t, happly, hedited⟩
  · exact ⟨r', rfl, hgrows, hopened, hroot.mono hgrows⟩
  · have hreplacements : ∀ x ∈ edits, r'.Lists (Edit.atPath x.1 x.2).replacement := by
      intro x hx
      exact (hr x hx).mono hgrows
    obtain ⟨r'', hsupply, hgrows', hover⟩ := Session.admits_of_apply hreached hopened
      (List.forall_mem_map.mpr hreplacements) happly
    exact ⟨r'', hsupply, hgrows.trans hgrows', hover, hedited ▸ hover.root⟩

end Document

namespace Workbench

structure Listed (r : Registry) (w : Workbench) : Prop where
  supply : r.supply = w.supply
  elements : ∀ g ∈ w.elements, r.Lists g
  builders : ∀ b ∈ w.builders, ∀ g ∈ b.contents, r.Lists g
  sessions : ∀ s ∈ w.sessions, s.Over r.Lists
  documents : ∀ d ∈ w.documents, r.Lists d.root

namespace Listed

variable {w w' : Workbench} {r r' : Registry} {rest : Supply}

theorem empty (supply : Supply) : Listed ⟨supply, fun _ => default⟩ (Workbench.empty supply) :=
  ⟨rfl, List.forall_mem_nil _, List.forall_mem_nil _, List.forall_mem_nil _,
    List.forall_mem_nil _⟩

theorem draw (h : w.Listed r) (hgrows : r.Grows r') (hsupply : r'.supply = rest) :
    (w.draw rest).Listed r' where
  supply := hsupply
  elements g hg := (h.elements g hg).mono hgrows
  builders b hb g hg := (h.builders b hb g hg).mono hgrows
  sessions s hs := (h.sessions s hs).mono_lists hgrows
  documents d hd := (h.documents d hd).mono hgrows

theorem hold (h : w.Listed r) {gs : List Green} (hgs : ∀ g ∈ gs, r.Lists g) :
    (w.hold gs).Listed r :=
  { h with elements := List.forall_mem_append.mpr ⟨hgs, h.elements⟩ }

theorem hold_one (h : w.Listed r) {g : Green} (hg : r.Lists g) : (w.hold [g]).Listed r :=
  h.hold (List.forall_mem_singleton.mpr hg)

theorem putBuilder (h : w.Listed r) (i : Nat) {b : Builder} (hb : ∀ g ∈ b.contents, r.Lists g) :
    (w.putBuilder i b).Listed r :=
  { h with builders := Sound.forall_mem_set h.builders i hb }

theorem putSession (h : w.Listed r) (i : Nat) {s : Session} (hs : s.Over r.Lists) :
    (w.putSession i s).Listed r :=
  { h with sessions := Sound.forall_mem_set h.sessions i hs }

theorem putDocument (h : w.Listed r) (i : Nat) {d : Document} (hd : r.Lists d.root) :
    (w.putDocument i d).Listed r :=
  { h with documents := Sound.forall_mem_set h.documents i hd }

theorem addSession (h : w.Listed r) {s : Session} (hs : s.Over r.Lists) :
    (w.addSession s).Listed r :=
  { h with sessions := List.forall_mem_cons.mpr ⟨hs, h.sessions⟩ }

theorem step (h : w.Listed r) (hw : w.Sound) (hstep : Step w w') :
    ∃ r' : Registry, w'.Listed r' := by
  obtain ⟨supply, elements, builders, sessions, documents⟩ := w
  obtain rfl : r.supply = supply := h.supply
  have hsession := fun {i : Nat} {s : Session} (hs : sessions[i]? = some s) =>
    h.sessions s (List.mem_of_getElem? hs)
  have hdocument := fun {i : Nat} {d : Document} (hd : documents[i]? = some d) =>
    h.documents d (List.mem_of_getElem? hd)
  cases hstep with
  | create hg =>
      obtain ⟨r', hsupply, hgrows, hmade⟩ := hg.registered h.elements
      exact ⟨r', (h.draw hgrows hsupply).hold hmade⟩
  | part hg hc => exact ⟨r, h.hold_one ((h.elements _ hg).of_mem_children hc)⟩
  | newBuilder internsTokens depthHint =>
      exact ⟨r, { h with builders := List.forall_mem_cons.mpr ⟨List.forall_mem_nil _, h.builders⟩ }⟩
  | callBuilder hb hcall =>
      obtain ⟨r', hsupply, hgrows, hmade⟩ :=
        hcall.registered h.elements (h.builders _ (List.mem_of_getElem? hb))
      obtain ⟨hout, hcontents⟩ := List.forall_mem_append.mp hmade
      exact ⟨r', ((h.draw hgrows hsupply).putBuilder _ hcontents).hold hout⟩
  | openSession hg hn ho =>
      obtain ⟨r', hsupply, hgrows, hs⟩ := Session.admits_of_ofRoot (h.elements _ hg) ho
      exact ⟨r', (h.draw hgrows hsupply).addSession hs⟩
  | move hs hmove =>
      refine ⟨r, h.putSession _ ?_⟩
      exact (hsession hs).move (fun _ _ hg hc => hg.of_mem_children hc) (hmove.mono h.elements)
  | handle hs hp => exact ⟨r, h.hold_one ((hsession hs).placed hp)⟩
  | @apply i s t new edits rest hs hr happly =>
      have hreplacements := fun e he => h.elements _ (hr e he)
      have hreached := (hw.sessions _ (List.mem_of_getElem? hs)).reached
      have ht := (hsession hs).after_apply edits r.supply
      rw [Nav.after_of_ok happly] at ht
      obtain ⟨r', hsupply, hgrows, hnew⟩ :=
        Session.admits_of_apply hreached (hsession hs) hreplacements happly
      exact ⟨r', (((h.draw hgrows hsupply).putSession _ (ht.mono_lists hgrows)).addSession
        hnew).hold_one hnew.root⟩
  | @refuse i s t edits f hs hr happly =>
      have ht := (hsession hs).after_apply edits r.supply
      rw [Nav.after_of_error happly] at ht
      exact ⟨r, h.putSession _ ht⟩
  | newDocument hg hn =>
      exact ⟨r, { h with documents := List.forall_mem_cons.mpr ⟨h.elements _ hg, h.documents⟩ }⟩
  | viewDocument hd ho =>
      obtain ⟨r', hsupply, hgrows, hs⟩ := Session.admits_of_ofRoot (hdocument hd) ho
      exact ⟨r', ((h.draw hgrows hsupply).addSession hs).hold_one ((hdocument hd).mono hgrows)⟩
  | modify hd hr hmodify =>
      have hsound := hw.documents _ (List.mem_of_getElem? hd)
      obtain ⟨r', hsupply, hgrows, hs, hroot⟩ :=
        Document.admits_of_modify hsound (hdocument hd) (fun e he => h.elements _ (hr e he)) hmodify
      exact ⟨r', (((h.draw hgrows hsupply).putDocument _ hroot).addSession hs).hold_one hroot⟩

end Listed

theorem Reachable.listed {w : Workbench} (h : w.Reachable) : ∃ r : Registry, w.Listed r := by
  induction h with
  | empty supply => exact ⟨_, .empty supply⟩
  | step hw hstep ih =>
      obtain ⟨r, hr⟩ := ih
      exact hr.step hw.sound hstep

end Workbench

end LosslessSyntax
