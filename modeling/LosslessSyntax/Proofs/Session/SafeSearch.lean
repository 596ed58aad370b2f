import LosslessSyntax.Proofs.Session.Occurrence
import LosslessSyntax.Proofs.Session.Safe
import LosslessSyntax.Proofs.Session.Search

namespace LosslessSyntax

namespace Nav

namespace Safe

open Session
open Nav.Finding (concerned passed)

variable {σ : Type} {known : List Nat} {id : Nat}

section Walk

theorem skipped {event : Option Event} (h : concerned event ⊆ known) :
    Safe known (Walk.skipped event) concerned := by
  rcases event with _ | id | id
  · exact pure (by simp [concerned])
  · have hid : id ∈ known := h (by simp [concerned, Event.placement])
    refine placement hid fun p _ => pure ?_
    cases p.parent <;> simp [concerned, Event.placement]
  · exact pure h

theorem following (start : Nat) {e : Event} (he : e.placement ∈ known) :
    Safe known (Walk.following start e) concerned := by
  cases e with
  | enter id =>
      refine placement he fun p _ => ?_
      split
      · refine (firstChild List.mem_cons_self).bind fun found => ?_
        cases found <;> exact pure (by simp [concerned, Event.placement])
      · exact pure (by simp [concerned, Event.placement])
  | leave id =>
      have hid : id ∈ known := he
      refine get.bind fun s => ?_
      split
      · exact pure (by simp [concerned])
      · refine (nextSibling (by simp [hid])).bind fun found => ?_
        cases found with
        | some sibling => exact pure (by simp [concerned, Event.placement])
        | none =>
            refine placement (by simp [hid]) fun p _ => pure ?_
            cases p.parent <;> simp [concerned, Event.placement]

theorem taking (w : Walk) {event : Option Event} (h : concerned event ⊆ known) :
    Safe known (match event with
      | none => Pure.pure (none, ⟨w.start, none, false⟩)
      | some e => do
          let upcoming ← Walk.following w.start e
          Pure.pure (some e, ⟨w.start, upcoming, false⟩)) passed := by
  cases event with
  | none => exact pure (by simp [passed, concerned])
  | some e =>
      have he : e.placement ∈ known := h (by simp [concerned])
      refine (following w.start he).bind fun upcoming => pure ?_
      simp [passed, concerned, he]

theorem step {w : Walk} (hw : concerned w.upcoming ⊆ known) : Safe known w.next passed := by
  rw [Walk.next]
  split
  · exact (skipped hw).bind fun event => taking w (List.subset_append_left _ _)
  · have hkept : Safe known (Pure.pure w.upcoming : Nav (Option Event)) concerned := pure hw
    exact hkept.bind fun event => taking w (List.subset_append_left _ _)

theorem stepNode (limit : Nat) {w : Walk} (hw : concerned w.upcoming ⊆ known) :
    Safe known (Walk.nextNode limit w) passed := by
  induction limit generalizing known w with
  | zero => exact pure (by simpa [passed, concerned] using hw)
  | succ limit ih =>
      refine (step hw).bind ?_
      rintro ⟨event, rest⟩
      cases event with
      | none => exact pure (by simp [passed])
      | some e =>
          refine placement (by simp [passed, concerned]) fun p _ => ?_
          have hpassed : passed (some e, rest) ⊆
              e.placement :: p.parent.toList ++ (passed (some e, rest) ++ known) :=
            fun id hid => by simp [hid]
          split
          · exact pure hpassed
          · exact ih (List.Subset.trans (List.subset_append_right _ _) hpassed)

variable {next : Walk → Nav (Option Event × Walk)} {visit : Event → σ → Nav (σ × Bool)}
  (kept : σ → List Nat)

theorem run (hnext : ∀ {known w}, concerned w.upcoming ⊆ known → Safe known (next w) passed)
    (hvisit : ∀ {known} e state, e.placement ∈ known → kept state ⊆ known →
      Safe known (visit e state) fun r => kept r.1)
    (limit : Nat) {w : Walk} {state : σ} (hw : concerned w.upcoming ⊆ known)
    (hstate : kept state ⊆ known) : Safe known (Walk.run next visit limit w state) kept := by
  induction limit generalizing known w state with
  | zero => exact pure hstate
  | succ limit ih =>
      refine (hnext hw).bind ?_
      rintro ⟨event, rest⟩
      cases event with
      | none => exact pure (List.Subset.trans hstate (List.subset_append_right _ _))
      | some e =>
          have hevent : e.placement ∈ passed (some e, rest) := by simp [passed, concerned]
          have hstill : kept state ⊆ passed (some e, rest) ++ known :=
            List.Subset.trans hstate (List.subset_append_right _ _)
          refine (hvisit e state (List.mem_append_left _ hevent) hstill).bind ?_
          rintro ⟨state', skip⟩
          have hrest : concerned rest.upcoming ⊆ kept state' ++ (passed (some e, rest) ++ known) :=
            fun id hid => by simp [passed, hid]
          have hstate' : kept state' ⊆ kept state' ++ (passed (some e, rest) ++ known) :=
            List.subset_append_left _ _
          cases skip
          · exact ih hrest hstate'
          · exact @ih _ rest.skipSubtree _ hrest hstate'

theorem walk (hvisit : ∀ {known} e state, e.placement ∈ known → kept state ⊆ known →
      Safe known (visit e state) fun r => kept r.1) {w : Walk} {state : σ}
    (hw : concerned w.upcoming ⊆ known) (hstate : kept state ⊆ known) :
    Safe known (Session.walk w visit state) kept :=
  get.bind fun _ => run kept (fun hw => step hw) hvisit _ hw hstate

theorem walkNodes (hvisit : ∀ {known} e state, e.placement ∈ known → kept state ⊆ known →
      Safe known (visit e state) fun r => kept r.1) {w : Walk} {state : σ}
    (hw : concerned w.upcoming ⊆ known) (hstate : kept state ⊆ known) :
    Safe known (Session.walkNodes w visit state) kept :=
  get.bind fun _ => run kept (fun hw => stepNode _ hw) hvisit _ hw hstate

theorem keepEntered (keep : Placement → Bool) (e : Event) {ids : List Nat}
    (he : e.placement ∈ known) (hids : ids ⊆ known) :
    Safe known (Session.keepEntered keep e ids) fun r => r.1 := by
  cases e with
  | leave id => exact pure hids
  | enter id =>
      refine placement he fun p _ => pure ?_
      split
      · exact List.cons_subset.mpr ⟨by simp, List.Subset.trans hids (List.subset_append_right _ _)⟩
      · exact List.Subset.trans hids (List.subset_append_right _ _)

theorem entered (keep : Placement → Bool) (id : Nat) :
    Safe [id] (Session.walk (Walk.ofNode id) (Session.keepEntered keep) []) fun ids => ids :=
  walk (fun ids => ids) (fun e _ he hids => keepEntered keep e he hids)
    (List.Subset.refl [id]) (List.nil_subset _)

theorem descendants (id : Nat) : Safe [id] (Session.descendants id) fun ids => ids :=
  (walkNodes (fun ids => ids) (fun e _ he hids => keepEntered _ e he hids)
    (List.Subset.refl [id]) (List.nil_subset _)).bind fun ids => pure (by simp)

theorem descendantsWithTokens (id : Nat) :
    Safe [id] (Session.descendantsWithTokens id) fun ids => ids :=
  (entered _ id).bind fun ids => pure (by simp)

theorem descendantTokens (id : Nat) : Safe [id] (Session.descendantTokens id) fun ids => ids :=
  (entered _ id).bind fun ids => pure (by simp)

end Walk

section Offset

theorem touches (offset : Nat) (hid : id ∈ known) :
    Safe known (Session.touches offset id) fun _ => [] :=
  placement hid fun p hsized => (ofOk ⟨_, hsized.textRange⟩).bind fun range => pure (by simp)

variable {offset : Nat} {cs : List Green}

theorem laterTokenAtOffset
    (h : ∀ c ∈ cs, ∀ id, Safe [id] (Session.tokenAtOffsetIn offset id c) TokenAtOffset.toList)
    (hid : id ∈ known) (index : Nat) :
    Safe known (Session.laterTokenAtOffset offset id index cs) fun r =>
      r.toList.flatMap TokenAtOffset.toList := by
  induction cs generalizing known index with
  | nil => exact pure (by simp)
  | cons c cs ih =>
      refine (child hid index).bind fun found => ?_
      cases found with
      | none => exact pure (by simp)
      | some cid =>
          refine (touches offset (by simp)).bind fun touched => ?_
          split
          · exact ((h c List.mem_cons_self cid).mono (by simp)).bind fun right => pure (by simp)
          · exact ih (fun b hb => h b (List.mem_cons_of_mem c hb)) (by simp [hid]) (index + 1)

theorem tokenAtOffsetAmong
    (h : ∀ c ∈ cs, ∀ id, Safe [id] (Session.tokenAtOffsetIn offset id c) TokenAtOffset.toList)
    (hid : id ∈ known) (index : Nat) :
    Safe known (Session.tokenAtOffsetAmong offset id index cs) TokenAtOffset.toList := by
  induction cs generalizing known index with
  | nil => exact pure (by simp [TokenAtOffset.toList])
  | cons c cs ih =>
      have hrest : ∀ b ∈ cs, ∀ id,
          Safe [id] (Session.tokenAtOffsetIn offset id b) TokenAtOffset.toList :=
        fun b hb => h b (List.mem_cons_of_mem c hb)
      refine (child hid index).bind fun found => ?_
      cases found with
      | none => exact pure (by simp [TokenAtOffset.toList])
      | some cid =>
          refine (touches offset (by simp)).bind fun touched => ?_
          split
          · refine ((h c List.mem_cons_self cid).mono (by simp)).bind fun left => ?_
            refine (laterTokenAtOffset hrest (by simp [hid]) (index + 1)).bind fun found => ?_
            cases found with
            | none => exact pure (by simp)
            | some right =>
                refine pure (List.Subset.trans (Finding.toList_meet_subset left right) ?_)
                intro id hid
                rcases List.mem_append.mp hid with hid | hid <;> simp [hid]
          · exact ih hrest (by simp [hid]) (index + 1)

theorem tokenAtOffsetIn (offset id : Nat) (g : Green) :
    Safe [id] (Session.tokenAtOffsetIn offset id g) TokenAtOffset.toList := by
  induction g generalizing id with
  | token stamp shape ds =>
      refine (touches offset List.mem_cons_self).bind fun touched => ?_
      split <;> exact pure (by simp [TokenAtOffset.toList])
  | node stamp kind summary cs ds ih =>
      refine (touches offset List.mem_cons_self).bind fun touched => ?_
      split
      · exact tokenAtOffsetAmong ih (by simp) 0
      · exact pure (by simp [TokenAtOffset.toList])

theorem tokenAtOffset (hid : id ∈ known) (offset : Nat) :
    Safe known (Session.tokenAtOffset id offset) TokenAtOffset.toList :=
  placement hid fun p _ => (tokenAtOffsetIn offset id p.green).mono (by simp)

theorem coversRange (range : TextRange) (hid : id ∈ known) :
    Safe known (Session.coversRange range id) fun _ => [] :=
  placement hid fun p hsized => (ofOk ⟨_, hsized.textRange⟩).bind fun own => pure (by simp)

variable {range : TextRange}

theorem coveringAmong
    (h : ∀ c ∈ cs, ∀ id, Safe [id] (Session.coveringIn range id c) fun id => [id])
    (hid : id ∈ known) (index : Nat) :
    Safe known (Session.coveringAmong range id index cs) fun id => [id] := by
  induction cs generalizing known index with
  | nil => exact pure (by simpa using hid)
  | cons c cs ih =>
      refine (child hid index).bind fun found => ?_
      cases found with
      | none => exact pure (by simpa using hid)
      | some cid =>
          refine (coversRange range (by simp)).bind fun covered => ?_
          split
          · exact (h c List.mem_cons_self cid).mono (by simp)
          · exact ih (fun b hb => h b (List.mem_cons_of_mem c hb)) (by simp [hid]) (index + 1)

theorem coveringIn (range : TextRange) (id : Nat) (g : Green) :
    Safe [id] (Session.coveringIn range id g) fun id => [id] := by
  induction g generalizing id with
  | token stamp shape ds => exact pure (by simp)
  | node stamp kind summary cs ds ih => exact coveringAmong ih List.mem_cons_self 0

theorem coveringElement (hid : id ∈ known) (range : TextRange) :
    Safe known (Session.coveringElement id range) Option.toList := by
  refine placement hid fun p hsized => (ofOk ⟨_, hsized.textRange⟩).bind fun own => ?_
  split
  · exact ((coveringIn range id p.green).mono (by simp)).bind fun found => pure (by simp)
  · exact pure (by simp)

end Offset

section Text

theorem trimmedRange_node {s : Session} {p : Placement} (hs : s.Coherent) (hfits : s.Fits id)
    (hp : s.placements[id]? = some p) (hsized : p.Sized) :
    SafeAt s (do
      let first ← Session.firstTokenIn isPresent id p.green
      let last ← Session.lastTokenIn isPresent id p.green
      match first, last with
      | some first, some last => do
          let first ← Nav.placement first
          let last ← Nav.placement last
          let opening ← Nav.ofExcept first.tokenTextRange
          let closing ← Nav.ofExcept last.tokenTextRange
          Nav.ofExcept (Checked.rangeOfBounds opening.start closing.stop)
      | _, _ => Pure.pure (TextRange.emptyAt p.offset)) fun _ => [] := by
  refine (firstTokenIn isPresent id p.green s hs (List.forall_mem_singleton.mpr hfits)).bind ?_
  intro first t hfirst ht hst _
  have hfits' := hfits.mono hst
  refine (lastTokenIn isPresent id p.green t ht (List.forall_mem_singleton.mpr hfits')).bind ?_
  intro last u hlast hu htu _
  have hnothing : ∀ id ∈ [], u.Fits id := nofun
  have hnone : SafeAt u (Pure.pure (TextRange.emptyAt p.offset) : Nav TextRange) fun _ => [] :=
    pure (List.nil_subset _) u hu hnothing
  cases first with
  | none => exact hnone
  | some a =>
      cases last with
      | none => exact hnone
      | some b =>
          obtain ⟨-, -, hearliest⟩ := findsFirst isPresent p.green hs hp hsized rfl hfirst
          obtain ⟨p', hp', hsized', hgreen, -⟩ := hst.sized hp hsized
          obtain ⟨r, hr, hraccepts⟩ :=
            findsAccepted isPresent p.green ht hp' hsized' hgreen hlast
          obtain ⟨p'', hp'', hsized'', hgreen', -⟩ := htu.sized hp' hsized'
          have hsame := hgreen'.trans hgreen
          cases hearliest with
          | @found q _ hq hqaccepts hleast =>
              obtain ⟨pa, pb, opening, closing, hpa, hpb, hopening, hclosing, hbounds⟩ :=
                range_opens_before_it_closes hu hp'' hsized'' (hq.mono htu) hr
                  (hsame ▸ hqaccepts) (hsame ▸ hraccepts) (hleast r hraccepts)
              have hrange : Checked.rangeOfBounds opening.start closing.stop =
                  .ok ⟨opening.start, closing.stop, hbounds⟩ := by
                rw [Checked.rangeOfBounds, TextRange.ofBounds?, dif_pos hbounds]
              refine .placement hpa (.placement hpb ?_)
              rw [hopening, hclosing]
              exact ofOk ⟨_, hrange⟩ u hu hnothing

theorem trimmedRange (hid : id ∈ known) : Safe known (Session.trimmedRange id) fun _ => [] := by
  intro s hs hknown
  obtain ⟨p, hp, hsized⟩ := (hknown id hid).sized hs
  refine .placement hp ?_
  split
  · exact trimmedRange_node hs (hknown id hid) hp hsized
  · exact ofOk hsized.tokenTextRange s hs hknown

theorem text (hid : id ∈ known) (source : String) :
    Safe known (Session.text id source) fun _ => [] :=
  placement hid fun _ hsized => (ofOk ⟨_, hsized.textRange⟩).bind fun range => slice range source

theorem trimmedText (hid : id ∈ known) (source : String) :
    Safe known (Session.trimmedText id source) fun _ => [] :=
  (trimmedRange hid).bind fun range => slice range source

theorem locateOwn (hid : id ∈ known) : Safe known (Session.locateOwn id) fun _ => [] :=
  placement hid fun _ _ => (trimmedRange List.mem_cons_self).bind fun _ => pure (by simp)

theorem collectVisit (e : Event) (ds : List LocatedDiagnostic) (he : e.placement ∈ known) :
    Safe known (Session.collectVisit e ds) fun _ => [] := by
  cases e with
  | leave id => exact pure (by simp)
  | enter id =>
      refine placement he fun p _ => ?_
      split
      · exact (locateOwn List.mem_cons_self).bind fun own => pure (by simp)
      · exact pure (by simp)

theorem diagnostics (hid : id ∈ known) : Safe known (Session.diagnostics id) fun _ => [] := by
  refine placement hid fun p _ => ?_
  split
  · split
    · exact walk (fun _ => []) (fun e ds he _ => collectVisit e ds he)
        (by simp [concerned, Walk.ofNode, Event.placement]) (by simp)
    · exact pure (by simp)
  · exact locateOwn List.mem_cons_self

end Text

section Place

theorem descendFrom (path : Path) (depth : Nat) (is : List Nat) (hid : id ∈ known) :
    Safe known (Session.descendFrom path depth id is) fun id => [id] := by
  induction is generalizing known depth id with
  | nil => exact pure (by simpa using hid)
  | cons i is ih =>
      refine (child hid i).bind fun found => ?_
      cases found with
      | none => exact rejected _
      | some c => exact ih (depth + 1) (by simp)

theorem resolve (path : Path) : Safe [rootId] (Session.resolve path) fun id => [id] :=
  descendFrom path 0 path.indices List.mem_cons_self

theorem placeBelow (green : Green) (offset : Nat) (hid : id ∈ known) :
    Safe known (Session.placeBelow green offset id) fun id => [id] := by
  refine placement hid fun p hsized => ?_
  have hstarts : ∀ start ∈ p.green.starts, p.offset + start ≤ maxSize := fun start hstart => by
    have hle := hsized.wellFormed.starts_le start hstart
    have hstop := hsized.stop_le
    omega
  refine (ofOk ⟨_, occurrences_eq hstarts 2 0⟩).bind fun indices => ?_
  split
  · exact rejected _
  · exact childAt (by simp) _
  · exact rejected _

end Place

section View

theorem onlyIf (accept : Placement → Bool) {found : Option Nat} (h : found.toList ⊆ known) :
    Safe known (View.onlyIf accept found) Option.toList := by
  cases found with
  | none => exact pure (by simp)
  | some id =>
      refine placement (h (by simp)) fun p _ => pure ?_
      split <;> simp

theorem nodeAt (hid : id ∈ known) (index : Nat) :
    Safe known (View.nodeAt id index) Option.toList :=
  (child hid index).bind fun found => onlyIf _ (by simp)

theorem tokenAt (hid : id ∈ known) (index : Nat) :
    Safe known (View.tokenAt id index) Option.toList :=
  (child hid index).bind fun found => onlyIf _ (by simp)

theorem field {v : View} {f : String × Nav (Option Nat)} (hf : f ∈ v.fields)
    (hv : v.node ∈ known) : Safe known f.2 Option.toList := by
  cases v <;>
    simp only [View.fields, List.mem_cons, List.not_mem_nil, or_false] at hf <;>
    rcases hf with rfl | rfl | rfl | rfl <;>
    first
      | exact nodeAt hv _
      | exact tokenAt hv _
      | exact child hv _

theorem viewsOf (ids : List Nat) :
    Safe ids (ModulePart.viewsOf ids) fun views => views.map View.node := by
  induction ids with
  | nil => exact pure (by simp)
  | cons id ids ih =>
      refine placement List.mem_cons_self fun p _ => ?_
      refine (ih.mono fun id hid => by simp [hid]).bind fun views => ?_
      split
      · rename_i view hview
        refine pure ?_
        split at hview
        · rw [List.map_cons, View.node_of_ofKind?_eq_some hview]
          simp
        · exact nomatch hview
      · refine pure fun id hid => ?_
        simp [hid]

theorem statements {v : ModulePart} (hv : v.node ∈ known) :
    Safe known v.statements fun views => views.map View.node := by
  refine (nodeAt hv 0).bind fun members => ?_
  cases members with
  | none => exact pure (by simp)
  | some members =>
      refine (ofNode (by simp)).bind fun queue => ?_
      refine (takeAll (fun hq => next hq) _ (by simp)).bind fun ids => ?_
      exact (viewsOf ids).mono (List.subset_append_left _ _)

end View

section Edit

theorem resolveEdit (e : Edit) : Safe [rootId] e.resolve fun _ => [] := by
  refine (resolve e.path).bind fun id => placement (by simp) fun p hsized => ?_
  have hrange {known : List Nat} : Safe known (do
      let range ← Nav.ofExcept p.textRange
      Pure.pure (Target.mk e.path range e.replacement)) fun _ => [] :=
    (ofOk ⟨_, hsized.textRange⟩).bind fun range => pure (by simp)
  cases e.expected with
  | none => exact hrange
  | some expected =>
      dsimp only
      split
      · exact hrange
      · have hrejected {e : TreeError} {known : List Nat} :
            Safe known (fail (.rejected e) : Nav PUnit) fun _ => [] := rejected e
        exact hrejected.bind fun _ => hrange

theorem resolveAll (edits : List Edit) : Safe [rootId] (Edit.resolveAll edits) fun _ => [] := by
  induction edits with
  | nil => exact pure (by simp)
  | cons e es ih =>
      refine (resolveEdit e).bind fun target => ?_
      exact (ih.mono (List.subset_append_right _ _)).bind fun targets => pure (by simp)

end Edit

end Safe

end Nav

end LosslessSyntax
