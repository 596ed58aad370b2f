import LosslessSyntax.Proofs.Session.Finding
import LosslessSyntax.Session.Collect
import LosslessSyntax.Session.Offset
import LosslessSyntax.View

namespace LosslessSyntax

namespace Nav

namespace Finding

open Session

variable {σ : Type} {known : List Nat}

section Walk

def concerned (event : Option Event) : List Nat := event.toList.map Event.placement

theorem skipped (event : Option Event) :
    Finding (concerned event) (Walk.skipped event) concerned := by
  rcases event with _ | id | id
  · exact pure (by simp)
  · refine (placement id).bind fun p => pure ?_
    cases p.parent <;> simp [concerned, Event.placement]
  · exact pure (by simp)

theorem following (start : Nat) (e : Event) :
    Finding known (Walk.following start e) concerned := by
  cases e with
  | enter id =>
      refine (placement id).bind fun p => ?_
      split
      · refine (firstChild id).bind fun found => ?_
        cases found <;> exact pure (by simp [concerned, Event.placement])
      · exact pure (by simp [concerned, Event.placement])
  | leave id =>
      refine get.bind fun s => ?_
      split
      · exact pure (by simp [concerned])
      · refine (nextSibling id).bind fun found => ?_
        cases found with
        | some sibling => exact pure (by simp [concerned, Event.placement])
        | none =>
            refine (placement id).bind fun p => pure ?_
            cases p.parent <;> simp [concerned, Event.placement]

def passed (r : Option Event × Walk) : List Nat := concerned r.1 ++ concerned r.2.upcoming

theorem taken (w : Walk) (event : Option Event) :
    Finding (concerned event ++ known) (match event with
      | none => Pure.pure (none, ⟨w.start, none, false⟩)
      | some e => do
          let upcoming ← Walk.following w.start e
          Pure.pure (some e, ⟨w.start, upcoming, false⟩)) passed := by
  cases event with
  | none => exact pure (by simp [passed, concerned])
  | some e =>
      refine (following w.start e).bind fun upcoming => pure ?_
      simp [passed, concerned]

theorem step {w : Walk} (hw : concerned w.upcoming ⊆ known) : Finding known w.next passed := by
  rw [Walk.next]
  split
  · exact ((skipped w.upcoming).mono hw).bind fun event => taken w event
  · have hkept : Finding known (Pure.pure w.upcoming : Nav (Option Event)) concerned := pure hw
    exact hkept.bind fun event => taken w event

theorem stepNode (limit : Nat) {w : Walk} (hw : concerned w.upcoming ⊆ known) :
    Finding known (Walk.nextNode limit w) passed := by
  induction limit generalizing known w with
  | zero => exact pure (by simpa [passed, concerned] using hw)
  | succ limit ih =>
      refine (step hw).bind fun ⟨event, rest⟩ => ?_
      cases event with
      | none => exact pure (by simp [passed])
      | some e =>
          refine (placement e.placement).bind fun p => ?_
          have hpassed : passed (some e, rest) ⊆
              e.placement :: p.parent.toList ++ (passed (some e, rest) ++ known) :=
            fun id hid => by simp [hid]
          split
          · exact pure hpassed
          · exact ih (List.Subset.trans (List.subset_append_right _ _) hpassed)

variable {next : Walk → Nav (Option Event × Walk)} {visit : Event → σ → Nav (σ × Bool)}
  (kept : σ → List Nat)

theorem run (hnext : ∀ {known w}, concerned w.upcoming ⊆ known → Finding known (next w) passed)
    (hvisit : ∀ {known} e state, e.placement ∈ known → kept state ⊆ known →
      Finding known (visit e state) fun r => kept r.1)
    (limit : Nat) {w : Walk} {state : σ} (hw : concerned w.upcoming ⊆ known)
    (hstate : kept state ⊆ known) : Finding known (Walk.run next visit limit w state) kept := by
  induction limit generalizing known w state with
  | zero => exact pure hstate
  | succ limit ih =>
      refine (hnext hw).bind fun ⟨event, rest⟩ => ?_
      cases event with
      | none => exact pure (List.Subset.trans hstate (List.subset_append_right _ _))
      | some e =>
          have hevent : e.placement ∈ passed (some e, rest) := by simp [passed, concerned]
          refine (hvisit e state (List.mem_append_left _ hevent)
            (List.Subset.trans hstate (List.subset_append_right _ _))).bind fun ⟨state', skip⟩ => ?_
          have hrest : concerned rest.upcoming ⊆ kept state' ++ (passed (some e, rest) ++ known) :=
            fun id hid => by simp [passed, hid]
          have hstate' : kept state' ⊆ kept state' ++ (passed (some e, rest) ++ known) :=
            List.subset_append_left _ _
          cases skip
          · exact ih hrest hstate'
          · exact @ih _ rest.skipSubtree _ hrest hstate'

theorem walk (hvisit : ∀ {known} e state, e.placement ∈ known → kept state ⊆ known →
      Finding known (visit e state) fun r => kept r.1) {w : Walk} {state : σ}
    (hw : concerned w.upcoming ⊆ known) (hstate : kept state ⊆ known) :
    Finding known (Session.walk w visit state) kept :=
  get.bind fun _ => run kept (fun hw => step hw) hvisit _ hw hstate

theorem walkNodes (hvisit : ∀ {known} e state, e.placement ∈ known → kept state ⊆ known →
      Finding known (visit e state) fun r => kept r.1) {w : Walk} {state : σ}
    (hw : concerned w.upcoming ⊆ known) (hstate : kept state ⊆ known) :
    Finding known (Session.walkNodes w visit state) kept :=
  get.bind fun _ => run kept (fun hw => stepNode _ hw) hvisit _ hw hstate

theorem keepEntered (keep : Placement → Bool) (e : Event) (ids : List Nat) (hids : ids ⊆ known) :
    Finding known (Session.keepEntered keep e ids) fun r => r.1 := by
  cases e with
  | leave id => exact pure hids
  | enter id =>
      refine (placement id).bind fun p => pure ?_
      split
      · exact List.cons_subset.mpr ⟨by simp, List.Subset.trans hids (List.subset_append_right _ _)⟩
      · exact List.Subset.trans hids (List.subset_append_right _ _)

theorem entered (keep : Placement → Bool) (id : Nat) :
    Finding [id] (Session.walk (Walk.ofNode id) (Session.keepEntered keep) []) fun ids => ids :=
  walk (fun ids => ids) (fun e ids _ hids => keepEntered keep e ids hids)
    (List.Subset.refl [id]) (List.nil_subset _)

theorem descendants (id : Nat) : Finding [id] (Session.descendants id) fun ids => ids :=
  (walkNodes (fun ids => ids) (fun e ids _ hids => keepEntered _ e ids hids)
    (List.Subset.refl [id]) (List.nil_subset _)).bind fun ids => pure (by simp)

theorem descendantsWithTokens (id : Nat) :
    Finding [id] (Session.descendantsWithTokens id) fun ids => ids :=
  (entered _ id).bind fun ids => pure (by simp)

theorem descendantTokens (id : Nat) : Finding [id] (Session.descendantTokens id) fun ids => ids :=
  (entered _ id).bind fun ids => pure (by simp)

end Walk

section Offset

theorem touches (offset id : Nat) : Finding known (Session.touches offset id) fun _ => [] :=
  (placement id).bind fun p => (ofExcept _).bind fun range => pure (by simp)

variable {offset : Nat} {cs : List Green}

theorem laterTokenAtOffset
    (h : ∀ c ∈ cs, ∀ id, Finding [id] (Session.tokenAtOffsetIn offset id c) TokenAtOffset.toList)
    (parent index : Nat) :
    Finding known (Session.laterTokenAtOffset offset parent index cs) fun r =>
      r.toList.flatMap TokenAtOffset.toList := by
  induction cs generalizing known index with
  | nil => exact pure (by simp)
  | cons c cs ih =>
      refine (child parent index).bind fun found => ?_
      cases found with
      | none => exact pure (by simp)
      | some id =>
          refine (touches offset id).bind fun touched => ?_
          split
          · exact ((h c List.mem_cons_self id).mono (by simp)).bind fun right => pure (by simp)
          · exact ih (fun b hb => h b (List.mem_cons_of_mem c hb)) (index + 1)

theorem toList_meet_subset (left right : TokenAtOffset) :
    (left.meet right).toList ⊆ left.toList ++ right.toList := by
  cases left <;> cases right <;>
    simp [TokenAtOffset.meet, TokenAtOffset.leftBiased, TokenAtOffset.rightBiased,
      TokenAtOffset.toList]

theorem tokenAtOffsetAmong
    (h : ∀ c ∈ cs, ∀ id, Finding [id] (Session.tokenAtOffsetIn offset id c) TokenAtOffset.toList)
    (parent index : Nat) :
    Finding known (Session.tokenAtOffsetAmong offset parent index cs) TokenAtOffset.toList := by
  induction cs generalizing known index with
  | nil => exact pure (by simp [TokenAtOffset.toList])
  | cons c cs ih =>
      have hrest := fun b hb => h b (List.mem_cons_of_mem c hb)
      refine (child parent index).bind fun found => ?_
      cases found with
      | none => exact pure (by simp [TokenAtOffset.toList])
      | some id =>
          refine (touches offset id).bind fun touched => ?_
          split
          · refine ((h c List.mem_cons_self id).mono (by simp)).bind fun left => ?_
            refine (laterTokenAtOffset hrest parent (index + 1)).bind fun found => ?_
            cases found with
            | none => exact pure (by simp)
            | some right =>
                refine pure (List.Subset.trans (toList_meet_subset left right) ?_)
                intro id hid
                rcases List.mem_append.mp hid with hid | hid <;> simp [hid]
          · exact ih hrest (index + 1)

theorem tokenAtOffsetIn (offset id : Nat) (g : Green) :
    Finding [id] (Session.tokenAtOffsetIn offset id g) TokenAtOffset.toList := by
  induction g generalizing id with
  | token stamp shape ds =>
      refine (touches offset id).bind fun touched => ?_
      split <;> exact pure (by simp [TokenAtOffset.toList])
  | node stamp kind summary cs ds ih =>
      refine (touches offset id).bind fun touched => ?_
      split
      · exact tokenAtOffsetAmong ih id 0
      · exact pure (by simp [TokenAtOffset.toList])

theorem tokenAtOffset (id offset : Nat) :
    Finding known (Session.tokenAtOffset id offset) TokenAtOffset.toList :=
  (placement id).bind fun p => (tokenAtOffsetIn offset id p.green).mono (by simp)

theorem coversRange (range : TextRange) (id : Nat) :
    Finding known (Session.coversRange range id) fun _ => [] :=
  (placement id).bind fun p => (ofExcept _).bind fun own => pure (by simp)

variable {range : TextRange}

theorem coveringAmong
    (h : ∀ c ∈ cs, ∀ id, Finding [id] (Session.coveringIn range id c) fun id => [id])
    {parent : Nat} (index : Nat) (hparent : parent ∈ known) :
    Finding known (Session.coveringAmong range parent index cs) fun id => [id] := by
  induction cs generalizing known index with
  | nil => exact pure (by simpa using hparent)
  | cons c cs ih =>
      refine (child parent index).bind fun found => ?_
      cases found with
      | none => exact pure (by simpa using hparent)
      | some id =>
          refine (coversRange range id).bind fun covered => ?_
          split
          · exact (h c List.mem_cons_self id).mono (by simp)
          · exact ih (fun b hb => h b (List.mem_cons_of_mem c hb)) (index + 1) (by simp [hparent])

theorem coveringIn (range : TextRange) (id : Nat) (g : Green) :
    Finding [id] (Session.coveringIn range id g) fun id => [id] := by
  induction g generalizing id with
  | token stamp shape ds => exact pure (by simp)
  | node stamp kind summary cs ds ih => exact coveringAmong ih 0 (by simp)

theorem coveringElement (id : Nat) (range : TextRange) :
    Finding known (Session.coveringElement id range) Option.toList := by
  refine (placement id).bind fun p => (ofExcept _).bind fun own => ?_
  split
  · exact ((coveringIn range id p.green).mono (by simp)).bind fun found => pure (by simp)
  · exact pure (by simp)

end Offset

section Text

theorem trimmedRange (id : Nat) : Finding known (Session.trimmedRange id) fun _ => [] := by
  refine (placement id).bind fun p => ?_
  split
  · refine ((firstTokenIn _ id p.green).mono (by simp)).bind fun first => ?_
    refine ((lastTokenIn _ id p.green).mono (by simp)).bind fun last => ?_
    split
    · refine (placement _).bind fun first => (placement _).bind fun last => ?_
      exact (ofExcept _).bind fun opening => (ofExcept _).bind fun closing => ofExcept _
    · exact pure (by simp)
  · exact ofExcept _

theorem text (id : Nat) (source : String) : Finding known (Session.text id source) fun _ => [] :=
  (placement id).bind fun _ => (ofExcept _).bind fun _ => ofExcept _

theorem trimmedText (id : Nat) (source : String) :
    Finding known (Session.trimmedText id source) fun _ => [] :=
  (trimmedRange id).bind fun _ => ofExcept _

theorem locateOwn (id : Nat) : Finding known (Session.locateOwn id) fun _ => [] :=
  (placement id).bind fun _ => (trimmedRange id).bind fun _ => pure (by simp)

theorem collectVisit (e : Event) (ds : List LocatedDiagnostic) :
    Finding known (Session.collectVisit e ds) fun _ => [] := by
  cases e with
  | leave id => exact pure (by simp)
  | enter id =>
      refine (placement id).bind fun p => ?_
      split
      · exact (locateOwn id).bind fun own => pure (by simp)
      · exact pure (by simp)

theorem diagnostics (id : Nat) : Finding [id] (Session.diagnostics id) fun _ => [] := by
  refine (placement id).bind fun p => ?_
  split
  · split
    · exact walk (fun _ => []) (fun e ds _ _ => collectVisit e ds)
        (by simp [concerned, Walk.ofNode, Event.placement]) (by simp)
    · exact pure (by simp)
  · exact locateOwn id

end Text

section Place

theorem descendFrom (path : Path) (depth id : Nat) (is : List Nat) (hid : id ∈ known) :
    Finding known (Session.descendFrom path depth id is) fun id => [id] := by
  induction is generalizing known depth id with
  | nil => exact pure (by simpa using hid)
  | cons i is ih =>
      refine (child id i).bind fun found => ?_
      cases found with
      | none => exact fail _
      | some c => exact ih (depth + 1) c (by simp)

theorem placeBelow (green : Green) (offset parent : Nat) :
    Finding known (Session.placeBelow green offset parent) fun id => [id] := by
  refine (placement parent).bind fun p => (ofExcept _).bind fun indices => ?_
  split
  · exact fail _
  · exact childAt parent _
  · exact fail _

theorem place (green : Green) (offset : Nat) (owner : Session) (parent : Nat) :
    Finding known (Session.place green offset (some (owner, parent))) fun id => [id] := by
  refine get.bind fun s => ?_
  split
  · exact placeBelow green offset parent
  · split <;> exact fail _

end Place

section View

theorem onlyIf (accept : Placement → Bool) (found : Option Nat) (h : found.toList ⊆ known) :
    Finding known (View.onlyIf accept found) Option.toList := by
  cases found with
  | none => exact pure (by simp)
  | some id =>
      refine (placement id).bind fun p => pure ?_
      split <;> simp

theorem nodeAt (id index : Nat) : Finding known (View.nodeAt id index) Option.toList :=
  (child id index).bind fun found => onlyIf _ found (by simp)

theorem tokenAt (id index : Nat) : Finding known (View.tokenAt id index) Option.toList :=
  (child id index).bind fun found => onlyIf _ found (by simp)

theorem field {v : View} {f : String × Nav (Option Nat)} (hf : f ∈ v.fields) :
    Finding known f.2 Option.toList := by
  cases v <;>
    simp only [View.fields, List.mem_cons, List.not_mem_nil, or_false] at hf <;>
    rcases hf with rfl | rfl | rfl | rfl <;>
    first
      | exact nodeAt _ _
      | exact tokenAt _ _
      | exact child _ _

theorem viewsOf (ids : List Nat) :
    Finding ids (ModulePart.viewsOf ids) fun views => views.map View.node := by
  induction ids with
  | nil => exact pure (by simp)
  | cons id ids ih =>
      refine (placement id).bind fun p => ?_
      refine (ih.mono fun id hid => by simp [hid]).bind fun views => ?_
      split
      · rename_i view hview
        refine pure ?_
        split at hview
        · rw [List.map_cons, View.node_of_ofKind?_eq_some hview]
          simp
        · exact nomatch hview
      · refine pure fun id hid => ?_
        simp [hid]

theorem statements (v : ModulePart) :
    Finding known v.statements fun views => views.map View.node := by
  refine (nodeAt v.node 0).bind fun members => ?_
  cases members with
  | none => exact pure (by simp)
  | some members =>
      refine (ofNode members).bind fun queue => ?_
      refine (takeAll (fun _ q => next q) _ _).bind fun ids => ?_
      exact (viewsOf ids).mono (List.subset_append_left _ _)

end View

end Finding

end Nav

end LosslessSyntax
