import LosslessSyntax.Proofs.Edit.Verdict
import LosslessSyntax.Proofs.Green.Outline
import LosslessSyntax.Proofs.Session.SafeSearch
import LosslessSyntax.Proofs.Session.Visit

namespace LosslessSyntax

structure Placement.Measured (p : Placement) : Prop where
  textRange : p.textRange =
    .ok ⟨p.offset, p.offset + p.green.width, Nat.le_add_right _ _⟩
  tokenTextRange : ∃ range, p.tokenTextRange = .ok range
  leadingRange : ∃ range, p.leadingRange = .ok range
  trailingRange : ∃ range, p.trailingRange = .ok range
  display : ∃ text, p.display = .ok text

theorem Placement.Sized.measured {p : Placement} (h : p.Sized) : p.Measured :=
  ⟨h.textRange, h.tokenTextRange, h.leadingRange, h.trailingRange, _, h.display_eq⟩

namespace Session

variable {s t : Session} {id a : Nat} {edits : List Edit} {supply : Supply} {e : Failure}

theorem Reached.forall_fits_rootId (hs : s.Reached) : ∀ id ∈ [rootId], s.Fits id :=
  List.forall_mem_singleton.mpr hs.fits_root

theorem Fits.parent? (h : s.Fits id) (ha : s.parent? id = some a) : s.Fits a := by
  obtain ⟨p, hp, hparent⟩ := Option.bind_eq_some_iff.mp ha
  exact h.parent hp hparent

theorem Fits.of_mem_ancestors (hs : s.Coherent) (h : s.Fits id) (ha : a ∈ s.ancestors id) :
    s.Fits a := by
  induction id using Nat.strong_induction_on with
  | _ id ih =>
      obtain ⟨p, hp, -⟩ := h.sized hs
      cases hparent : p.parent with
      | none =>
          rw [ancestors_of_no_parent hp hparent, List.mem_singleton] at ha
          exact ha ▸ h
      | some b =>
          rw [ancestors_of_parent hs hp hparent, List.mem_cons] at ha
          rcases ha with rfl | ha
          · exact h
          · exact ih b (hs.below hp hparent).1 (h.parent hp hparent) ha

theorem excused_of_apply (hs : s.Reached) (hr : ∀ x ∈ edits, x.replacement.WellFormed)
    (h : apply edits supply s = .error e t) : e.Excused t := by
  rcases Edit.resolveAll_spec hs edits with
    ⟨hall, u, hu, hst⟩ | ⟨pre, x, post, f, u, -, -, hf, hu⟩ | ⟨u, -, hu⟩
  · rcases Edit.conflict?_sort hs.root_wellFormed hall with ⟨x, y, -, hc⟩ | ⟨hapart, hc⟩
    · cases h.symm.trans (apply_of_conflict hu hc supply)
      exact .rejected _
    · have hanswer := answer_apply_of_no_conflict hu hc supply
      rw [Edit.sort_map_target, hst.grown.root, Nav.answer_of_error h] at hanswer
      have hcompleted := Edit.completed_of_replaceAll hs.root_wellFormed hs.root_isNode hall
        hapart hr supply
      rw [← hanswer] at hcompleted
      cases hcompleted with
      | rootToken _ _ _ => exact .rejected _
      | tooWide _ _ _ _ => exact .rejected _
  · have hv : validate edits s = .error f u := Nav.bind_error hu
    have happly : apply edits supply s = .error f u := Nav.bind_error hv
    cases h.symm.trans happly
    cases hf with
    | unresolved _ _ _ => exact .rejected _
    | stale _ _ _ => exact .rejected _
  · have hv : validate edits s = .error (.aborted .arenaFull) u := Nav.bind_error hu
    have happly : apply edits supply s = .error (.aborted .arenaFull) u := Nav.bind_error hv
    cases h.symm.trans happly
    exact (Nav.Safe.resolveAll edits s hs.coherent hs.forall_fits_rootId).error _ _ hu

end Session

namespace Request

def Proper (s : Session) : Request → Prop
  | placeBelow _ _ owner id =>
      (∃ p, owner.placements[id]? = some p) ∧ (owner.stamp = s.stamp → s.Fits id)
  | apply edits _ => ∀ x ∈ edits, x.replacement.WellFormed
  | _ => True

open Nav (Safe SafeAt)

variable {s : Session} {r : Request}

theorem safeAt_place {green : Green} {offset id : Nat} {owner : Session} (hs : s.Reached)
    (howner : ∃ p, owner.placements[id]? = some p) (hfits : owner.stamp = s.stamp → s.Fits id) :
    SafeAt s (Session.place green offset (some (owner, id))) fun id => [id] := by
  obtain ⟨p, hp⟩ := howner
  have hnone : ∀ {t : Session}, ∀ id ∈ [], t.Fits id := nofun
  have hget : SafeAt s (get : Nav Session) fun _ => [] := Safe.get s hs.coherent hnone
  refine hget.bind fun a t hok ht hst _ => ?_
  cases hok
  by_cases hsame : owner.stamp = s.stamp
  · rw [if_pos hsame]
    exact Safe.placeBelow green offset List.mem_cons_self s ht
      (List.forall_mem_singleton.mpr (hfits hsame))
  · rw [if_neg hsame]
    simp only [hp]
    exact Safe.rejected _ s ht hnone

theorem safeAt_apply {edits : List Edit} (hs : s.Reached)
    (hr : ∀ x ∈ edits, x.replacement.WellFormed) (supply : Supply) :
    SafeAt s (Session.apply edits supply) fun _ => [] := by
  refine ⟨fun a t hok => ?_, fun e t herror => Session.excused_of_apply hs hr herror⟩
  have hafter := hs.coherent.applied edits supply
  rw [Nav.after_of_ok hok] at hafter
  obtain ⟨ht, hst⟩ := hafter
  exact ⟨ht, hst, fun _ hid => absurd hid List.not_mem_nil⟩

theorem safeAt_found {m : Nav (List Nat)} {ids : List Nat} (hs : s.Reached) (hm : m s = .ok ids s)
    (hids : ∀ id ∈ ids, s.Fits id) : SafeAt s m fun ids => ids := by
  refine ⟨fun found t hok => ?_, fun e t herror => nomatch hm.symm.trans herror⟩
  cases hm.symm.trans hok
  exact ⟨hs.coherent, .refl s, hids⟩

theorem safeAt_run (hs : s.Reached) (hr : r.Proper s) (hzero : r.detached = 0)
    (hfits : ∀ id ∈ r.handles, s.Fits id) : SafeAt s r.run fun ids => ids := by
  have hsafe {m : Nav (List Nat)} (h : Safe r.handles m fun ids => ids) :
      SafeAt s m fun ids => ids := h s hs.coherent hfits
  have hmem {id : Nat} : id ∈ [id] := List.mem_cons_self
  cases r with
  | child id index => exact hsafe ((Safe.child hmem index).bind fun _ => .pure (by simp))
  | childAt id index => exact hsafe ((Safe.childAt hmem index).bind fun _ => .pure (by simp))
  | firstChild id => exact hsafe ((Safe.firstChild hmem).bind fun _ => .pure (by simp))
  | lastChild id => exact hsafe ((Safe.lastChild hmem).bind fun _ => .pure (by simp))
  | nextSibling id => exact hsafe ((Safe.nextSibling hmem).bind fun _ => .pure (by simp))
  | prevSibling id => exact hsafe ((Safe.prevSibling hmem).bind fun _ => .pure (by simp))
  | parent id =>
      exact safeAt_found hs rfl fun a ha => (hfits id hmem).parent? (Option.mem_toList.mp ha)
  | ancestors id =>
      exact safeAt_found hs rfl fun a ha => (hfits id hmem).of_mem_ancestors hs.coherent ha
  | firstToken id => exact hsafe ((Safe.firstToken hmem).bind fun _ => .pure (by simp))
  | lastToken id => exact hsafe ((Safe.lastToken hmem).bind fun _ => .pure (by simp))
  | nextToken id => exact hsafe ((Safe.nextToken hmem).bind fun _ => .pure (by simp))
  | prevToken id => exact hsafe ((Safe.prevToken hmem).bind fun _ => .pure (by simp))
  | take queue => exact hsafe ((Safe.next hmem).bind fun _ => .pure (by simp [Safe.taken]))
  | takeBack queue =>
      exact hsafe ((Safe.nextBack hmem).bind fun _ => .pure (by simp [Safe.taken]))
  | takeNode queue =>
      exact hsafe ((Safe.nextWhere (fun hq => Safe.next hq) _ _ hmem).bind fun _ =>
        .pure (by simp [Safe.taken]))
  | takeNodeBack queue =>
      exact hsafe ((Safe.nextWhere (fun hq => Safe.nextBack hq) _ _ hmem).bind fun _ =>
        .pure (by simp [Safe.taken]))
  | drain queue => exact hsafe (Safe.takeAll (fun hq => Safe.next hq) _ hmem)
  | step walk =>
      exact hsafe ((Safe.step (List.subset_cons_self _ _)).bind fun _ => .pure (by simp))
  | stepNode walk limit =>
      exact hsafe ((Safe.stepNode limit (List.subset_cons_self _ _)).bind fun _ => .pure (by simp))
  | descendants id => exact hsafe (Safe.descendants id)
  | descendantsWithTokens id => exact hsafe (Safe.descendantsWithTokens id)
  | descendantTokens id => exact hsafe (Safe.descendantTokens id)
  | tokenAtOffset id offset =>
      exact hsafe ((Safe.tokenAtOffset hmem offset).bind fun _ => .pure (by simp))
  | coveringElement id range =>
      exact hsafe ((Safe.coveringElement hmem range).bind fun _ => .pure (by simp))
  | trimmedRange id => exact hsafe ((Safe.trimmedRange hmem).bind fun _ => .pure (by simp))
  | text id source => exact hsafe ((Safe.text hmem source).bind fun _ => .pure (by simp))
  | trimmedText id source =>
      exact hsafe ((Safe.trimmedText hmem source).bind fun _ => .pure (by simp))
  | diagnostics id => exact hsafe ((Safe.diagnostics hmem).bind fun _ => .pure (by simp))
  | field view index =>
      rw [run]
      split
      · exact hsafe ((Safe.field (List.mem_of_getElem? ‹_›) hmem).bind fun _ => .pure (by simp))
      · exact hsafe (.pure (by simp))
  | statements view => exact hsafe ((Safe.statements hmem).bind fun _ => .pure (by simp))
  | resolve path =>
      exact ((Safe.resolve path).bind fun _ => .pure (by simp)) s hs.coherent hs.forall_fits_rootId
  | placeBelow green offset owner id =>
      obtain ⟨howner, hparent⟩ := hr
      refine (safeAt_place hs howner hparent).bind fun a t _ ht _ hfound => ?_
      have hpure : Safe [a] (pure [a] : Nav (List Nat)) fun ids => ids := .pure (List.Subset.refl _)
      exact hpure t ht hfound
  | placeDetached green offset => exact absurd hzero Nat.one_ne_zero
  | apply edits supply =>
      refine (safeAt_apply hs hr supply).bind fun a t _ ht _ _ => ?_
      have hpure : Safe [] (pure [] : Nav (List Nat)) fun ids => ids := .pure (List.Subset.refl _)
      exact hpure t ht (List.forall_mem_nil _)

theorem excused_of_placeDetached {green : Green} {offset : Nat} {e : Failure} {t : Session}
    (h : (placeDetached green offset).run s = .error e t) : e.Excused t := by
  have hallot := Session.allot_eq (Placement.make green offset none 0) s
  split at hallot
  · have hok : (placeDetached green offset).run s = _ := Nav.bind_ok hallot
    exact nomatch h.symm.trans hok
  · rename_i hadmits
    rw [Arena.admits_iff, Nat.not_lt] at hadmits
    have herror : (placeDetached green offset).run s = _ := Nav.bind_error hallot
    cases h.symm.trans herror
    exact .full hadmits

end Request

structure TypedHandle where
  id : Nat
  isNode : Bool
  deriving DecidableEq, Repr

def TypedHandle.green? (s : Session) (x : TypedHandle) : Option Green :=
  (s.placements[x.id]?.map Placement.green).filter fun g => g.isNode == x.isNode

namespace Visit

inductive Handed (root : Green) : Visit → TypedHandle → Prop
  | root {v : Visit} : Reachable root v → Handed root v ⟨Session.rootId, true⟩
  | found {v : Visit} {id : Nat} {p : Placement} :
      Reachable root v → id ∈ v.handles → v.session.placements[id]? = some p →
      Handed root v ⟨id, p.isNode⟩
  | parent {v : Visit} {x : TypedHandle} {a : Nat} :
      Handed root v x → v.session.parent? x.id = some a → Handed root v ⟨a, true⟩
  | later {v w : Visit} {x : TypedHandle} : Handed root v x → Step v w → Handed root w x

variable {root : Green} {v w : Visit} {x : TypedHandle}

theorem green?_eq_some_iff {s : Session} {g : Green} :
    x.green? s = some g ↔
      ∃ p, s.placements[x.id]? = some p ∧ p.green = g ∧ p.isNode = x.isNode := by
  rw [TypedHandle.green?, Option.filter_eq_some_iff, Option.map_eq_some_iff]
  constructor
  · rintro ⟨⟨p, hp, rfl⟩, hnode⟩
    exact ⟨p, hp, rfl, beq_iff_eq.mp hnode⟩
  · rintro ⟨p, hp, rfl, hnode⟩
    exact ⟨⟨p, hp, rfl⟩, beq_iff_eq.mpr hnode⟩

theorem Handed.reachable (h : Handed root v x) : Reachable root v := by
  induction h with
  | root hv => exact hv
  | found hv _ _ => exact hv
  | parent _ _ ih => exact ih
  | later _ hstep ih => exact ih.step hstep

theorem Handed.exists_green (h : Handed root v x) : ∃ g, x.green? v.session = some g := by
  induction h with
  | root hv =>
      obtain ⟨p, hp, hgreen, -⟩ := hv.sound.reached.coherent.root
      have hnode : p.isNode = true :=
        (congrArg Green.isNode hgreen).trans hv.sound.reached.root_isNode
      exact ⟨_, green?_eq_some_iff.mpr ⟨p, hp, rfl, hnode⟩⟩
  | found _ _ hp => exact ⟨_, green?_eq_some_iff.mpr ⟨_, hp, rfl, rfl⟩⟩
  | @parent v x a hx ha _ =>
      obtain ⟨p, hp, hparent⟩ := Option.bind_eq_some_iff.mp ha
      obtain ⟨-, above, start, habove, hslot, -⟩ :=
        hx.reachable.sound.reached.coherent.below hp hparent
      obtain ⟨i, hi⟩ := List.getElem?_of_mem (Green.mem_children_of_slot? hslot)
      have hnode : above.isNode = true := Green.isNode_of_child?_eq_some hi
      exact ⟨_, green?_eq_some_iff.mpr ⟨above, habove, rfl, hnode⟩⟩
  | @later v w x hx hstep ih =>
      obtain ⟨g, hg⟩ := ih
      obtain ⟨p, hp, rfl, hnode⟩ := green?_eq_some_iff.mp hg
      obtain ⟨r, hr, hgreen, -⟩ := (hx.reachable.sound.step hstep).2.kept hp
      exact ⟨_, green?_eq_some_iff.mpr ⟨r, hr, rfl, (congrArg Green.isNode hgreen).trans hnode⟩⟩

structure Faultless (root : Green) (v : Visit) : Prop where
  attached : ∀ id, v.session.Attached id → v.session.Fits id ∧
    ∃ p, v.session.placements[id]? = some p ∧ p.offset + p.green.width ≤ root.width
  apart : ∀ top p, v.session.placements[top]? = some p → p.parent = none → p.Sized →
    ∀ q id, v.session.Under top q id → v.session.Fits id ∧
      ∃ r, v.session.placements[id]? = some r ∧
        r.offset + r.green.width ≤ p.offset + p.green.width
  measured : ∀ id, v.session.Fits id → ∃ p, v.session.placements[id]? = some p ∧ p.Measured
  excused : ∀ r : Request, r.Proper v.session → (∀ id ∈ r.handles, v.session.Fits id) →
    ∀ e t, r.run v.session = .error e t → e.Excused t
  found : ∀ r : Request, r.Proper v.session → (∀ id ∈ r.handles, v.session.Fits id) →
    r.detached = 0 → ∀ ids t, r.run v.session = .ok ids t → ∀ id ∈ ids, t.Fits id
  kept : ∀ w, Step v w → ∀ id, v.session.Fits id → w.session.Fits id
  dumped : ∀ q m, root.descend? q = some m → ∃ text, m.dump = .ok text
  handed : ∀ x, Handed root v x → ∃ g, x.green? v.session = some g

theorem Reachable.faultless (h : Reachable root v) : v.Faultless root := by
  have hs := h.sound.reached
  have hcoherent := hs.coherent
  refine ⟨?_, ?_, ?_, ?_, ?_, ?_, ?_, fun x hx => hx.exists_green⟩
  · intro id hid
    obtain ⟨p, hp, hgreen, hoffset, hnone⟩ := hcoherent.root
    obtain ⟨r, hr, hm, ho⟩ := (hid.at_path hcoherent).holds hcoherent hs.root_wellFormed
    have hle := Green.offsetAt_add_width_le hs.root_wellFormed hm
    rw [h.sound.root] at hle ho
    exact ⟨hs.fits_of_attached hid, r, hr, ho ▸ hle⟩
  · intro top p hp hnone hsized q id hunder
    obtain ⟨r, hr, -, hle⟩ := hunder.stop_le hcoherent hp hsized
    exact ⟨(Session.fits_of_detached hp hnone hsized).under hunder, r, hr, hle⟩
  · intro id hfits
    obtain ⟨p, hp, hsized⟩ := hfits.sized hcoherent
    exact ⟨p, hp, hsized.measured⟩
  · intro r hproper hfits e t herror
    rcases r.detached_cases with hzero | ⟨green, offset, rfl⟩
    · exact (Request.safeAt_run hs hproper hzero hfits).error e t herror
    · exact Request.excused_of_placeDetached herror
  · intro r hproper hfits hzero ids t hok
    exact ((Request.safeAt_run hs hproper hzero hfits).ok ids t hok).2.2
  · intro w hstep id hfits
    exact hfits.mono (h.sound.step hstep).2
  · intro q m hm
    have hwf : root.WellFormed := h.sound.root ▸ hs.root_wellFormed
    exact ⟨_, Green.dump_eq_join (hwf.of_descend? hm)⟩

end Visit

end LosslessSyntax
