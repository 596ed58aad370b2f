import LosslessSyntax.Proofs.Edit.Substitution
import LosslessSyntax.Proofs.Session.Explore
import LosslessSyntax.Proofs.Session.Search

namespace LosslessSyntax

inductive Request where
  | child (parent index : Nat)
  | childAt (parent index : Nat)
  | firstChild (id : Nat)
  | lastChild (id : Nat)
  | nextSibling (id : Nat)
  | prevSibling (id : Nat)
  | parent (id : Nat)
  | ancestors (id : Nat)
  | firstToken (id : Nat)
  | lastToken (id : Nat)
  | nextToken (id : Nat)
  | prevToken (id : Nat)
  | take (queue : ChildQueue)
  | takeBack (queue : ChildQueue)
  | takeNode (queue : ChildQueue)
  | takeNodeBack (queue : ChildQueue)
  | drain (queue : ChildQueue)
  | step (walk : Walk)
  | stepNode (walk : Walk) (limit : Nat)
  | descendants (id : Nat)
  | descendantsWithTokens (id : Nat)
  | descendantTokens (id : Nat)
  | tokenAtOffset (id offset : Nat)
  | coveringElement (id : Nat) (range : TextRange)
  | trimmedRange (id : Nat)
  | text (id : Nat) (source : String)
  | trimmedText (id : Nat) (source : String)
  | diagnostics (id : Nat)
  | field (view : View) (index : Nat)
  | statements (view : ModulePart)
  | resolve (path : Path)
  | placeBelow (green : Green) (offset : Nat) (owner : Session) (parent : Nat)
  | placeDetached (green : Green) (offset : Nat)
  | apply (edits : List Edit) (supply : Supply)

namespace Request

open Nav.Finding (concerned passed)

def run : Request → Nav (List Nat)
  | child id index => do return (← Session.child id index).toList
  | childAt id index => do return [← Session.childAt id index]
  | firstChild id => do return (← Session.firstChild id).toList
  | lastChild id => do return (← Session.lastChild id).toList
  | nextSibling id => do return (← Session.nextSibling id).toList
  | prevSibling id => do return (← Session.prevSibling id).toList
  | parent id => fun s => .ok (s.parent? id).toList s
  | ancestors id => fun s => .ok (s.ancestors id) s
  | firstToken id => do return (← Session.firstToken id).toList
  | lastToken id => do return (← Session.lastToken id).toList
  | nextToken id => do return (← Session.nextToken id).toList
  | prevToken id => do return (← Session.prevToken id).toList
  | take queue => do return (← queue.next).1.toList
  | takeBack queue => do return (← queue.nextBack).1.toList
  | takeNode queue => do return (← queue.nextNode).1.toList
  | takeNodeBack queue => do return (← queue.nextNodeBack).1.toList
  | drain queue => queue.drain ChildQueue.next
  | step walk => do return passed (← walk.next)
  | stepNode walk limit => do return passed (← walk.nextNode limit)
  | descendants id => Session.descendants id
  | descendantsWithTokens id => Session.descendantsWithTokens id
  | descendantTokens id => Session.descendantTokens id
  | tokenAtOffset id offset => do return (← Session.tokenAtOffset id offset).toList
  | coveringElement id range => do return (← Session.coveringElement id range).toList
  | trimmedRange id => do
      let _ ← Session.trimmedRange id
      return []
  | text id source => do
      let _ ← Session.text id source
      return []
  | trimmedText id source => do
      let _ ← Session.trimmedText id source
      return []
  | diagnostics id => do
      let _ ← Session.diagnostics id
      return []
  | field view index =>
      match view.fields[index]? with
      | some f => do return (← f.2).toList
      | none => pure []
  | statements view => do return (← view.statements).map View.node
  | resolve path => do return [← Session.resolve path]
  | placeBelow green offset owner id => do
      return [← Session.place green offset (some (owner, id))]
  | placeDetached green offset => do return [← Session.place green offset none]
  | apply edits supply => do
      let _ ← Session.apply edits supply
      return []

def handles : Request → List Nat
  | child id _ | childAt id _ | firstChild id | lastChild id | nextSibling id | prevSibling id
  | parent id | ancestors id | firstToken id | lastToken id | nextToken id | prevToken id
  | descendants id | descendantsWithTokens id | descendantTokens id | tokenAtOffset id _
  | coveringElement id _ | trimmedRange id | text id _ | trimmedText id _ | diagnostics id => [id]
  | take queue | takeBack queue | takeNode queue | takeNodeBack queue | drain queue =>
      [queue.parent]
  | step walk | stepNode walk _ => walk.start :: concerned walk.upcoming
  | field view _ => [view.node]
  | statements view => [view.node]
  | resolve _ | placeBelow _ _ _ _ | placeDetached _ _ | apply _ _ => []

def detached : Request → Nat
  | placeDetached _ _ => 1
  | _ => 0

theorem detached_cases (r : Request) :
    r.detached = 0 ∨ ∃ green offset, r = .placeDetached green offset := by
  cases r with
  | placeDetached green offset => exact .inr ⟨green, offset, rfl⟩
  | _ => exact .inl rfl

end Request

namespace Session

variable {s : Session} {id a : Nat}

theorem lt_size_of_parent? (hs : s.Coherent) (h : s.parent? id = some a) :
    a < s.placements.size := by
  obtain ⟨p, hp, ha⟩ := Option.bind_eq_some_iff.mp h
  obtain ⟨-, r, -, hr, -⟩ := hs.below hp ha
  exact lt_size_of_getElem? hr

theorem lt_size_of_mem_ancestors (hs : s.Coherent) (h : a ∈ s.ancestors id) :
    a < s.placements.size := by
  induction id using Nat.strong_induction_on with
  | _ id ih =>
      cases hp : s.placements[id]? with
      | none =>
          rw [ancestors, lineage, hp] at h
          exact absurd h List.not_mem_nil
      | some p =>
          cases hparent : p.parent with
          | none =>
              rw [ancestors_of_no_parent hp hparent, List.mem_singleton] at h
              exact h ▸ lt_size_of_getElem? hp
          | some b =>
              rw [ancestors_of_parent hs hp hparent, List.mem_cons] at h
              rcases h with rfl | h
              · exact lt_size_of_getElem? hp
              · exact ih b (hs.below hp hparent).1 h

end Session

theorem Nav.Finding.resolve (path : Path) :
    Nav.Finding [] (Session.resolve path) fun id => [id] := by
  intro s hs _
  obtain ⟨p, hp, -⟩ := hs.root
  have hroot : s.Has [Session.rootId] := List.forall_mem_singleton.mpr (Session.lt_size_of_getElem? hp)
  exact Nav.Finding.descendFrom path 0 _ path.indices List.mem_cons_self s hs hroot

namespace Request

open Nav.Finding

theorem finding {r : Request} (h : r.detached = 0) :
    Nav.Finding r.handles r.run fun ids => ids := by
  cases r with
  | child id index => exact (Nav.Finding.child id index).bind fun _ => pure (by simp)
  | childAt id index => exact (Nav.Finding.childAt id index).bind fun _ => pure (by simp)
  | firstChild id => exact (Nav.Finding.firstChild id).bind fun _ => pure (by simp)
  | lastChild id => exact (Nav.Finding.lastChild id).bind fun _ => pure (by simp)
  | nextSibling id => exact (Nav.Finding.nextSibling id).bind fun _ => pure (by simp)
  | prevSibling id => exact (Nav.Finding.prevSibling id).bind fun _ => pure (by simp)
  | parent id =>
      refine fun s hs _ => ⟨.refl, fun ids t h a ha => ?_⟩
      cases h
      exact Session.lt_size_of_parent? hs (Option.mem_toList.mp ha)
  | ancestors id =>
      refine fun s hs _ => ⟨.refl, fun ids t h a ha => ?_⟩
      cases h
      exact Session.lt_size_of_mem_ancestors hs ha
  | firstToken id => exact (Nav.Finding.firstToken id).bind fun _ => pure (by simp)
  | lastToken id => exact (Nav.Finding.lastToken id).bind fun _ => pure (by simp)
  | nextToken id => exact (Nav.Finding.nextToken id).bind fun _ => pure (by simp)
  | prevToken id => exact (Nav.Finding.prevToken id).bind fun _ => pure (by simp)
  | take queue => exact (next queue).bind fun _ => pure (by simp)
  | takeBack queue => exact (nextBack queue).bind fun _ => pure (by simp)
  | takeNode queue =>
      exact (nextWhere (fun _ q => next q) _ _ queue).bind fun _ => pure (by simp)
  | takeNodeBack queue =>
      exact (nextWhere (fun _ q => nextBack q) _ _ queue).bind fun _ => pure (by simp)
  | drain queue => exact takeAll (fun _ q => next q) _ queue
  | step walk => exact (Nav.Finding.step (by simp [handles])).bind fun _ => pure (by simp)
  | stepNode walk limit =>
      exact (Nav.Finding.stepNode limit (by simp [handles])).bind fun _ => pure (by simp)
  | descendants id => exact Nav.Finding.descendants id
  | descendantsWithTokens id => exact Nav.Finding.descendantsWithTokens id
  | descendantTokens id => exact Nav.Finding.descendantTokens id
  | tokenAtOffset id offset =>
      exact (Nav.Finding.tokenAtOffset id offset).bind fun _ => pure (by simp)
  | coveringElement id range =>
      exact (Nav.Finding.coveringElement id range).bind fun _ => pure (by simp)
  | trimmedRange id => exact (Nav.Finding.trimmedRange id).bind fun _ => pure (by simp)
  | text id source => exact (Nav.Finding.text id source).bind fun _ => pure (by simp)
  | trimmedText id source => exact (Nav.Finding.trimmedText id source).bind fun _ => pure (by simp)
  | diagnostics id => exact (Nav.Finding.diagnostics id).bind fun _ => pure (by simp)
  | field view index =>
      rw [run]
      split
      · exact (Nav.Finding.field (List.mem_of_getElem? ‹_›)).bind fun _ => pure (by simp)
      · exact pure (by simp)
  | statements view => exact (Nav.Finding.statements view).bind fun _ => pure (by simp)
  | resolve path => exact (Nav.Finding.resolve path).bind fun _ => pure (by simp)
  | placeBelow green offset owner id =>
      exact (Nav.Finding.place green offset owner id).bind fun _ => pure (by simp)
  | placeDetached green offset => exact nomatch h
  | apply edits supply =>
      exact (of_moving (Nav.Moving.apply edits supply)).bind fun _ => pure (by simp)

end Request

structure Visit where
  session : Session
  handles : List Nat
  detached : Nat

namespace Visit

inductive Step (v : Visit) : Visit → Prop
  | answered {r : Request} {ids : List Nat} {t : Session} :
      r.handles ⊆ v.handles → r.run v.session = .ok ids t →
      Step v ⟨t, ids ++ v.handles, v.detached + r.detached⟩
  | failed {r : Request} {e : Failure} {t : Session} :
      r.handles ⊆ v.handles → r.run v.session = .error e t → Step v ⟨t, v.handles, v.detached⟩

inductive Reachable (root : Green) : Visit → Prop
  | opened {supply rest : Supply} {s : Session} :
      root.WellFormed → root.isNode = true → Session.ofRoot root supply = .ok (s, rest) →
      Reachable root ⟨s, [Session.rootId], 0⟩
  | step {v w : Visit} : Reachable root v → Step v w → Reachable root w

end Visit

def Placement.filled (p : Placement) : Nat := p.memo.toList.countP Option.isSome

namespace Session

def filled (s : Session) : Nat := (s.placements.toList.map Placement.filled).sum

variable {s t : Session} {allowed : Green → Prop}

theorem filled_make (green : Green) (offset : Nat) (parent : Option Nat) (index : Nat) :
    (Placement.make green offset parent index).filled = 0 := by
  rw [Placement.filled, Placement.make, Array.toList_replicate, List.countP_replicate]
  rfl

theorem filled_remembering {p : Placement} {index : Nat} (hm : p.memo[index]? = some none)
    (id : Nat) :
    ({ p with memo := p.memo.setIfInBounds index (some id) } : Placement).filled =
      p.filled + 1 := by
  obtain ⟨hlt, hentry⟩ := Array.getElem?_eq_some_iff.mp hm
  have hempty : p.memo.toList[index] = none := hentry
  rw [Placement.filled, Array.toList_setIfInBounds,
    List.countP_set (show index < p.memo.toList.length from hlt), hempty]
  rfl

theorem sum_filled_modify {ps : List Placement} {i : Nat} {p : Placement}
    {f : Placement → Placement} (hp : ps[i]? = some p) (hf : (f p).filled = p.filled + 1) :
    ((ps.modify i f).map Placement.filled).sum = (ps.map Placement.filled).sum + 1 := by
  induction ps generalizing i with
  | nil => exact nomatch hp
  | cons q ps ih =>
      cases i with
      | zero =>
          obtain rfl := Option.some.inj hp
          rw [List.modify_zero_cons, List.map_cons, List.map_cons, List.sum_cons, List.sum_cons, hf]
          omega
      | succ i =>
          have hrest := ih hp
          rw [List.modify_succ_cons, List.map_cons, List.map_cons, List.sum_cons, List.sum_cons,
            hrest]
          omega

theorem filled_withChild {parent index : Nat} {p : Placement}
    (hp : s.placements[parent]? = some p) (hm : p.memo[index]? = some none) (green : Green)
    (offset : Nat) : (s.withChild green offset parent index).filled = s.filled + 1 := by
  have hpush : (s.placements.toList ++ [Placement.make green offset (some parent) index])[parent]? =
      some p := by
    rw [List.getElem?_append_left (lt_size_of_getElem? hp)]
    exact (Array.getElem?_toList).trans hp
  rw [filled, withChild, Array.toList_modify, Array.toList_push,
    sum_filled_modify hpush (filled_remembering hm _), List.map_append, List.sum_append,
    List.map_singleton, List.sum_singleton, filled_make, Nat.add_zero, filled]

theorem filled_withDetached (s : Session) (green : Green) (offset : Nat) :
    (s.withPlacement (Placement.make green offset none 0)).filled = s.filled := by
  rw [filled, withPlacement, Array.toList_push, List.map_append, List.sum_append,
    List.map_singleton, List.sum_singleton, filled_make, Nat.add_zero, filled]

theorem Reached.moves (hs : s.Reached) (h : Relation.ReflTransGen (Move allowed) s t) :
    t.Reached := by
  induction h with
  | refl => exact hs
  | tail _ hmove ih => exact ih.moved (hmove.mono fun _ _ => trivial)

theorem tally_of_moves (h : Relation.ReflTransGen (Move fun _ => False) s t) :
    t.placements.size + s.filled = s.placements.size + t.filled := by
  induction h with
  | refl => rfl
  | @tail u t _ hmove ih =>
      cases hmove with
      | child parent index =>
          rcases after_child u parent index with he | ⟨p, start, green, hp, hm, -, -, he⟩
          · rw [he, ih]
          · rw [he, filled_withChild hp hm, withChild, Array.size_modify, Array.size_push]
            omega
      | detached green offset hgreen => exact hgreen.elim

theorem attached_of_strays (h : s.strays = 0) {id : Nat} (hid : id < s.placements.size) :
    s.Attached id := by
  have hall := List.countP_eq_zero.mp h id (List.mem_range.mpr hid)
  simpa using hall

theorem strays_of_moves (hs : s.Reached) (hstrays : s.strays = 0)
    (h : Relation.ReflTransGen (Move fun _ => False) s t) : t.strays = 0 := by
  induction h with
  | refl => exact hstrays
  | @tail u t hmoves hmove ih =>
      have hu := hs.moves hmoves
      cases hmove with
      | child parent index =>
          rcases after_child u parent index with he | ⟨p, start, green, hp, hm, hslot, -, he⟩
          · rw [he, ih]
          · have hat := (attached_of_strays ih (lt_size_of_getElem? hp)).at_path hu.coherent
            rw [he, (explored_withChild hu.coherent hat hp hm hslot).1.strays_eq, ih]
      | detached green offset hgreen => exact hgreen.elim

end Session

namespace Visit

open Session

structure Sound (root : Green) (v : Visit) : Prop where
  reached : v.session.Reached
  root : v.session.root = root
  handles : v.session.Has v.handles
  tally : v.session.placementCount = 1 + v.detached + v.session.filled
  strays : v.detached = 0 → v.session.strays = 0

variable {root : Green} {v w : Visit}

theorem Sound.moves (h : v.Sound root) {t : Session} {ids : List Nat}
    (hmoves : Relation.ReflTransGen (Move fun _ => False) v.session t) (hids : t.Has ids) :
    (Visit.mk t (ids ++ v.handles) v.detached).Sound root := by
  obtain ⟨-, hext⟩ := h.reached.coherent.moves hmoves
  have htally := tally_of_moves hmoves
  have hold := h.tally
  refine ⟨h.reached.moves hmoves, hext.root.trans h.root, hids.append (h.handles.mono hext), ?_,
    fun hzero => strays_of_moves h.reached (h.strays hzero) hmoves⟩
  simp only [placementCount] at hold ⊢
  omega

theorem placeDetached_cases (s : Session) (green : Green) (offset : Nat) :
    placeDetached green offset s =
        .ok s.placements.size (s.withPlacement (Placement.make green offset none 0)) ∨
      placeDetached green offset s = .error (.aborted .arenaFull) s := by
  rw [placeDetached, allot_eq]
  split
  · exact .inl rfl
  · exact .inr rfl

theorem Sound.placeDetached (h : v.Sound root) (green : Green) (offset : Nat) {id : Nat}
    {t : Session} (hrun : Session.placeDetached green offset v.session = .ok id t) :
    (Visit.mk t (id :: v.handles) (v.detached + 1)).Sound root ∧ Extends v.session t := by
  have hmove : Move (fun _ => True) v.session t := by
    rw [← Nav.after_of_ok hrun]
    exact .detached green offset trivial
  obtain ⟨-, hext⟩ := h.reached.coherent.move hmove
  rcases placeDetached_cases v.session green offset with he | he
  · cases hrun.symm.trans he
    have hold := h.tally
    have hsize : (v.session.withPlacement (Placement.make green offset none 0)).placements.size =
        v.session.placements.size + 1 := Array.size_push _
    refine ⟨⟨h.reached.moved hmove, hext.root.trans h.root, ?_, ?_, fun hzero => nomatch hzero⟩,
      hext⟩
    · exact List.forall_mem_cons.mpr ⟨hsize ▸ Nat.lt_succ_self _, h.handles.mono hext⟩
    · simp only [placementCount, hsize, filled_withDetached] at hold ⊢
      omega
  · exact nomatch hrun.symm.trans he

theorem Sound.step (h : v.Sound root) (hstep : Step v w) :
    w.Sound root ∧ Extends v.session w.session := by
  have hs := h.reached.coherent
  cases hstep with
  | @answered r ids t hr hrun =>
      rcases r.detached_cases with hzero | ⟨green, offset, rfl⟩
      · obtain ⟨hmoves, hfound⟩ := Request.finding hzero v.session hs (h.handles.of_subset hr)
        rw [Nav.after_of_ok hrun] at hmoves
        rw [hzero]
        exact ⟨h.moves hmoves (hfound ids t hrun), (hs.moves hmoves).2⟩
      · obtain ⟨id, u, hplace, hlast⟩ := Nav.bind_eq_ok_iff.mp hrun
        cases hlast
        exact h.placeDetached green offset hplace
  | @failed r e t hr hrun =>
      rcases r.detached_cases with hzero | ⟨green, offset, rfl⟩
      · obtain ⟨hmoves, -⟩ := Request.finding hzero v.session hs (h.handles.of_subset hr)
        rw [Nav.after_of_error hrun] at hmoves
        exact ⟨h.moves hmoves fun _ hid => absurd hid List.not_mem_nil, (hs.moves hmoves).2⟩
      · rcases placeDetached_cases v.session green offset with he | he
        · have hok : (Request.placeDetached green offset).run v.session = _ := Nav.bind_ok he
          exact nomatch hrun.symm.trans hok
        · have herror : (Request.placeDetached green offset).run v.session = _ := Nav.bind_error he
          cases hrun.symm.trans herror
          exact ⟨h, .refl _⟩

theorem Sound.opened {supply rest : Supply} {s : Session} (hw : root.WellFormed)
    (hn : root.isNode = true) (ho : ofRoot root supply = .ok (s, rest)) :
    (Visit.mk s [rootId] 0).Sound root := by
  have hsize := size_of_ofRoot ho
  refine ⟨.opened hw hn ho, (coherent_of_ofRoot ho).2, ?_, ?_, fun _ => strays_of_ofRoot ho⟩
  · exact List.forall_mem_singleton.mpr (hsize ▸ Nat.zero_lt_one)
  · cases ho
    simp only [placementCount, filled, List.map_cons, List.map_nil, List.sum_cons, List.sum_nil,
      filled_make, List.size_toArray, List.length_cons, List.length_nil, Nat.add_zero, Nat.zero_add]

theorem Reachable.sound (h : Reachable root v) : v.Sound root := by
  induction h with
  | opened hw hn ho => exact .opened hw hn ho
  | step _ hstep ih => exact (ih.step hstep).1

theorem Reachable.later (h : Reachable root v) (hsteps : Relation.ReflTransGen Step v w) :
    Reachable root w ∧ Extends v.session w.session := by
  induction hsteps with
  | refl => exact ⟨h, .refl _⟩
  | tail _ hstep ih =>
      obtain ⟨hmid, hext⟩ := ih
      exact ⟨hmid.step hstep, hext.trans (hmid.sound.step hstep).2⟩

end Visit

namespace Sample

def visit : Visit where
  session := Nav.after (Session.resolve ⟨[2, 0]⟩) session
  handles := [2, Session.rootId]
  detached := 0

theorem visit_reachable : Visit.Reachable assignment visit := by
  have ho : Session.ofRoot assignment ⟨7⟩ = .ok (session, ⟨8⟩) := rfl
  have hrun : (Request.resolve ⟨[2, 0]⟩).run session = .ok [2] visit.session := rfl
  have hstep := Visit.Step.answered (v := ⟨session, [Session.rootId], 0⟩) (List.nil_subset _) hrun
  exact .step (.opened assignment_wellFormed rfl ho) hstep

theorem visit_at : visit.session.At [2, 0] 2 := by
  have hrun : Session.resolve ⟨[2, 0]⟩ session = .ok 2 visit.session := rfl
  exact (Session.explored_of_resolve session_reached hrun).2

end Sample

end LosslessSyntax
