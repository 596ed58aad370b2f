import LosslessSyntax.Proofs.Session.Lockstep

namespace LosslessSyntax

open Nav (Agree AgreeAt)

structure Sight where
  kind : Kind
  isNode : Bool
  childCount : Nat
  missing : Bool
  containsMissing : Bool
  diagnostics : List Diagnostic
  containsDiagnostics : Bool
  offset : Nat
  textRange : Except Failure TextRange
  tokenTextRange : Except Failure TextRange
  leadingRange : Except Failure TextRange
  trailingRange : Except Failure TextRange
  display : Except Failure String
  path : Path
  parent : Option Nat
  index : Option Nat
  ancestors : List Nat

def Session.sight (s : Session) (id : Nat) (p : Placement) : Sight where
  kind := p.kind
  isNode := p.isNode
  childCount := p.green.children.length
  missing := p.green.isMissing
  containsMissing := p.green.containsMissing
  diagnostics := p.green.diagnostics
  containsDiagnostics := p.green.containsDiagnostics
  offset := p.offset
  textRange := p.textRange
  tokenTextRange := p.tokenTextRange
  leadingRange := p.leadingRange
  trailingRange := p.trailingRange
  display := p.display
  path := s.path id
  parent := s.parent? id
  index := s.indexInParent? id
  ancestors := s.ancestors id

theorem Session.Twin.sight_eq {s t : Session} (h : s.Twin t) {p q : Placement} (hpq : p.Twin q)
    (id : Nat) : s.sight id p = t.sight id q := by
  have hgreen := hpq.green
  simp only [sight, Placement.kind, Placement.isNode, hgreen.kind_eq, hgreen.isNode_eq,
    hgreen.children.length_eq, hgreen.isMissing_eq, hgreen.containsMissing_eq,
    hgreen.diagnostics_eq, hgreen.containsDiagnostics_eq, hpq.offset, hpq.textRange_eq,
    hpq.tokenTextRange_eq, hpq.leadingRange_eq, hpq.trailingRange_eq, hpq.display_eq, h.path_eq,
    h.parent?_eq, h.indexInParent?_eq, h.ancestors_eq]

namespace Request

def isSearch : Request → Bool
  | child _ _ | childAt _ _ | firstChild _ | lastChild _ | nextSibling _ | prevSibling _
  | parent _ | ancestors _ | firstToken _ | lastToken _ | nextToken _ | prevToken _ | drain _
  | descendants _ | descendantsWithTokens _ | descendantTokens _ | tokenAtOffset _ _
  | coveringElement _ _ | resolve _ => true
  | take _ | takeBack _ | takeNode _ | takeNodeBack _ | step _ | stepNode _ _ | trimmedRange _
  | text _ _ | trimmedText _ _ | diagnostics _ | field _ _ | statements _ | placeBelow _ _ _ _
  | placeDetached _ _ | apply _ _ => false

variable {r : Request} {s t : Session}

theorem detached_of_isSearch (h : r.isSearch = true) : r.detached = 0 := by
  rcases r.detached_cases with hzero | ⟨green, offset, rfl⟩
  · exact hzero
  · cases h

theorem agreeAt_run (hr : r.isSearch = true) (h : s.Paired t) (hids : s.Has r.handles) :
    AgreeAt Eq r.run r.run s t := by
  have hst := h.twin
  cases r with
  | child id index => exact (Session.agree_child id index s t hst).map Option.toList
  | childAt id index => exact (Session.agree_childAt id index s t hst).map fun id => [id]
  | firstChild id => exact (Session.agree_firstChild id s t hst).map Option.toList
  | lastChild id => exact (Session.agree_lastChild id s t hst).map Option.toList
  | nextSibling id => exact (Session.agree_nextSibling id s t hst).map Option.toList
  | prevSibling id => exact (Session.agree_prevSibling id s t hst).map Option.toList
  | parent id => exact .inr ⟨_, _, s, t, rfl, rfl, congrArg _ (hst.parent?_eq id), hst⟩
  | ancestors id => exact .inr ⟨_, _, s, t, rfl, rfl, hst.ancestors_eq id, hst⟩
  | firstToken id => exact (Session.agree_firstToken id s t hst).map Option.toList
  | lastToken id => exact (Session.agree_lastToken id s t hst).map Option.toList
  | nextToken id => exact (Session.agree_nextToken id s t hst).map Option.toList
  | prevToken id => exact (Session.agree_prevToken id s t hst).map Option.toList
  | drain queue => exact ChildQueue.agree_takeAll ChildQueue.agree_next _ queue s t hst
  | descendants id => exact Session.agreeAt_descendants h (hids id List.mem_cons_self)
  | descendantsWithTokens id =>
      exact Session.agreeAt_descendantsWithTokens h (hids id List.mem_cons_self)
  | descendantTokens id => exact Session.agreeAt_descendantTokens h (hids id List.mem_cons_self)
  | tokenAtOffset id offset =>
      exact (Session.agree_tokenAtOffset id offset s t hst).map TokenAtOffset.toList
  | coveringElement id range =>
      exact (Session.agree_coveringElement id range s t hst).map Option.toList
  | resolve path => exact (Session.agree_resolve path s t hst).map fun id => [id]
  | _ => cases hr

end Request

inductive Reply where
  | refused
  | failed (e : Failure)
  | found (ids : List Nat)
  | sight (seen : Sight)
  | queue (queue : ChildQueue)
  | taken (taken : Option Nat × ChildQueue)
  | range (range : TextRange)
  | text (text : String)
  | diagnostics (located : List LocatedDiagnostic)
  | count (placements : Nat)
  | opened (walk : Nat)
  | event (event : Option Event)
  | edited (root : Green)

inductive Reply.Same : Reply → Reply → Prop
  | refl (r : Reply) : Same r r
  | edited {a b : Green} : a.alike b = true → Same (.edited a) (.edited b)

inductive Question where
  | find (request : Request)
  | sight (id : Nat)
  | queue (id : Nat)
  | take (left : ChildQueue) (back nodes : Bool)
  | trimmedRange (id : Nat)
  | text (id : Nat) (source : String)
  | trimmedText (id : Nat) (source : String)
  | diagnostics (id : Nat)
  | dump
  | display
  | count

namespace Question

def handles : Question → List Nat
  | find r => r.handles
  | sight id | queue id | trimmedRange id | text id _ | trimmedText id _ | diagnostics id => [id]
  | take left _ _ => [left.parent]
  | dump | display | count => []

def ask : Question → Nav Reply
  | find r => if r.isSearch then do return .found (← r.run) else pure .refused
  | sight id => do
      let p ← Nav.placement id
      let s ← get
      return .sight (s.sight id p)
  | queue id => do return .queue (← ChildQueue.ofNode id)
  | take left false false => do return .taken (← left.next)
  | take left true false => do return .taken (← left.nextBack)
  | take left false true => do return .taken (← left.nextNode)
  | take left true true => do return .taken (← left.nextNodeBack)
  | trimmedRange id => do return .range (← Session.trimmedRange id)
  | text id source => do return .text (← Session.text id source)
  | trimmedText id source => do return .text (← Session.trimmedText id source)
  | diagnostics id => do return .diagnostics (← Session.diagnostics id)
  | dump => do
      let s ← get
      return .text (← Nav.ofExcept s.root.dump)
  | display => do
      let s ← get
      return .text s.display
  | count => do
      let s ← get
      return .count s.placementCount

section Finding

open Nav.Finding

theorem finding (q : Question) : Nav.Finding q.handles q.ask fun _ => [] := by
  cases q with
  | find r =>
      rw [ask]
      split
      · have hr := Request.finding (Request.detached_of_isSearch ‹r.isSearch = true›)
        exact hr.bind fun _ => pure (List.nil_subset _)
      · exact pure (List.nil_subset _)
  | sight id =>
      exact (placement id).bind fun _ => get.bind fun _ => pure (List.nil_subset _)
  | queue id => exact (ofNode id).bind fun _ => pure (List.nil_subset _)
  | take queue back nodes =>
      cases back <;> cases nodes
      · exact (next queue).bind fun _ => pure (List.nil_subset _)
      · exact (nextWhere (fun _ q => next q) _ _ queue).bind fun _ => pure (List.nil_subset _)
      · exact (nextBack queue).bind fun _ => pure (List.nil_subset _)
      · exact (nextWhere (fun _ q => nextBack q) _ _ queue).bind fun _ => pure (List.nil_subset _)
  | trimmedRange id => exact (Nav.Finding.trimmedRange id).bind fun _ => pure (List.nil_subset _)
  | text id source => exact (Nav.Finding.text id source).bind fun _ => pure (List.nil_subset _)
  | trimmedText id source =>
      exact (Nav.Finding.trimmedText id source).bind fun _ => pure (List.nil_subset _)
  | diagnostics id => exact (Nav.Finding.diagnostics id).bind fun _ => pure (List.nil_subset _)
  | dump => exact get.bind fun _ => (ofExcept _).bind fun _ => pure (List.nil_subset _)
  | display => exact get.bind fun _ => pure (List.nil_subset _)
  | count => exact get.bind fun _ => pure (List.nil_subset _)

end Finding

theorem agreeAt {s t : Session} (q : Question) (h : s.Paired t) (hids : s.Has q.handles) :
    AgreeAt Eq q.ask q.ask s t := by
  have hst := h.twin
  cases q with
  | find r =>
      rw [ask]
      split
      · exact (Request.agreeAt_run ‹_› h hids).map Reply.found
      · exact Agree.pure rfl s t hst
  | sight id =>
      refine .placementBind hst fun p q hpq => ?_
      refine .getBind ?_
      rw [hst.sight_eq hpq]
      exact Agree.pure rfl s t hst
  | queue id => exact (ChildQueue.agree_ofNode id s t hst).map Reply.queue
  | take queue back nodes =>
      have hnode : ∀ p q : Placement, p.Twin q → p.isNode = q.isNode := fun _ _ h => h.isNode_eq
      cases back <;> cases nodes
      · exact (ChildQueue.agree_next queue s t hst).map Reply.taken
      · exact (ChildQueue.agree_nextWhere ChildQueue.agree_next hnode _ queue s t hst).map _
      · exact (ChildQueue.agree_nextBack queue s t hst).map Reply.taken
      · exact (ChildQueue.agree_nextWhere ChildQueue.agree_nextBack hnode _ queue s t hst).map _
  | trimmedRange id => exact (Session.agree_trimmedRange id s t hst).map Reply.range
  | text id source => exact (Session.agree_text id source s t hst).map Reply.text
  | trimmedText id source => exact (Session.agree_trimmedText id source s t hst).map Reply.text
  | diagnostics id =>
      exact (Session.agreeAt_diagnostics h (hids id List.mem_cons_self)).map Reply.diagnostics
  | dump =>
      refine .getBind ?_
      rw [hst.root.dump_eq]
      exact (Agree.ofExcept t.root.dump s t hst).map Reply.text
  | display =>
      refine .getBind ?_
      rw [hst.display_eq]
      exact Agree.pure rfl s t hst
  | count =>
      refine .getBind ?_
      rw [Session.placementCount, Session.placementCount, hst.size]
      exact Agree.pure rfl s t hst

end Question

namespace Walk

def advance (s : Session) (nodes : Bool) (w : Walk) : Nav (Option Event × Walk) :=
  if nodes then nextNode (bound s w.start) w else w.next

theorem advance_eq {s t : Session} (h : s.Twin t) (nodes : Bool) (w : Walk) :
    advance s nodes w = advance t nodes w := by
  rw [advance, advance, h.bound_eq]

theorem steady_advance (s : Session) (nodes : Bool) : Steady (advance s nodes) := by
  cases nodes with
  | false => exact steady_next
  | true => exact ⟨fun hw hs hok => hw.nextNode hs hok, fun h hw => agreeAt_nextNode _ h hw⟩

theorem finding_advance (s : Session) (nodes : Bool) (w : Walk) :
    Nav.Finding (Nav.Finding.concerned w.upcoming) (advance s nodes w) Nav.Finding.passed := by
  cases nodes with
  | false => exact Nav.Finding.step (List.Subset.refl _)
  | true => exact Nav.Finding.stepNode _ (List.Subset.refl _)

end Walk

structure HeldWalk where
  walk : Walk
  begun : Bool

namespace HeldWalk

def told (h : HeldWalk) (skip : Bool) : Walk :=
  -- to skip before the start is entered would lead out of its subtree
  if skip && h.begun then h.walk.skipSubtree else h.walk

structure Kept (s : Session) (h : HeldWalk) : Prop where
  within : h.walk.Within s
  begun : h.begun = true → h.walk.Begun

theorem start_told (h : HeldWalk) (skip : Bool) : (h.told skip).start = h.walk.start := by
  rw [told]
  split <;> rfl

structure EndsAtStart (s : Session) (h : HeldWalk) : Prop where
  test : ∀ id, s.Below h.walk.start id →
    (s.equivalent id s h.walk.start = true ↔ id = h.walk.start)
  stops : ∀ nodes skip e w t, Walk.advance s nodes (h.told skip) s = .ok (some e, w) t →
    (w.upcoming = none ↔ e = .leave h.walk.start)

namespace Kept

variable {s t : Session} {h : HeldWalk}

theorem mono (hk : h.Kept s) (hst : Session.Extends s t) : h.Kept t :=
  ⟨hk.within.mono hst, hk.begun⟩

theorem told (hk : h.Kept s) (skip : Bool) :
    (h.told skip).Within s ∧ (h.begun = true → (h.told skip).Begun) := by
  rw [HeldWalk.told]
  cases hskip : skip && h.begun with
  | false => exact ⟨hk.within, hk.begun⟩
  | true =>
      have hbegun := hk.begun (Bool.and_eq_true_iff.mp hskip).2
      exact ⟨hk.within.skipSubtree hbegun, fun _ => hbegun⟩

theorem endsAtStart (hk : h.Kept s) (hs : s.Rooted) : h.EndsAtStart s := by
  refine ⟨?_, ?_⟩
  · intro id hbelow
    rw [hbelow.equivalent_eq hs.coherent, decide_eq_true_iff]
  · intro nodes skip e w t hok
    have hadvanced := (Walk.steady_advance s nodes).advanced (hk.told skip).1 hs hok
    exact h.start_told skip ▸ hadvanced.ends e rfl

end Kept

end HeldWalk

inductive Inquiry where
  | ask (question : Question)
  | walk (id : Nat)
  | advance (index : Nat) (nodes skip : Bool)
  | apply (batch : List (Path × Green))

instance (s : Session) (ids : List Nat) : Decidable (s.Has ids) :=
  inferInstanceAs (Decidable (∀ id ∈ ids, id < s.placements.size))

structure Survey where
  session : Session
  supply : Supply
  walks : List HeldWalk

namespace Survey

def recorded (batch : List (Path × Green)) : List Edit := batch.map fun x => .atPath x.1 x.2

def advance (v : Survey) (index : Nat) (held : HeldWalk) (nodes skip : Bool) : Reply × Survey :=
  match Walk.advance v.session nodes (held.told skip) v.session with
  | .ok (event, w) s =>
      (.event event,
        { v with session := s, walks := v.walks.set index ⟨w, held.begun || event.isSome⟩ })
  | .error e s =>
      -- what comes next was not decided, so the walk is over
      (.failed e,
        { v with
          session := s
          walks := v.walks.set index ⟨⟨held.walk.start, none, false⟩, held.begun⟩ })

def answer (v : Survey) : Inquiry → Reply × Survey
  | .ask question =>
      if v.session.Has question.handles then
        match question.ask v.session with
        | .ok reply s => (reply, { v with session := s })
        | .error e s => (.failed e, { v with session := s })
      else (.refused, v)
  | .walk id =>
      if v.session.Has [id] then
        (.opened v.walks.length, { v with walks := v.walks ++ [⟨Walk.ofNode id, false⟩] })
      else (.refused, v)
  | .advance index nodes skip =>
      match v.walks[index]? with
      | none => (.refused, v)
      | some held => v.advance index held nodes skip
  | .apply batch =>
      match Session.apply (recorded batch) v.supply v.session with
      | .ok (edited, rest) s => (.edited edited.root, { v with session := s, supply := rest })
      | .error e s => (.failed e, { v with session := s })

def run (v : Survey) : List Inquiry → List Reply × Survey
  | [] => ([], v)
  | inquiry :: inquiries =>
      let (reply, v) := v.answer inquiry
      let (replies, v) := v.run inquiries
      (reply :: replies, v)

end Survey

namespace Session

variable {α β : Type} {R : α → β → Prop} {m : Nav α} {m' : Nav β} {known : List Nat}
  {found : α → List Nat} {found' : β → List Nat} {s t : Session}

theorem Paired.has (h : s.Paired t) {ids : List Nat} : s.Has ids ↔ t.Has ids := by
  rw [Has, Has, h.twin.size]

theorem Paired.outcome (h : s.Paired t) (hagree : AgreeAt R m m' s t)
    (hm : Nav.Finding known m found) (hm' : Nav.Finding known m' found') (hknown : s.Has known) :
    (∃ e s' t', m s = .error e s' ∧ m' t = .error e t' ∧ s'.Paired t' ∧ Extends s s') ∨
      ∃ a b s' t', m s = .ok a s' ∧ m' t = .ok b t' ∧ R a b ∧ s'.Paired t' ∧ Extends s s' := by
  obtain ⟨hs, hext⟩ := h.left.after hm hknown
  obtain ⟨ht, -⟩ := h.right.after hm' (h.has.mp hknown)
  rcases hagree with ⟨e, s', t', he, he', hst⟩ | ⟨a, b, s', t', ha, hb, hR, hst⟩
  · rw [Nav.after_of_error he] at hs hext
    rw [Nav.after_of_error he'] at ht
    exact .inl ⟨e, s', t', he, he', ⟨hst, hs, ht⟩, hext⟩
  · rw [Nav.after_of_ok ha] at hs hext
    rw [Nav.after_of_ok hb] at ht
    exact .inr ⟨a, b, s', t', ha, hb, hR, ⟨hst, hs, ht⟩, hext⟩

end Session

namespace Survey

structure Paired (v v' : Survey) : Prop where
  session : v.session.Paired v'.session
  walks : v.walks = v'.walks
  kept : ∀ held ∈ v.walks, held.Kept v.session

namespace Paired

variable {v v' : Survey} {s t : Session}

theorem grown (h : v.Paired v') (hst : s.Paired t) (hext : Session.Extends v.session s)
    (supply supply' : Supply) :
    Paired { v with session := s, supply := supply } { v' with session := t, supply := supply' } :=
  ⟨hst, h.walks, fun held hheld => (h.kept held hheld).mono hext⟩

theorem set (h : v.Paired v') (hst : s.Paired t) (hext : Session.Extends v.session s)
    {held : HeldWalk} (hheld : held.Kept s) (index : Nat) :
    Paired { v with session := s, walks := v.walks.set index held }
      { v' with session := t, walks := v'.walks.set index held } := by
  refine ⟨hst, congrArg (·.set index held) h.walks, ?_⟩
  intro other hother
  rcases List.mem_or_eq_of_mem_set hother with hold | rfl
  · exact (h.kept other hold).mono hext
  · exact hheld

theorem ask (h : v.Paired v') (q : Question) :
    (v.answer (.ask q)).1.Same (v'.answer (.ask q)).1 ∧
      (v.answer (.ask q)).2.Paired (v'.answer (.ask q)).2 := by
  rw [answer, answer]
  by_cases hknown : v.session.Has q.handles
  · rw [if_pos hknown, if_pos (h.session.has.mp hknown)]
    rcases h.session.outcome (q.agreeAt h.session hknown) q.finding q.finding hknown with
      ⟨e, s, t, he, he', hst, hext⟩ | ⟨reply, _, s, t, hr, hr', rfl, hst, hext⟩
    · rw [he, he']
      exact ⟨.refl _, h.grown hst hext _ _⟩
    · rw [hr, hr']
      exact ⟨.refl _, h.grown hst hext _ _⟩
  · rw [if_neg hknown, if_neg fun h' => hknown (h.session.has.mpr h')]
    exact ⟨.refl _, h⟩

theorem walk (h : v.Paired v') (id : Nat) :
    (v.answer (.walk id)).1.Same (v'.answer (.walk id)).1 ∧
      (v.answer (.walk id)).2.Paired (v'.answer (.walk id)).2 := by
  rw [answer, answer]
  by_cases hknown : v.session.Has [id]
  · rw [if_pos hknown, if_pos (h.session.has.mp hknown)]
    refine ⟨?_, h.session, congrArg (· ++ _) h.walks, ?_⟩
    · rw [h.walks]
      exact .refl _
    · intro held hheld
      rcases List.mem_append.mp hheld with hold | hnew
      · exact h.kept held hold
      · obtain rfl := List.mem_singleton.mp hnew
        exact ⟨Walk.within_ofNode h.session.left (hknown id List.mem_cons_self), nofun⟩
  · rw [if_neg hknown, if_neg fun h' => hknown (h.session.has.mpr h')]
    exact ⟨.refl _, h⟩

theorem advance (h : v.Paired v') (index : Nat) (nodes skip : Bool) :
    (v.answer (.advance index nodes skip)).1.Same (v'.answer (.advance index nodes skip)).1 ∧
      (v.answer (.advance index nodes skip)).2.Paired
        (v'.answer (.advance index nodes skip)).2 := by
  rw [answer, answer, ← h.walks]
  cases hheld : v.walks[index]? with
  | none => exact ⟨.refl _, h⟩
  | some held =>
      have hk := h.kept held (List.mem_of_getElem? hheld)
      obtain ⟨hwithin, hbegun⟩ := hk.told skip
      have hsteady := Walk.steady_advance v.session nodes
      have hfinding := Walk.finding_advance v.session nodes (held.told skip)
      have hknown := hwithin.has h.session.left.coherent
      dsimp only
      rw [Survey.advance, Survey.advance, ← Walk.advance_eq h.session.twin]
      rcases h.session.outcome (hsteady.agreeAt h.session hwithin) hfinding hfinding hknown with
        ⟨e, s, t, he, he', hst, hext⟩ | ⟨⟨event, w⟩, _, s, t, hr, hr', rfl, hst, hext⟩
      · have hover : HeldWalk.Kept s ⟨⟨held.walk.start, none, false⟩, held.begun⟩ :=
          ⟨⟨nofun, nofun⟩, fun _ => nofun⟩
        rw [he, he']
        exact ⟨.refl _, h.set hst hext hover index⟩
      · rw [hr, hr']
        have hadvanced := hsteady.advanced hwithin h.session.left hr
        refine ⟨.refl _, h.set hst hext ⟨hadvanced.within, fun hbegun' => ?_⟩ index⟩
        rcases Bool.or_eq_true_iff.mp hbegun' with hold | hnew
        · exact hadvanced.begun (.inr (hbegun hold))
        · exact hadvanced.begun (.inl hnew)

theorem apply (h : v.Paired v') (batch : List (Path × Green)) :
    (v.answer (.apply batch)).1.Same (v'.answer (.apply batch)).1 ∧
      (v.answer (.apply batch)).2.Paired (v'.answer (.apply batch)).2 := by
  have hedits : List.Forall₂ Edit.Twin (recorded batch) (recorded batch) := by
    refine List.forall₂_same.mpr fun e he => ?_
    obtain ⟨x, -, rfl⟩ := List.mem_map.mp he
    exact ⟨rfl, ⟨rfl, rfl⟩, rfl⟩
  have hfinding (supply : Supply) :
      Nav.Finding [] (Session.apply (recorded batch) supply) fun _ => [] :=
    .of_moving (.apply (recorded batch) supply)
  have hagree := Session.agree_apply hedits v.supply v'.supply _ _ h.session.twin
  rw [answer, answer]
  rcases h.session.outcome hagree (hfinding v.supply) (hfinding v'.supply)
      fun _ hid => absurd hid List.not_mem_nil with
    ⟨e, s, t, he, he', hst, hext⟩ | ⟨⟨edited, rest⟩, ⟨edited', rest'⟩, s, t, hr, hr', hR, hst, hext⟩
  · rw [he, he']
    exact ⟨.refl _, h.grown hst hext _ _⟩
  · rw [hr, hr']
    exact ⟨.edited hR.1.root.alike, h.grown hst hext rest rest'⟩

theorem answer (h : v.Paired v') (inquiry : Inquiry) :
    (v.answer inquiry).1.Same (v'.answer inquiry).1 ∧
      (v.answer inquiry).2.Paired (v'.answer inquiry).2 := by
  cases inquiry with
  | ask question => exact h.ask question
  | walk id => exact h.walk id
  | advance index nodes skip => exact h.advance index nodes skip
  | apply batch => exact h.apply batch

theorem run (h : v.Paired v') (inquiries : List Inquiry) :
    List.Forall₂ Reply.Same (v.run inquiries).1 (v'.run inquiries).1 ∧
      (v.run inquiries).2.Paired (v'.run inquiries).2 := by
  induction inquiries generalizing v v' with
  | nil => exact ⟨.nil, h⟩
  | cons inquiry inquiries ih =>
      obtain ⟨hreply, hnext⟩ := h.answer inquiry
      obtain ⟨hreplies, hlast⟩ := ih hnext
      exact ⟨.cons hreply hreplies, hlast⟩

end Paired

def opened (s : Session) (supply : Supply) : Survey := ⟨s, supply, []⟩

structure Match (r r' : List Reply × Survey) : Prop where
  replies : List.Forall₂ Reply.Same r.1 r'.1
  count : r.2.session.placementCount = r'.2.session.placementCount
  walks : r.2.walks = r'.2.walks
  ends : ∀ held ∈ r.2.walks, held.EndsAtStart r.2.session ∧ held.EndsAtStart r'.2.session

theorem Paired.match_run {v v' : Survey} (h : v.Paired v') (inquiries : List Inquiry) :
    Match (v.run inquiries) (v'.run inquiries) := by
  obtain ⟨hreplies, hlast⟩ := h.run inquiries
  have hsession := hlast.session
  refine ⟨hreplies, hsession.twin.size, hlast.walks, ?_⟩
  intro held hheld
  have hk := hlast.kept held hheld
  have hk' : held.Kept _ := ⟨hsession.within hk.within, hk.begun⟩
  exact ⟨hk.endsAtStart hsession.left, hk'.endsAtStart hsession.right⟩

end Survey

end LosslessSyntax
