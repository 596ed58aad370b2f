import LosslessSyntax.Proofs.Document.Modify
import LosslessSyntax.Proofs.Edit.Verdict
import LosslessSyntax.Proofs.Green.Mint
import LosslessSyntax.Proofs.Session.Derived

namespace LosslessSyntax

namespace Document

structure Call where
  edits : List (Path × Green)
  supply : Supply
  outcome : Except Failure Session

namespace Call

def accepted (c : Call) : Bool := c.outcome.isOk

def counts (c : Call) : Bool := c.accepted && !c.edits.isEmpty

def rootAfter (root : Green) (c : Call) : Except Failure Green :=
  (applied root c.edits c.supply).map fun r => r.1.root

structure Exact (root : Green) (c : Call) : Prop where
  content : c.outcome.map (fun s => (s.root, s.placements)) =
    (applied root c.edits c.supply).map fun r => (r.1.root, r.1.placements)
  same : c.edits ≠ [] → c.outcome = (applied root c.edits c.supply).map Prod.fst

end Call

def replay (root : Green) (calls : List Call) : Except Failure Green :=
  (calls.filter Call.accepted).foldlM Call.rootAfter root

section Modify

variable {edits : List (Path × Green)} {supply : Supply}

theorem applied_nil (root : Green) (supply : Supply) :
    ∃ new rest, applied root [] supply = .ok (new, rest) ∧ new.root = root ∧
      new.placements = #[Placement.make root 0 none 0] := by
  have he : applied root [] supply = _ := Session.answer_apply_nil _ _
  exact ⟨_, _, he, rfl, rfl⟩

theorem fresh_of_applied {root : Green} {new : Session} {rest : Supply} (hw : root.WellFormed)
    (hn : root.isNode = true) (hr : ∀ e ∈ edits, e.2.WellFormed)
    (h : applied root edits supply = .ok (new, rest)) :
    new.root.WellFormed ∧ new.root.isNode = true ∧
      new.placements = #[Placement.make new.root 0 none 0] := by
  obtain ⟨s, next, hs⟩ : ∃ s next, Session.ofRoot root supply = .ok (s, next) := ⟨_, _, rfl⟩
  rw [applied, hs] at h
  have hreplacements : ∀ e ∈ edits.map fun e => Edit.atPath e.1 e.2, e.replacement.WellFormed :=
    List.forall_mem_map.mpr hr
  cases Session.completed_of_apply (.opened hw hn hs) hreplacements h with
  | accepted hwf hnode hwidth hroots ho =>
      cases ho
      exact ⟨hwf, hnode, rfl⟩

end Modify

theorem replay_append (root : Green) (before after : List Call) :
    replay root (before ++ after) = (replay root before).bind fun g => replay g after := by
  rw [replay, List.filter_append, List.foldlM_append]
  rfl

theorem replay_accepted {c : Call} (h : c.accepted = true) (root : Green) :
    replay root [c] = c.rootAfter root := by
  rw [replay, List.filter_singleton, h]
  exact bind_pure (c.rootAfter root)

theorem replay_refused {c : Call} (h : c.accepted = false) (root : Green) :
    replay root [c] = .ok root := by
  rw [replay, List.filter_singleton, h]
  rfl

end Document

structure History where
  document : Document
  calls : List Document.Call
  visits : List (Green × Visit)

namespace History

open Document (Call replay applied)

def ofRoot (root : Green) : History := ⟨Document.ofRoot root, [], []⟩

def modify (h : History) (edits : List (Path × Green)) (supply : Supply) : History :=
  match Document.modify edits supply h.document with
  | .ok (s, _) d =>
      ⟨d, h.calls ++ [⟨edits, supply, .ok s⟩],
        h.visits ++ [(s.root, Visit.mk s [Session.rootId] 0)]⟩
  | .error e d => ⟨d, h.calls ++ [⟨edits, supply, .error e⟩], h.visits⟩

inductive Step (h : History) : History → Prop
  | modify {edits : List (Path × Green)} (supply : Supply) :
      (∀ e ∈ edits, e.2.WellFormed) → Step h (h.modify edits supply)
  | view {supply rest : Supply} {s : Session} :
      h.document.session supply = .ok (s, rest) →
      Step h { h with
        visits := h.visits ++ [(h.document.root, Visit.mk s [Session.rootId] 0)] }
  | visit {i : Nat} {root : Green} {v w : Visit} :
      h.visits[i]? = some (root, v) → v.Step w → Step h { h with visits := h.visits.set i (root, w) }

inductive Reachable (root : Green) : History → Prop
  | opened : root.WellFormed → root.isNode = true → Reachable root (ofRoot root)
  | step {h h' : History} : Reachable root h → Step h h' → Reachable root h'

structure Accounted (root : Green) (h : History) : Prop where
  version : h.document.version.toNat = (h.calls.filter Call.counts).length
  replayed : replay root h.calls = .ok h.document.root
  exact : ∀ before c after, h.calls = before ++ c :: after →
    ∃ g, replay root before = .ok g ∧ c.Exact g
  returned : ∀ s, (h.calls.filterMap fun c => c.outcome.toOption).getLast? = some s →
    s.root = h.document.root

/-- A call was made that would have counted, after as many as a version can count. -/
def Overran (calls : List Call) : Prop :=
  ∃ before c after, calls = before ++ c :: after ∧
    (before.filter Call.counts).length + 1 = UInt64.size ∧
    c.outcome = .error (.aborted .versionOverflow)

structure Kept (root : Green) (h : History) : Prop where
  wellFormed : h.document.root.WellFormed
  isNode : h.document.root.isNode = true
  visits : ∀ x ∈ h.visits, Visit.Reachable x.1 x.2
  accounted : Overran h.calls ∨ Accounted root h

variable {root : Green} {h h' : History} {edits : List (Path × Green)} {supply : Supply}

theorem Overran.append {calls : List Call} (h : Overran calls) (more : List Call) :
    Overran (calls ++ more) := by
  obtain ⟨before, c, after, rfl, hcount, hc⟩ := h
  exact ⟨before, c, after ++ more, by rw [List.append_assoc, List.cons_append], hcount, hc⟩

theorem Overran.size_le {calls : List Call} (h : Overran calls) : UInt64.size ≤ calls.length := by
  obtain ⟨before, c, after, rfl, hcount, -⟩ := h
  have hle := List.length_filter_le Call.counts before
  rw [List.length_append, List.length_cons]
  omega

theorem exact_concat {calls : List Call} {c : Call} {g : Green}
    (h : ∀ before c after, calls = before ++ c :: after →
      ∃ g, replay root before = .ok g ∧ c.Exact g)
    (hg : replay root calls = .ok g) (hc : c.Exact g) :
    ∀ before c' after, calls ++ [c] = before ++ c' :: after →
      ∃ g, replay root before = .ok g ∧ c'.Exact g := by
  intro before c' after heq
  rcases after.eq_nil_or_concat with rfl | ⟨after, last, rfl⟩
  · obtain ⟨rfl, hlast⟩ := List.append_inj' heq rfl
    obtain rfl := (List.cons.inj hlast).1
    exact ⟨g, hg, hc⟩
  · rw [List.concat_eq_append, ← List.cons_append, ← List.append_assoc] at heq
    exact h before c' after (List.append_inj' heq rfl).1

theorem Accounted.refuse (ha : Accounted root h) {c : Call} (hrefused : c.accepted = false)
    (hexact : c.Exact h.document.root) :
    Accounted root ⟨h.document, h.calls ++ [c], h.visits⟩ where
  version := by
    have hcounts : c.counts = false := by rw [Call.counts, hrefused, Bool.false_and]
    rw [List.filter_append, List.filter_singleton, hcounts, ha.version]
    simp
  replayed := by
    rw [Document.replay_append, ha.replayed]
    exact Document.replay_refused hrefused _
  exact := exact_concat ha.exact ha.replayed hexact
  returned := by
    have hnone : c.outcome.toOption = none := by
      cases hc : c.outcome with
      | error e => rfl
      | ok s =>
          rw [Call.accepted, hc] at hrefused
          exact nomatch hrefused
    intro s hs
    rw [List.filterMap_append, List.filterMap_cons, hnone] at hs
    exact ha.returned s (by simpa using hs)

theorem visit_reachable_of_fresh {s : Session} (hw : s.root.WellFormed)
    (hn : s.root.isNode = true) (hs : s.placements = #[Placement.make s.root 0 none 0]) :
    Visit.Reachable s.root ⟨s, [Session.rootId], 0⟩ := by
  obtain ⟨stamp, g, placements⟩ := s
  obtain rfl : placements = #[Placement.make g 0 none 0] := hs
  have ho : Session.ofRoot g ⟨stamp⟩ = .ok (⟨stamp, g, _⟩, ⟨stamp + 1⟩) := rfl
  exact .opened hw hn ho

theorem Accounted.accept (ha : Accounted root h) {c : Call} {s : Session} {d : Document}
    (visits : List (Green × Visit)) (hc : c.outcome = .ok s) (hroot : s.root = d.root)
    (happlied : c.rootAfter h.document.root = .ok d.root) (hexact : c.Exact h.document.root)
    (hversion : d.version.toNat = h.document.version.toNat + (!c.edits.isEmpty).toNat) :
    Accounted root ⟨d, h.calls ++ [c], visits⟩ := by
  have haccepted : c.accepted = true := by rw [Call.accepted, hc]; rfl
  refine ⟨?_, ?_, exact_concat ha.exact ha.replayed hexact, ?_⟩
  · have hcounts : c.counts = !c.edits.isEmpty := by rw [Call.counts, haccepted, Bool.true_and]
    rw [List.filter_append, List.filter_singleton, hcounts, List.length_append, ← ha.version,
      hversion]
    cases c.edits.isEmpty <;> rfl
  · rw [Document.replay_append, ha.replayed]
    exact (Document.replay_accepted haccepted _).trans happlied
  · intro t ht
    rw [List.filterMap_append, List.filterMap_cons, hc] at ht
    obtain rfl : s = t := by simpa [Except.toOption] using ht
    exact hroot

theorem exact_of_error {e : Failure} (h : applied root edits supply = .error e) :
    Call.Exact root ⟨edits, supply, .error e⟩ :=
  ⟨by rw [h]; rfl, fun _ => by rw [h]; rfl⟩

theorem exact_of_ok {s : Session} {rest : Supply} (h : applied root edits supply = .ok (s, rest)) :
    Call.Exact root ⟨edits, supply, .ok s⟩ :=
  ⟨by rw [h]; rfl, fun _ => by rw [h]; rfl⟩

theorem exact_of_session {s : Session} {rest : Supply}
    (h : Session.ofRoot root supply = .ok (s, rest)) : Call.Exact root ⟨[], supply, .ok s⟩ := by
  obtain ⟨new, last, happlied, hroot, hplacements⟩ := Document.applied_nil root supply
  cases h
  refine ⟨?_, fun hne => absurd rfl hne⟩
  rw [happlied]
  exact congrArg Except.ok (Prod.ext hroot.symm hplacements.symm)

theorem Kept.viewed (hk : Kept root h) {s : Session} {rest : Supply}
    (hs : h.document.session supply = .ok (s, rest)) :
    ∀ x ∈ h.visits ++ [(s.root, Visit.mk s [Session.rootId] 0)], Visit.Reachable x.1 x.2 := by
  refine List.forall_mem_append.mpr ⟨hk.visits, List.forall_mem_singleton.mpr ?_⟩
  cases hs
  exact .opened hk.wellFormed hk.isNode rfl

theorem Kept.modify (hk : Kept root h) (hr : ∀ e ∈ edits, e.2.WellFormed) (supply : Supply) :
    Kept root (h.modify edits supply) := by
  have hending := Document.modify_ending h.document edits supply
  rw [History.modify]
  generalize Document.modify edits supply h.document = r at hending ⊢
  cases hending with
  | @viewed s rest hnil hs =>
      subst hnil
      refine ⟨hk.wellFormed, hk.isNode, hk.viewed hs, hk.accounted.imp (·.append _) fun ha => ?_⟩
      obtain ⟨new, last, happlied, hroot, -⟩ := Document.applied_nil h.document.root supply
      have hafter : Call.rootAfter h.document.root ⟨[], supply, .ok s⟩ = .ok h.document.root := by
        rw [Call.rootAfter, happlied, ← hroot]
        rfl
      have hsame : s.root = h.document.root := by
        cases hs
        rfl
      exact ha.accept _ rfl hsame hafter (exact_of_session hs) rfl
  | refused hne happlied =>
      exact ⟨hk.wellFormed, hk.isNode, hk.visits,
        hk.accounted.imp (·.append _) fun ha => ha.refuse rfl (exact_of_error happlied)⟩
  | @replaced s rest hne happlied hlt =>
      obtain ⟨hw, hn, hfresh⟩ := Document.fresh_of_applied hk.wellFormed hk.isNode hr happlied
      refine ⟨hw, hn, ?_, hk.accounted.imp (·.append _) fun ha => ?_⟩
      · exact List.forall_mem_append.mpr ⟨hk.visits,
          List.forall_mem_singleton.mpr (visit_reachable_of_fresh hw hn hfresh)⟩
      have hafter : Call.rootAfter h.document.root ⟨edits, supply, .ok s⟩ = .ok s.root := by
        rw [Call.rootAfter, happlied]
        rfl
      refine ha.accept _ rfl rfl hafter (exact_of_ok happlied) ?_
      rw [List.isEmpty_eq_false_iff.mpr hne, UInt64.toNat_add]
      exact Nat.mod_eq_of_lt hlt
  | overran hne happlied hlast =>
      obtain ⟨hw, hn, -⟩ := Document.fresh_of_applied hk.wellFormed hk.isNode hr happlied
      refine ⟨hw, hn, hk.visits, .inl (hk.accounted.elim (·.append _) fun ha => ?_)⟩
      exact ⟨h.calls, _, [], rfl, ha.version ▸ hlast, rfl⟩

theorem kept_ofRoot (hw : root.WellFormed) (hn : root.isNode = true) :
    Kept root (ofRoot root) where
  wellFormed := hw
  isNode := hn
  visits := List.forall_mem_nil _
  accounted := .inr {
    version := rfl
    replayed := rfl
    exact := fun before c after heq => absurd heq.symm (by simp [ofRoot])
    returned := fun _ hs => nomatch hs }

theorem Kept.step (hk : Kept root h) (hstep : Step h h') : Kept root h' := by
  cases hstep with
  | modify supply hr => exact hk.modify hr supply
  | @view supply rest s hs =>
      have hroot : s.root = h.document.root := by
        cases hs
        rfl
      exact ⟨hk.wellFormed, hk.isNode, hroot ▸ hk.viewed hs,
        hk.accounted.imp_right fun ha => ⟨ha.version, ha.replayed, ha.exact, ha.returned⟩⟩
  | @visit i g v w hv hvisit =>
      have hw : Visit.Reachable g w := (hk.visits _ (List.mem_of_getElem? hv)).step hvisit
      refine ⟨hk.wellFormed, hk.isNode, ?_,
        hk.accounted.imp_right fun ha => ⟨ha.version, ha.replayed, ha.exact, ha.returned⟩⟩
      intro x hx
      rcases List.mem_or_eq_of_mem_set hx with hx | rfl
      · exact hk.visits x hx
      · exact hw

theorem Reachable.kept (h : Reachable root h') : Kept root h' := by
  induction h with
  | opened hw hn => exact kept_ofRoot hw hn
  | step _ hstep ih => exact ih.step hstep

theorem Reachable.versioned (hh : Reachable root h) :
    (∀ edits supply e d, Document.modify edits supply h.document = .error e d →
        d = h.document ∨
          (e = .aborted .versionOverflow ∧ h.document.version.toNat + 1 = UInt64.size)) ∧
      (Overran h.calls ∨
        (∀ before c after, h.calls = before ++ c :: after →
            ∃ g, replay root before = .ok g ∧ c.Exact g) ∧
          h.document.version.toNat = (h.calls.filter Call.counts).length ∧
          replay root h.calls = .ok h.document.root ∧
          ∀ s, (h.calls.filterMap fun c => c.outcome.toOption).getLast? = some s →
            s.root = h.document.root) ∧
      ∀ x ∈ h.visits, x.2.session.root = x.1 ∧ ∀ id, x.2.session.Attached id →
        Session.Derived x.1 x.2.session id (x.2.session.path id).indices := by
  have hk := hh.kept
  refine ⟨?_, hk.accounted.imp_right fun ha => ?_, ?_⟩
  · intro edits supply e d he
    have hending := Document.modify_ending h.document edits supply
    rw [he] at hending
    cases hending with
    | refused hne happlied => exact .inl rfl
    | overran hne happlied hlast => exact .inr ⟨rfl, hlast⟩
  · exact ⟨ha.exact, ha.version, ha.replayed, ha.returned⟩
  · intro x hx
    have hsound := (hk.visits x hx).sound
    exact ⟨hsound.root, fun id ha => hsound.derived ha⟩

end History

namespace Sample

def longer : List (Path × Green) := [(⟨[2, 0]⟩, token 8 .decimalIntegerLiteralToken 3)]

def overlapping : List (Path × Green) :=
  [(⟨[2, 0]⟩, token 9 .decimalIntegerLiteralToken 1), (⟨[2]⟩, token 9 .invalidToken 0)]

def history : History :=
  (((History.ofRoot assignment).modify longer ⟨10⟩).modify overlapping ⟨20⟩).modify [] ⟨30⟩

theorem history_reachable : History.Reachable assignment history := by
  have hlonger : ∀ e ∈ longer, e.2.WellFormed :=
    List.forall_mem_singleton.mpr (token_wellFormed _ _ (by decide))
  have hoverlapping : ∀ e ∈ overlapping, e.2.WellFormed :=
    List.forall_mem_cons.mpr ⟨token_wellFormed _ _ (by decide),
      List.forall_mem_singleton.mpr (token_wellFormed _ _ (by decide))⟩
  have hopened : History.Reachable assignment (History.ofRoot assignment) :=
    .opened assignment_wellFormed rfl
  exact .step (.step (.step hopened (.modify ⟨10⟩ hlonger)) (.modify ⟨20⟩ hoverlapping))
    (.modify ⟨30⟩ (List.forall_mem_nil _))

theorem history_versioned : History.Reachable assignment history ∧
    history.calls.map Document.Call.accepted = [true, false, true] ∧
    history.document.version = 1 ∧ (history.calls.filter Document.Call.counts).length = 1 ∧
    Document.replay assignment history.calls = .ok history.document.root ∧
    ∃ e, Document.modify overlapping ⟨40⟩ history.document = .error e history.document := by
  have hanswers : history.calls.map Document.Call.accepted = [true, false, true] := by
    decide +kernel
  have hversion : history.document.version = 1 := by decide +kernel
  obtain ⟨hkept, haccounted, -⟩ := history_reachable.versioned
  obtain ⟨-, hcount, hreplayed, -⟩ := haccounted.resolve_left fun hover => by
    have hlength := hover.size_le
    rw [← List.length_map Document.Call.accepted, hanswers] at hlength
    exact absurd hlength (by decide)
  refine ⟨history_reachable, hanswers, hversion, ?_, hreplayed, ?_⟩
  · rw [← hcount, hversion]
    rfl
  · have hrun : (match Document.modify overlapping ⟨40⟩ history.document with
        | .ok _ _ => false
        | .error _ _ => true) = true := by decide +kernel
    cases h : Document.modify overlapping ⟨40⟩ history.document with
    | ok r d =>
        rw [h] at hrun
        exact nomatch hrun
    | error e d =>
        rcases hkept overlapping ⟨40⟩ e d h with heq | ⟨-, hlast⟩
        · exact ⟨e, congrArg (EStateM.Result.error e) heq⟩
        · rw [hversion] at hlast
          exact absurd hlast (by decide)

end Sample

end LosslessSyntax
