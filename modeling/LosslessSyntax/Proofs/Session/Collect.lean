import LosslessSyntax.Proofs.Green.Exact
import LosslessSyntax.Proofs.Session.Offset
import LosslessSyntax.Proofs.Session.Trimmed
import LosslessSyntax.Session.Collect

namespace LosslessSyntax

namespace Green

variable {root m : Green} {q : List Nat} {xs ys : List Entry}

def locatedAt (root : Green) (x : Entry) : List LocatedDiagnostic :=
  x.2.diagnostics.map fun d => ⟨root.trimmedAt x, d⟩

def collected (root : Green) (xs : List Entry) : List LocatedDiagnostic :=
  xs.flatMap root.locatedAt

theorem collected_cons (root : Green) (x : Entry) (xs : List Entry) :
    root.collected (x :: xs) = root.locatedAt x ++ root.collected xs := rfl

theorem collected_append (root : Green) (xs ys : List Entry) :
    root.collected (xs ++ ys) = root.collected xs ++ root.collected ys :=
  List.flatMap_append

theorem collected_eq_nil_iff (hm : m.WellFormed) :
    root.collected (m.listing q) = [] ↔ m.containsDiagnostics = false := by
  rw [collected, List.flatMap_eq_nil_iff, Bool.eq_false_iff, ne_eq, hm.containsDiagnostics_iff]
  constructor
  · rintro hnone ⟨is, g, hg, hds⟩
    have hown := hnone (q ++ is, g) (mem_listing_iff.mpr ⟨is, rfl, hg⟩)
    exact hds (List.map_eq_nil_iff.mp hown)
  · rintro hnone ⟨p, g⟩ hx
    obtain ⟨is, -, hg⟩ := mem_listing_iff.mp hx
    by_contra hds
    exact hnone ⟨is, g, hg, mt List.map_eq_nil_iff.mpr hds⟩

theorem isToken_of_isNode_eq_false (h : m.isNode = false) : m.isToken = true := by
  cases m with
  | token stamp shape ds => rfl
  | node stamp kind summary cs ds => exact absurd h.symm Bool.false_ne_true

end Green

namespace Session

variable {s t u : Session} {start id cid i k k' : Nat} {q r top : List Nat} {m : Green}
  {cs : List Green} {w w' w'' : Walk} {e last : Event} {xs ys : List Green.Entry}
  {found found' found'' : List LocatedDiagnostic} {skip : Bool} {next : Option Nat}

theorem yields_locateOwn (hs : s.Grounded) (h : s.At q id) (hm : s.root.descend? q = some m) :
    Nav.Yields s (locateOwn id) fun _ own => own = s.root.locatedAt (q, m) := by
  obtain ⟨p, hp, rfl, -⟩ := hs.held h hm
  refine .of_ok (Nav.placement_eq hp) ?_
  refine (yields_trimmedRange hs h hm).bind fun range t hst hrange => ?_
  subst hrange
  exact .pure (hs.explored hst) rfl

section RunsTo

def RunsTo (k : Nat) (s : Session) (w : Walk) (found : List LocatedDiagnostic) (t : Session)
    (w' : Walk) (found' : List LocatedDiagnostic) : Prop :=
  ∀ limit, Walk.run Walk.next collectVisit (k + limit) w found s =
    Walk.run Walk.next collectVisit limit w' found' t

theorem RunsTo.refl (s : Session) (w : Walk) (found : List LocatedDiagnostic) :
    RunsTo 0 s w found s w found := by
  intro limit
  rw [Nat.zero_add]

theorem RunsTo.trans (h : RunsTo k s w found t w' found')
    (h' : RunsTo k' t w' found' u w'' found'') : RunsTo (k + k') s w found u w'' found'' := by
  intro limit
  rw [Nat.add_assoc, h, h']

theorem RunsTo.event (hnext : w.next s = .ok (some e, w') t)
    (hvisit : collectVisit e found t = .ok (found', skip) u) :
    RunsTo 1 s w found u (if skip then w'.skipSubtree else w') found' := by
  intro limit
  rw [Nat.add_comm, Walk.run, Nav.bind_ok hnext]
  dsimp only
  rw [Nav.bind_ok hvisit]

def Collects (n start : Nat) (s : Session) (w : Walk) (found : List LocatedDiagnostic)
    (last : Event) (xs : List Green.Entry) : Prop :=
  ∃ k t w', k ≤ n ∧ RunsTo k s w found t w' (found ++ s.root.collected xs) ∧ Explored s t ∧
    w'.Due t start last

theorem Collects.nothing (hs : s.Grounded) (hdue : w.Due s start last)
    (found : List LocatedDiagnostic) : Collects 0 start s w found last [] := by
  refine ⟨0, s, w, Nat.le_refl 0, ?_, .refl hs.coherent, hdue⟩
  rw [Green.collected, List.flatMap_nil, List.append_nil]
  exact .refl s w found

theorem Collects.after {n : Nat} (hruns : RunsTo k s w found t w' (found ++ s.root.collected xs))
    (hst : Explored s t) (h : Collects n start t w' (found ++ s.root.collected xs) last ys) :
    Collects (k + n) start s w found last (xs ++ ys) := by
  obtain ⟨k', u, w'', hk', hruns', htu, hlast⟩ := h
  refine ⟨k + k', u, w'', Nat.add_le_add_left hk' k, hruns.trans ?_, hst.trans htu, hlast⟩
  rwa [hst.grown.root, List.append_assoc, ← Green.collected_append] at hruns'

theorem Collects.mono {n n' : Nat} (h : Collects n start s w found last xs) (hle : n ≤ n') :
    Collects n' start s w found last xs := by
  obtain ⟨k, t, w', hk, hrest⟩ := h
  exact ⟨k, t, w', Nat.le_trans hk hle, hrest⟩

end RunsTo

def Collectible (start : Nat) (top : List Nat) (m : Green) : Prop :=
  ∀ {s w q id} (found : List LocatedDiagnostic), s.Grounded → ¬ s.Crowded → s.At top start →
    top <+: q → s.At q id → s.root.descend? q = some m → w.Due s start (.enter id) →
    Collects (2 * m.size - 1) start s w found (.leave id) (m.listing q)

theorem At.under (hs : s.Coherent) (htop : s.At top start) (h : s.At (top ++ r) id) :
    s.Under start r id :=
  (at_iff_under.mp h).of_append hs (at_iff_under.mp htop)

section Events

variable (hs : s.Grounded) (hfree : ¬ s.Crowded)
include hs hfree

theorem runsTo_leave (htop : s.At top start) (hbelow : top <+: q) (h : s.At q id)
    (hcid : s.At (q ++ [i]) cid) (hm : s.root.descend? q = some m)
    (hdue : w.Due s start (.leave cid)) (found : List LocatedDiagnostic) :
    ∃ next t, RunsTo 1 s w found t ⟨start, some (.enterOr next id), false⟩ found ∧ Explored s t ∧
      t.Found ((m.child? (i + 1)).map fun c => (q ++ [i + 1], c)) next := by
  obtain ⟨r, rfl⟩ := hbelow
  obtain ⟨p, hp, -⟩ := htop.holds hs.coherent hs.wellFormed
  obtain ⟨next, t, hnext, hst, hfound⟩ := (Nav.Yields.findChild hs h hm (i + 1)).ok hfree
  rw [List.append_assoc] at hcid
  have hleave := following_leave_under hs.coherent hp (htop.under hs.coherent h)
    (htop.under hs.coherent hcid) hnext hst.grown
  exact ⟨next, t, .event (hdue.next hleave) rfl, hst, hfound⟩

theorem entered_next (h : s.At q id) (hm : s.root.descend? q = some m)
    (hdue : w.Due s start (.enter id)) :
    ∃ next t, w.next s = .ok (some (.enter id), ⟨start, some (.enterOr next id), false⟩) t ∧
      Explored s t ∧ t.Found ((m.child? 0).map fun c => (q ++ [0], c)) next := by
  obtain ⟨p, hp, -⟩ := hs.held h hm
  obtain ⟨next, t, hnext, hst, hfound⟩ := (Nav.Yields.findChild hs h hm 0).ok hfree
  exact ⟨next, t, hdue.next (following_enter start hs.coherent hp hnext), hst, hfound⟩

theorem runsTo_enter (h : s.At q id) (hm : s.root.descend? q = some m)
    (hdue : w.Due s start (.enter id)) (hsome : m.containsDiagnostics = true)
    (found : List LocatedDiagnostic) :
    ∃ next t, RunsTo 1 s w found t ⟨start, some (.enterOr next id), false⟩
        (found ++ s.root.collected [(q, m)]) ∧ Explored s t ∧
      t.Found ((m.child? 0).map fun c => (q ++ [0], c)) next := by
  obtain ⟨next, t, hnext, hst, hfound⟩ := entered_next hs hfree h hm hdue
  have ht := hs.explored hst
  have hat := h.mono hst.grown
  have hm' := hst.grown.root ▸ hm
  obtain ⟨own, u, hown, htu, rfl⟩ :=
    (yields_locateOwn ht hat hm').ok (mt hst.crowded_iff.mp hfree)
  obtain ⟨p, hp, rfl, -⟩ := ht.held hat hm'
  have hvisit : collectVisit (.enter id) found t =
      .ok (found ++ t.root.locatedAt (q, p.green), false) u := by
    rw [collectVisit, Nav.bind_ok (Nav.placement_eq hp), if_pos hsome, Nav.bind_ok hown]
    rfl
  rw [hst.grown.root] at hvisit
  rw [Green.collected, List.flatMap_singleton]
  exact ⟨next, u, .event hnext hvisit, hst.trans htu, hfound.mono htu.grown⟩

theorem collects_nothing (h : s.At q id) (hm : s.root.descend? q = some m)
    (hdue : w.Due s start (.enter id)) (hnone : m.containsDiagnostics = false)
    (found : List LocatedDiagnostic) :
    Collects 1 start s w found (.leave id) (m.listing q) := by
  obtain ⟨next, t, hnext, hst, hfound⟩ := entered_next hs hfree h hm hdue
  have ht := hs.explored hst
  have hat := h.mono hst.grown
  obtain ⟨p, hp, rfl, -⟩ := ht.held hat (hst.grown.root ▸ hm)
  have hvisit : collectVisit (.enter id) found t = .ok (found, true) t := by
    rw [collectVisit, Nav.bind_ok (Nav.placement_eq hp), if_neg (Bool.eq_false_iff.mp hnone)]
    rfl
  refine ⟨1, t, .skipSubtree ⟨start, some (.enterOr next id), false⟩, Nat.le_refl 1, ?_, hst, ?_⟩
  · rw [(Green.collected_eq_nil_iff (hs.wellFormed.of_descend? hm)).mpr hnone, List.append_nil]
    exact .event hnext hvisit
  · refine Walk.due_skipSubtree start fun cid hcid => ?_
    obtain rfl := Option.mem_def.mp hcid
    cases hc : p.green.child? 0 with
    | none =>
        rw [hc] at hfound
        exact nomatch hfound
    | some c =>
        rw [hc] at hfound
        cases hfound with
        | some hcid =>
            obtain ⟨a, pc, ha, hpc, hparent, -⟩ := hcid.of_concat ht.coherent
            exact ⟨pc, hpc, ha.id_unique ht.coherent hat ▸ hparent⟩

end Events

theorem collects_among (ih : ∀ c ∈ cs, Collectible start top c) (hs : s.Grounded)
    (hfree : ¬ s.Crowded) (htop : s.At top start) (hbelow : top <+: q) (h : s.At q id)
    (hm : s.root.descend? q = some m) (hchildren : m.ChildrenFrom i cs)
    (hnext : s.Found ((m.child? i).map fun c => (q ++ [i], c)) next)
    (hdue : w.Due s start (.enterOr next id)) (found : List LocatedDiagnostic) :
    Collects (2 * Green.sizes cs) start s w found (.leave id) (Green.listingAmong q i cs) := by
  induction cs generalizing s w found i next with
  | nil =>
      rw [hchildren.none] at hnext
      cases hnext
      exact .nothing hs hdue found
  | cons c cs ihcs =>
      have hc := hchildren.head
      rw [hc] at hnext
      cases hnext with
      | @some _ cid hcid =>
          have hpath := (Green.descend?_concat hm i).trans hc
          obtain ⟨k, t, w', hk, hruns, hst, hleft⟩ := ih c List.mem_cons_self found hs hfree htop
            (hbelow.trans (List.prefix_append q [i])) hcid hpath hdue
          have ht := hs.explored hst
          have hfree' := mt hst.crowded_iff.mp hfree
          obtain ⟨next, u, hleave, htu, hnext⟩ := runsTo_leave ht hfree' (htop.mono hst.grown)
            hbelow (h.mono hst.grown) (hcid.mono hst.grown) (hst.grown.root ▸ hm) hleft
            (found ++ s.root.collected (c.listing (q ++ [i])))
          have hsu := hst.trans htu
          have hrest := ihcs (fun b hb => ih b (List.mem_cons_of_mem c hb)) (hs.explored hsu)
            (mt hsu.crowded_iff.mp hfree) (htop.mono hsu.grown) (h.mono hsu.grown)
            (hsu.grown.root ▸ hm) hchildren.tail hnext (Walk.due_of_upcoming u start _)
            (found ++ s.root.collected (c.listing (q ++ [i])))
          have hpos := c.size_pos
          refine (Collects.after (hruns.trans hleave) hsu hrest).mono ?_
          rw [Green.sizes]
          omega

theorem collectible_of_children (m : Green) (ih : ∀ c ∈ m.children, Collectible start top c) :
    Collectible start top m := by
  intro s w q id found hs hfree htop hbelow h hm hdue
  have hsize := m.size_eq
  cases hsome : m.containsDiagnostics with
  | false => exact (collects_nothing hs hfree h hm hdue hsome found).mono (by omega)
  | true =>
      obtain ⟨next, t, hruns, hst, hnext⟩ := runsTo_enter hs hfree h hm hdue hsome found
      have hrest := collects_among ih (hs.explored hst) (mt hst.crowded_iff.mp hfree)
        (htop.mono hst.grown) hbelow (h.mono hst.grown) (hst.grown.root ▸ hm)
        (Green.childrenFrom_zero m) hnext (Walk.due_of_upcoming t start _)
        (found ++ s.root.collected [(q, m)])
      rw [Green.listing_eq]
      exact (Collects.after hruns hst hrest).mono (by omega)

theorem collectible (start : Nat) (top : List Nat) (m : Green) : Collectible start top m := by
  induction m with
  | token stamp shape ds =>
      exact collectible_of_children _ fun c hc => absurd hc List.not_mem_nil
  | node stamp kind summary cs ds ih =>
      exact collectible_of_children (.node stamp kind summary cs ds) ih

theorem run_of_leave (hdue : w.Due s start (.leave start)) (found : List LocatedDiagnostic)
    (limit : Nat) : Walk.run Walk.next collectVisit (limit + 1) w found s = .ok found s := by
  have hlast := hdue.next (following_leave_start s start)
  have hleave : collectVisit (.leave start) found s = .ok (found, false) s := rfl
  rw [Walk.run, Nav.bind_ok hlast]
  dsimp only
  rw [Nav.bind_ok hleave]
  cases limit with
  | zero => rfl
  | succ limit =>
      rw [Walk.run, Nav.bind_ok (Walk.next_of_over _ rfl s)]
      rfl

section Whole

variable (hs : s.Grounded) (hfree : ¬ s.Crowded) (h : s.At q id)
  (hm : s.root.descend? q = some m)
include hs hfree h hm

theorem walk_answers : s.Answers (walk (Walk.ofNode id) collectVisit [])
    (s.root.collected (m.listing q)) := by
  obtain ⟨k, t, w, hk, hruns, hst, hdue⟩ := collectible id q m [] hs hfree h List.prefix_rfl h hm
    (Walk.due_of_upcoming s id (.enter id))
  obtain ⟨p, hp, rfl, -⟩ := hs.held h hm
  have hbound := two_mul_size_lt_bound hs.coherent hp
  obtain ⟨limit, hlimit⟩ : ∃ limit, Walk.bound s id = k + (limit + 1) :=
    ⟨Walk.bound s id - k - 1, by omega⟩
  have hget : (get : Nav Session) s = .ok s s := rfl
  refine ⟨t, ?_, hst⟩
  rw [walk, Nav.bind_ok hget, Walk.ofNode, hlimit, hruns, List.nil_append]
  exact run_of_leave hdue _ limit

theorem diagnostics_answers : s.Answers (diagnostics id) (s.root.collected (m.listing q)) := by
  have hwalk := walk_answers hs hfree h hm
  obtain ⟨p, hp, rfl, -⟩ := hs.held h hm
  have hrun : diagnostics id s = _ := Nav.bind_ok (Nav.placement_eq hp)
  rw [Answers, hrun]
  cases hnode : p.isNode with
  | true =>
      rw [if_pos rfl]
      cases hsome : p.green.containsDiagnostics with
      | true => exact hwalk
      | false =>
          rw [(Green.collected_eq_nil_iff (hs.wellFormed.of_descend? hm)).mpr hsome]
          exact ⟨s, rfl, .refl hs.coherent⟩
  | false =>
      rw [if_neg Bool.false_ne_true]
      have htoken := Green.isToken_of_isNode_eq_false hnode
      obtain ⟨own, t, hown, hst, rfl⟩ := (yields_locateOwn hs h hm).ok hfree
      rw [Green.listing_of_isToken q htoken, Green.collected, List.flatMap_singleton]
      exact ⟨t, hown, hst⟩

end Whole

section Unpruned

def locateAll : List Nat → Nav (List LocatedDiagnostic)
  | [] => pure []
  | id :: ids => do
      let own ← locateOwn id
      let rest ← locateAll ids
      pure (own ++ rest)

def diagnosticsOfAll (id : Nat) : Nav (List LocatedDiagnostic) := do
  let ids ← descendantsWithTokens id
  locateAll ids

theorem yields_locateAll {ids : List Nat} (hs : s.Grounded) (h : s.Places ids xs)
    (hxs : ∀ x ∈ xs, s.root.descend? x.1 = some x.2) :
    Nav.Yields s (locateAll ids) fun _ ds => ds = s.root.collected xs := by
  induction ids generalizing s xs with
  | nil =>
      cases h
      exact .pure hs rfl
  | cons id ids ih =>
      cases h with
      | @cons _ x _ xs hat hrest =>
          obtain ⟨hx, hxs⟩ := List.forall_mem_cons.mp hxs
          refine (yields_locateOwn hs hat hx).bind fun own t hst hown => ?_
          have hroot := hst.grown.root
          have hlater := ih (hs.explored hst) (Places.mono hrest hst.grown) (hroot ▸ hxs)
          refine hlater.bind fun rest u htu hds => ?_
          refine .pure ((hs.explored hst).explored htu) ?_
          rw [hown, hds, hroot]
          rfl

theorem descendantsWithTokens_eq (hs : s.Reached)
    (hroom : s.root.size + s.strays ≤ Arena.capacity) (h : s.At q id)
    (hm : s.root.descend? q = some m) :
    ∃ ids t, descendantsWithTokens id s = .ok ids t ∧ Explored s t ∧
      t.Places ids (m.listing q) := by
  obtain ⟨ids, t, hrun, hst, hlist⟩ := (Confined.of_fits hs hroom).gather h hm (lists_paths hm)
    fun _ => true
  have hids : descendantsWithTokens id s = _ := Nav.bind_ok hrun
  rw [List.reverse_reverse] at hids
  rw [List.filter_true] at hlist
  exact ⟨ids, t, hids, hst, hlist⟩

end Unpruned

theorem Reached.diagnostics_unpruned (hs : s.Reached)
    (hroom : s.root.size + s.strays ≤ Arena.capacity) (h : s.At q id)
    (hm : s.root.descend? q = some m) :
    ∃ ds, s.Answers (diagnostics id) ds ∧ s.Answers (diagnosticsOfAll id) ds ∧
      ds = s.root.collected (m.listing q) ∧ (ds = [] ↔ m.containsDiagnostics = false) := by
  have hground := hs.grounded
  have hfree : ¬ s.Crowded := Nat.not_lt.mpr hroom
  refine ⟨_, diagnostics_answers hground hfree h hm, ?_, rfl,
    Green.collected_eq_nil_iff (hs.root_wellFormed.of_descend? hm)⟩
  obtain ⟨ids, t, hids, hst, hplaces⟩ := descendantsWithTokens_eq hs hroom h hm
  have hxs : ∀ x ∈ m.listing q, t.root.descend? x.1 = some x.2 := by
    rintro ⟨p, g⟩ hx
    obtain ⟨is, rfl, hg⟩ := Green.mem_listing_iff.mp hx
    rw [hst.grown.root, Green.descend?_append, hm, Option.bind_some, hg]
  obtain ⟨ds, u, hds, htu, rfl⟩ := (yields_locateAll (hground.explored hst) hplaces hxs).ok
    (mt hst.crowded_iff.mp hfree)
  rw [hst.grown.root] at hds
  exact ⟨u, (Nav.bind_ok hids).trans hds, hst.trans htu⟩

end Session

namespace Sample

theorem lacking_diagnosed : lackingSession.Reached ∧
    lackingSession.root.size + lackingSession.strays ≤ Arena.capacity ∧
    lackingSession.At [] Session.rootId ∧ lackingSession.root.descend? [] = some lacking ∧
    lackingSession.Answers (Session.diagnostics Session.rootId)
      [⟨⟨1, 1, Nat.le_refl 1⟩, expected "an equal sign"⟩] := by
  have hroot : lackingSession.root.descend? [] = some lacking := Green.descend?_nil _
  obtain ⟨ds, hds, -, rfl, -⟩ :=
    lackingSession_reached.diagnostics_unpruned lackingSession_room .root hroot
  exact ⟨lackingSession_reached, lackingSession_room, .root, hroot, hds⟩

end Sample

end LosslessSyntax
