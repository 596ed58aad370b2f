import LosslessSyntax.Proofs.Session.Equality
import LosslessSyntax.Proofs.Session.Finding
import LosslessSyntax.Proofs.Workbench.Sharing

namespace LosslessSyntax

namespace Session

def DrawnFrom (s : Session) (supply rest : Supply) : Prop :=
  s.stamp ∈ Set.Ico supply.next rest.next

variable {s t new : Session} {supply next rest : Supply} {g : Green} {edits : List Edit}

theorem DrawnFrom.of_le (h : s.DrawnFrom next rest) (hle : supply.next ≤ next.next) :
    s.DrawnFrom supply rest :=
  ⟨Nat.le_trans hle h.1, h.2⟩

theorem drawnFrom_of_ofRoot (h : ofRoot g supply = .ok (s, rest)) : s.DrawnFrom supply rest := by
  cases h
  exact ⟨Nat.le_refl _, Nat.lt_succ_self _⟩

theorem drawnFrom_of_apply (hs : s.Reached)
    (h : Session.apply edits supply s = .ok (new, rest) t) : new.DrawnFrom supply rest := by
  obtain ⟨-, hsettled, next, hrenew, ho⟩ := renew_of_apply hs (Nav.answer_of_ok h)
  exact (drawnFrom_of_ofRoot ho).of_le (Splice.renewed_of_renew hsettled hrenew).next_le

theorem stamp_after_apply (hs : s.Coherent) (edits : List Edit) (supply : Supply) :
    (Nav.after (Session.apply edits supply) s).stamp = s.stamp :=
  (hs.applied edits supply).2.stamp

end Session

theorem Document.drawnFrom_of_modify {d d' : Document} {s : Session} {supply rest : Supply}
    {edits : List (Path × Green)} (hd : d.Sound supply)
    (h : Document.modify edits supply d = .ok (s, rest) d') : s.DrawnFrom supply rest := by
  obtain ⟨opened, next, hopened, h⟩ := modify_eq_ok h
  have hdrawn := Session.drawnFrom_of_ofRoot hopened
  rcases h with ⟨rfl, rfl, -⟩ | ⟨t, happly, -⟩
  · exact hdrawn
  · have hreached := (Session.sound_of_ofRoot hd.root hd.isNode hopened).1.reached
    exact (Session.drawnFrom_of_apply hreached happly).of_le
      (Nat.le_of_lt (Nat.lt_of_le_of_lt hdrawn.1 hdrawn.2))

namespace Workbench

variable {w w' : Workbench} {rest : Supply} {s t : Session}

def stamps (w : Workbench) : List Nat := w.sessions.map Session.stamp

structure Apart (w : Workbench) : Prop where
  before : ∀ n ∈ w.stamps, n < w.supply.next
  nodup : w.stamps.Nodup

namespace Apart

theorem empty (supply : Supply) : (Workbench.empty supply).Apart :=
  ⟨List.forall_mem_nil _, List.nodup_nil⟩

theorem of_eq (h : w.Apart) (hstamps : w'.stamps = w.stamps)
    (hle : w.supply.next ≤ w'.supply.next) : w'.Apart :=
  ⟨fun n hn => Nat.lt_of_lt_of_le (h.before n (hstamps ▸ hn)) hle, hstamps ▸ h.nodup⟩

theorem of_drawn (h : w.Apart) (hstamps : w'.stamps = s.stamp :: w.stamps)
    (hdrawn : s.DrawnFrom w.supply w'.supply) : w'.Apart := by
  obtain ⟨hlow, hhigh⟩ := hdrawn
  refine ⟨?_, ?_⟩
  · rw [hstamps, List.forall_mem_cons]
    exact ⟨hhigh, fun n hn => Nat.lt_trans (h.before n hn) (Nat.lt_of_le_of_lt hlow hhigh)⟩
  · rw [hstamps, List.nodup_cons]
    exact ⟨fun hmem => Nat.not_lt.mpr hlow (h.before _ hmem), h.nodup⟩

theorem stamps_putSession {i : Nat} (hs : w.sessions[i]? = some s) (h : t.stamp = s.stamp) :
    (w.putSession i t).stamps = w.stamps := by
  have hi : w.stamps[i]? = some t.stamp := by rw [stamps, List.getElem?_map, hs, h, Option.map_some]
  obtain ⟨hlt, hget⟩ := List.getElem?_eq_some_iff.mp hi
  rw [stamps, putSession, List.map_set, ← hget]
  exact List.set_getElem_self hlt

theorem step (h : w.Apart) (hw : w.Sound) (hstep : Step w w') : w'.Apart := by
  have hsession := fun {i : Nat} {s : Session} (hs : w.sessions[i]? = some s) =>
    (hw.sessions s (List.mem_of_getElem? hs)).reached
  cases hstep with
  | create hg => exact h.of_eq rfl (hg.made hw.elements).next_le
  | part hg hc => exact h.of_eq rfl (Nat.le_refl _)
  | newBuilder internsTokens depthHint => exact h.of_eq rfl (Nat.le_refl _)
  | callBuilder hb hcall =>
      exact h.of_eq rfl ((hw.builders _ (List.mem_of_getElem? hb)).call hw.elements hcall).next_le
  | openSession hg hn ho => exact h.of_drawn rfl (Session.drawnFrom_of_ofRoot ho)
  | move hs hmove =>
      have hstamp := ((hsession hs).coherent.move hmove).2.stamp
      exact h.of_eq (stamps_putSession hs hstamp) (Nat.le_refl _)
  | handle hs hp => exact h.of_eq rfl (Nat.le_refl _)
  | @apply i s t new edits rest hs hr happly =>
      have hstamp := Session.stamp_after_apply (hsession hs).coherent edits w.supply
      rw [Nav.after_of_ok happly] at hstamp
      exact h.of_drawn (congrArg (new.stamp :: ·) (stamps_putSession hs hstamp))
        (Session.drawnFrom_of_apply (hsession hs) happly)
  | @refuse i s t edits f hs hr happly =>
      have hstamp := Session.stamp_after_apply (hsession hs).coherent edits w.supply
      rw [Nav.after_of_error happly] at hstamp
      exact h.of_eq (stamps_putSession hs hstamp) (Nat.le_refl _)
  | newDocument hg hn => exact h.of_eq rfl (Nat.le_refl _)
  | viewDocument hd ho => exact h.of_drawn rfl (Session.drawnFrom_of_ofRoot ho)
  | modify hd hr hmodify =>
      have hd := hw.documents _ (List.mem_of_getElem? hd)
      exact h.of_drawn rfl (Document.drawnFrom_of_modify hd hmodify)

theorem eq_of_stamp_eq (h : w.Apart) (hs : s ∈ w.sessions) (ht : t ∈ w.sessions)
    (heq : s.stamp = t.stamp) : s = t :=
  List.inj_on_of_nodup_map h.nodup hs ht heq

end Apart

theorem Reachable.apart (h : w.Reachable) : w.Apart := by
  induction h with
  | empty supply => exact .empty supply
  | step hw hstep ih => exact ih.step hw.sound hstep

structure Handle (w : Workbench) where
  session : Session
  id : Nat
  placement : Placement
  mem : session ∈ w.sessions
  placed : session.placements[id]? = some placement

namespace Handle

def equal (x y : w.Handle) : Bool := x.session.equivalent x.id y.session y.id

def equalElement (x y : w.Handle) : Bool := x.session.equalElements x.id y.session y.id

def hashKey (x : w.Handle) : Option (Kind × Nat) := x.session.hashKey x.id

def depth (x : w.Handle) : Nat := (x.session.path x.id).depth

variable {x y z : w.Handle} {q q' : List Nat}

theorem coherent (h : w.Reachable) (x : w.Handle) : x.session.Coherent :=
  (h.sound.sessions _ x.mem).reached.coherent

theorem root_wellFormed (h : w.Reachable) (x : w.Handle) : x.session.root.WellFormed :=
  (h.sound.sessions _ x.mem).reached.root_wellFormed

theorem eq_of_same (h : w.Reachable) (hsame : x.placement.green.same y.placement.green = true) :
    x.placement.green = y.placement.green := by
  obtain ⟨r, hr⟩ := h.listed
  rw [Green.same, Bool.and_eq_true, beq_iff_eq, beq_iff_eq] at hsame
  exact ((hr.sessions _ x.mem).placed x.placed).eq_of_stamp_eq
    ((hr.sessions _ y.mem).placed y.placed) hsame.2

theorem root_eq_of_same (h : w.Reachable)
    (hsame : x.session.root.same y.session.root = true) : x.session.root = y.session.root := by
  obtain ⟨r, hr⟩ := h.listed
  rw [Green.same, Bool.and_eq_true, beq_iff_eq, beq_iff_eq] at hsame
  exact (hr.sessions _ x.mem).root.eq_of_stamp_eq (hr.sessions _ y.mem).root hsame.2

theorem exists_chain (h : w.Reachable) (x : w.Handle) :
    ∃ ps, x.session.Chain (some x.id) (x.placement :: ps) :=
  Session.exists_chain (x.coherent h) x.placed

theorem equal_iff (h : w.Reachable) {ps rs : List Placement}
    (hps : x.session.Chain (some x.id) (x.placement :: ps))
    (hrs : y.session.Chain (some y.id) (y.placement :: rs)) :
    x.equal y = true ↔
      List.Forall₂ Session.Matching (x.placement :: ps) (y.placement :: rs) :=
  Session.equivalent_iff_forall₂ (x.coherent h) (y.coherent h)
    (h.apart.eq_of_stamp_eq x.mem y.mem) hps hrs

theorem equal_refl (x : w.Handle) : x.equal x = true := by
  rw [equal, Session.equivalent, BEq.rfl, BEq.rfl, Bool.and_self, if_pos rfl]

theorem equal_symm (h : w.Reachable) (hxy : x.equal y = true) : y.equal x = true := by
  obtain ⟨ps, hps⟩ := x.exists_chain h
  obtain ⟨rs, hrs⟩ := y.exists_chain h
  have hall := (equal_iff h hps hrs).mp hxy
  exact (equal_iff h hrs hps).mpr (List.Forall₂.flip (hall.imp fun _ _ hmatch => hmatch.symm))

theorem equal_trans (h : w.Reachable) (hxy : x.equal y = true) (hyz : y.equal z = true) :
    x.equal z = true := by
  obtain ⟨ps, hps⟩ := x.exists_chain h
  obtain ⟨rs, hrs⟩ := y.exists_chain h
  obtain ⟨us, hus⟩ := z.exists_chain h
  exact (equal_iff h hps hus).mpr
    (Session.forall₂_matching_trans ((equal_iff h hps hrs).mp hxy) ((equal_iff h hrs hus).mp hyz))

theorem equivalence (h : w.Reachable) : Equivalence fun x y : w.Handle => x.equal y = true :=
  ⟨equal_refl, equal_symm h, equal_trans h⟩

theorem agree_of_equal (h : w.Reachable) (hxy : x.equal y = true) :
    x.placement.green = y.placement.green ∧ x.placement.offset = y.placement.offset ∧
      x.depth = y.depth := by
  obtain ⟨ps, hps⟩ := x.exists_chain h
  obtain ⟨rs, hrs⟩ := y.exists_chain h
  have hall := (equal_iff h hps hrs).mp hxy
  obtain ⟨hsame, hoffset⟩ := Session.matching_of_forall₂ hall
  have hlength := hall.length_eq
  rw [hps.length_eq (x.coherent h), hrs.length_eq (y.coherent h)] at hlength
  exact ⟨eq_of_same h hsame, hoffset, Nat.succ.inj hlength⟩

theorem equalElement_eq (h : w.Reachable) (x y : w.Handle) : x.equalElement y = x.equal y := by
  cases hxy : x.equal y with
  | false => exact Bool.and_eq_false_imp.mpr fun _ => hxy
  | true =>
      have hgreen := (agree_of_equal h hxy).1
      have hnode : x.placement.isNode = y.placement.isNode := congrArg Green.isNode hgreen
      refine (Bool.and_eq_true _ _).mpr ⟨?_, hxy⟩
      rw [x.placed, y.placed, Option.map_some, Option.map_some, hnode]
      exact BEq.rfl

theorem hashKey_eq (h : w.Reachable) (hxy : x.equal y = true) :
    x.placement.kind = y.placement.kind ∧ x.hashKey = y.hashKey := by
  obtain ⟨hgreen, hoffset, -⟩ := agree_of_equal h hxy
  have hkind : x.placement.kind = y.placement.kind := congrArg Green.kind hgreen
  refine ⟨hkind, ?_⟩
  rw [hashKey, hashKey, Session.hashKey, Session.hashKey, x.placed, y.placed, Option.map_some,
    Option.map_some, hkind, hoffset]

theorem equal_of_path_eq (h : w.Reachable) (hsame : x.session.root.same y.session.root = true)
    (hx : x.session.At q x.id) (hy : y.session.At q y.id) : x.equal y = true := by
  obtain ⟨ps, hps⟩ := x.exists_chain h
  obtain ⟨rs, hrs⟩ := y.exists_chain h
  exact (equal_iff h hps hrs).mpr (Session.forall₂_of_at (x.coherent h) (y.coherent h)
    (x.root_wellFormed h) (root_eq_of_same h hsame) hx hy hps hrs)

theorem path_eq_of_equal (h : w.Reachable) (hsame : x.session.root.same y.session.root = true)
    (htell : x.session.root.TellsApart) (hx : x.session.At q x.id) (hy : y.session.At q' y.id)
    (hxy : x.equal y = true) : q = q' := by
  obtain ⟨ps, hps⟩ := x.exists_chain h
  obtain ⟨rs, hrs⟩ := y.exists_chain h
  exact Session.path_eq_of_forall₂ (x.coherent h) (y.coherent h) (x.root_wellFormed h)
    (root_eq_of_same h hsame) htell hx hy hps hrs ((equal_iff h hps hrs).mp hxy)

end Handle

theorem Reachable.equality_sound (h : w.Reachable) :
    Equivalence (fun x y : w.Handle => x.equal y = true) ∧
      ∀ x y : w.Handle,
        Session.Compared x.session y.session (some x.id) (some y.id) (x.equal y) ∧
        x.equalElement y = x.equal y ∧
        (∃ ps rs, x.session.Chain (some x.id) ps ∧ y.session.Chain (some y.id) rs ∧
          (x.equal y = true ↔ List.Forall₂ Session.Matching ps rs)) ∧
        (x.equal y = true →
          x.placement.kind = y.placement.kind ∧ x.placement.offset = y.placement.offset ∧
            x.hashKey = y.hashKey ∧ x.depth = y.depth) ∧
        (x.session.root.same y.session.root = true → ∀ q q',
          x.session.At q x.id → y.session.At q' y.id →
            (q = q' → x.equal y = true) ∧
            (x.session.root.TellsApart → x.equal y = true → q = q')) := by
  refine ⟨Handle.equivalence h, fun x y => ⟨?_, Handle.equalElement_eq h x y, ?_, ?_, ?_⟩⟩
  · exact Session.compared_equivalent (x.coherent h) (y.coherent h) x.placed y.placed
  · obtain ⟨ps, hps⟩ := x.exists_chain h
    obtain ⟨rs, hrs⟩ := y.exists_chain h
    exact ⟨_, _, hps, hrs, Handle.equal_iff h hps hrs⟩
  · intro hxy
    obtain ⟨-, hoffset, hdepth⟩ := Handle.agree_of_equal h hxy
    obtain ⟨hkind, hhash⟩ := Handle.hashKey_eq h hxy
    exact ⟨hkind, hoffset, hhash, hdepth⟩
  · intro hsame q q' hx hy
    refine ⟨?_, fun htell hxy => Handle.path_eq_of_equal h hsame htell hx hy hxy⟩
    rintro rfl
    exact Handle.equal_of_path_eq h hsame hx hy

end Workbench

namespace Sample

def untouched (stamp : Nat) : Session where
  stamp
  root := statement
  placements := #[Placement.make statement 0 none 0]

def named (stamp : Nat) : Session :=
  (untouched stamp).withChild (token 0 .identifierToken 3) 0 Session.rootId 0

theorem after_child_untouched (stamp : Nat) :
    Nav.after (Session.child Session.rootId 0) (untouched stamp) = named stamp :=
  have hroom : 1 < Arena.capacity := by decide
  have hchild : Session.child 0 0 (untouched stamp) = _ :=
    Session.child_of_room rfl rfl rfl (Nat.zero_le _) hroom
  Nav.after_of_ok hchild

def twice : Workbench := { bench with supply := ⟨5⟩, sessions := [named 4, named 3] }

theorem twice_reachable : twice.Reachable := by
  have hstatement : statement ∈ bench.elements := by simp [bench]
  have hfirst : bench.Step { bench with supply := ⟨4⟩, sessions := [untouched 3] } :=
    .openSession hstatement rfl rfl
  have hsecond : Workbench.Step { bench with supply := ⟨4⟩, sessions := [untouched 3] }
      { bench with supply := ⟨5⟩, sessions := [untouched 4, untouched 3] } :=
    .openSession hstatement rfl rfl
  have hname : Workbench.Step { bench with supply := ⟨5⟩, sessions := [untouched 4, untouched 3] }
      { bench with supply := ⟨5⟩, sessions := [named 4, untouched 3] } :=
    @Workbench.Step.move _ 0 _ _ rfl (after_child_untouched 4 ▸ .child Session.rootId 0)
  have hsame : Workbench.Step { bench with supply := ⟨5⟩, sessions := [named 4, untouched 3] }
      twice := @Workbench.Step.move _ 1 _ _ rfl (after_child_untouched 3 ▸ .child Session.rootId 0)
  exact .step (.step (.step (.step bench_reachable hfirst) hsecond) hname) hsame

def name (stamp : Nat) (h : named stamp ∈ twice.sessions) : twice.Handle where
  session := named stamp
  id := 1
  placement := Placement.make (token 0 .identifierToken 3) 0 (some 0) 0
  mem := h
  placed := rfl

theorem name_at (stamp : Nat) : (named stamp).At [0] 1 :=
  .child (p := Placement.make (token 0 .identifierToken 3) 0 (some 0) 0) .root rfl rfl

theorem names_equal : twice.Reachable ∧
    (name 3 (by simp [twice])).equal (name 4 (by simp [twice])) = true := by
  have hsame : statement.same statement = true := Green.same_refl statement
  obtain ⟨-, -, -, -, hpaths⟩ :=
    twice_reachable.equality_sound.2 (name 3 (by simp [twice])) (name 4 (by simp [twice]))
  exact ⟨twice_reachable, (hpaths hsame [0] [0] (name_at 3) (name_at 4)).1 rfl⟩

end Sample

end LosslessSyntax
