import LosslessSyntax.Proofs.Session.Visit

namespace LosslessSyntax

namespace Green

def startsAlong : Green → List Nat → List Nat
  | _, [] => []
  | g, i :: is =>
      match g.slot? i with
      | none => []
      | some (start, c) => start :: c.startsAlong is

theorem sum_startsAlong {g m : Green} {q : List Nat} (hg : g.WellFormed)
    (hm : g.descend? q = some m) : (g.startsAlong q).sum = g.offsetAt q := by
  induction q generalizing g with
  | nil => rfl
  | cons i is ih =>
      obtain ⟨c, hc, hm⟩ := descend?_cons_eq_some_iff.mp hm
      have hslot : g.slot? i = some (widths (g.children.take i), c) := by
        rw [hg.slot?_eq, hc, Option.map_some]
      rw [startsAlong, hslot, List.sum_cons, ih (hg.of_child? hc) hm, offsetAt_cons hc]

end Green

namespace Session

variable {s t : Session} {q : List Nat} {id jd i : Nat} {m m' : Nav (Option Nat)}

inductive Finds (s : Session) (m : Nav (Option Nat)) (q : List Nat) : Prop
  | absent : s.root.descend? q = none → m s = .ok none s → Finds s m q
  | found {id : Nat} {t : Session} :
      (s.root.descend? q).isSome → m s = .ok (some id) t → Explored s t → t.Attached id →
      t.path id = ⟨q⟩ → Finds s m q
  | full : (s.root.descend? q).isSome → Arena.capacity < s.root.size + s.strays →
      m s = .error (.aborted .arenaFull) s → Finds s m q

theorem finds_child (hs : s.Reached) (h : s.At q id) (i : Nat) :
    Finds s (child id i) (q ++ [i]) := by
  obtain ⟨p, -, hm, -⟩ := h.holds hs.coherent hs.root_wellFormed
  have hpath := Green.descend?_concat hm i
  rcases child_cases hs.coherent hs.root_wellFormed h hm i with
    ⟨hnone, he⟩ | ⟨c, hc, ⟨cid, t, he, hst, hat, -⟩ | ⟨hfull, hnew, he⟩⟩
  · exact .absent (hpath.trans hnone) he
  · have hsome := Option.isSome_iff_exists.mpr ⟨c, hpath.trans hc⟩
    exact .found hsome he hst (hat.attached hst.coherent) (hat.path_eq hst.coherent)
  · have hsome := Option.isSome_iff_exists.mpr ⟨c, hpath.trans hc⟩
    refine .full hsome ?_ he
    by_contra hroom
    have hlt := (Confined.of_fits hs (Nat.not_lt.mp hroom)).size_lt
      (Green.mem_paths_iff.mpr hsome) hnew
    omega

structure Derived (root : Green) (s : Session) (id : Nat) (q : List Nat) : Prop where
  path : s.path id = ⟨q⟩
  unique : ∀ jd, s.Attached jd → s.path jd = ⟨q⟩ → jd = id
  holds : ∃ p, s.placements[id]? = some p ∧ root.descend? q = some p.green ∧
    p.offset = (root.startsAlong q).sum
  index : s.indexInParent? id = q.getLast?
  parent : (s.parent? id).map s.path = if q = [] then none else some ⟨q.dropLast⟩
  above : ∀ a, s.parent? id = some a → s.Attached a
  child : ∀ i, Finds s (child id i) (q ++ [i])
  nextSibling : ∀ r i, q = r ++ [i] → Finds s (nextSibling id) (r ++ [i + 1])
  prevSibling : ∀ r i, q = r ++ [i + 1] → Finds s (prevSibling id) (r ++ [i])
  noNext : q = [] → Session.nextSibling id s = .ok none s
  noPrev : (∀ r i, q ≠ r ++ [i + 1]) → Session.prevSibling id s = .ok none s

theorem Finds.congr (h : Finds s m q) (hm : m' s = m s) : Finds s m' q := by
  cases h with
  | absent hnone he => exact .absent hnone (hm.trans he)
  | found hsome he hst ha hpath => exact .found hsome (hm.trans he) hst ha hpath
  | full hsome hroom he => exact .full hsome hroom (hm.trans he)

section Neighbours

variable {r : List Nat} {p : Placement} {a : Nat}

theorem nextSibling_of_parent (hp : s.placements[id]? = some p) (ha : p.parent = some a) :
    nextSibling id s = child a (p.index + 1) s := by
  rw [nextSibling, Nav.bind_ok (Nav.placement_eq hp)]
  simp only [ha]

theorem prevSibling_of_index (hp : s.placements[id]? = some p) (ha : p.parent = some a)
    (hi : p.index = i + 1) : prevSibling id s = child a i s := by
  rw [prevSibling, Nav.bind_ok (Nav.placement_eq hp)]
  simp only [hi, ha]

theorem prevSibling_of_first (hp : s.placements[id]? = some p)
    (h : p.index = 0 ∨ p.parent = none) : prevSibling id s = .ok none s := by
  rw [prevSibling, Nav.bind_ok (Nav.placement_eq hp)]
  cases hi : p.index with
  | zero => rfl
  | succ index =>
      have hparent := h.resolve_left (by omega)
      simp only [hparent]
      rfl

theorem finds_nextSibling (hs : s.Reached) (h : s.At (r ++ [i]) id) :
    Finds s (nextSibling id) (r ++ [i + 1]) := by
  obtain ⟨a, p, ha, hp, hparent, rfl⟩ := h.of_concat hs.coherent
  exact (finds_child hs ha _).congr (nextSibling_of_parent hp hparent)

theorem finds_prevSibling (hs : s.Reached) (h : s.At (r ++ [i + 1]) id) :
    Finds s (prevSibling id) (r ++ [i]) := by
  obtain ⟨a, p, ha, hp, hparent, hi⟩ := h.of_concat hs.coherent
  exact (finds_child hs ha i).congr (prevSibling_of_index hp hparent hi)

theorem nextSibling_root (hs : s.Coherent) (h : s.At [] id) :
    nextSibling id s = .ok none s := by
  obtain rfl := h.eq_rootId hs
  obtain ⟨p, hp, -, -, hparent⟩ := hs.root
  rw [nextSibling, Nav.bind_ok (Nav.placement_eq hp)]
  simp only [hparent]
  rfl

theorem prevSibling_none (hs : s.Coherent) (h : s.At q id) (hq : ∀ r i, q ≠ r ++ [i + 1]) :
    prevSibling id s = .ok none s := by
  obtain ⟨p, hp⟩ := h.exists_placement hs
  refine prevSibling_of_first hp ?_
  cases hparent : p.parent with
  | none => exact .inr rfl
  | some a =>
      obtain ⟨r, rfl, -⟩ := h.of_parent hs hp hparent
      cases hi : p.index with
      | zero => exact .inl rfl
      | succ i => exact absurd (by rw [hi]) (hq r i)

theorem indexInParent?_eq (hs : s.Coherent) (h : s.At q id) :
    s.indexInParent? id = q.getLast? := by
  obtain ⟨p, hp⟩ := h.exists_placement hs
  rw [indexInParent?, hp, Option.bind_some, stepOf]
  cases hparent : p.parent with
  | none =>
      obtain ⟨rfl, -⟩ := h.eq_nil_of_parent_none hp hparent
      rfl
  | some a =>
      obtain ⟨r, rfl, -⟩ := h.of_parent hs hp hparent
      rw [Option.map_some, List.getLast?_concat]

theorem parent?_eq (hs : s.Coherent) (h : s.At q id) :
    (s.parent? id).map s.path = if q = [] then none else some ⟨q.dropLast⟩ := by
  obtain ⟨p, hp⟩ := h.exists_placement hs
  rw [parent?, hp, Option.bind_some]
  cases hparent : p.parent with
  | none =>
      obtain ⟨rfl, -⟩ := h.eq_nil_of_parent_none hp hparent
      rfl
  | some a =>
      obtain ⟨r, rfl, hr⟩ := h.of_parent hs hp hparent
      rw [Option.map_some, hr.path_eq hs, if_neg (by simp), List.dropLast_concat]

theorem attached_of_parent? (hs : s.Coherent) (h : s.At q id) (ha : s.parent? id = some a) :
    s.Attached a := by
  obtain ⟨p, hp, hparent⟩ := Option.bind_eq_some_iff.mp ha
  obtain ⟨r, -, hr⟩ := h.of_parent hs hp hparent
  exact hr.attached hs

end Neighbours

theorem derived_of_at (hs : s.Reached) (h : s.At q id) : Derived s.root s id q := by
  have hcoherent := hs.coherent
  obtain ⟨p, hp, hm, ho⟩ := h.holds hcoherent hs.root_wellFormed
  refine ⟨h.path_eq hcoherent, ?_, ?_, indexInParent?_eq hcoherent h, parent?_eq hcoherent h,
    fun _ ha => attached_of_parent? hcoherent h ha, finds_child hs h, ?_, ?_, ?_,
    prevSibling_none hcoherent h⟩
  · intro jd hjd hpath
    have hat := hjd.at_path hcoherent
    rw [hpath] at hat
    exact hat.id_unique hcoherent h
  · exact ⟨p, hp, hm, ho.trans (Green.sum_startsAlong hs.root_wellFormed hm).symm⟩
  · rintro r i rfl
    exact finds_nextSibling hs h
  · rintro r i rfl
    exact finds_prevSibling hs h
  · rintro rfl
    exact nextSibling_root hcoherent h

def Alike (s : Session) (m : Nav (Option Nat)) (t : Session) (m' : Nav (Option Nat)) : Prop :=
  (m s = .ok none s ∧ m' t = .ok none t) ∨
    (∃ a u b w, m s = .ok (some a) u ∧ m' t = .ok (some b) w ∧ u.path a = w.path b) ∨
    (Arena.capacity < s.root.size + s.strays ∧ m s = .error (.aborted .arenaFull) s) ∨
    (Arena.capacity < t.root.size + t.strays ∧ m' t = .error (.aborted .arenaFull) t)

theorem Finds.alike (h : Finds s m q) (h' : Finds t m' q) (hroot : t.root = s.root) :
    Alike s m t m' := by
  cases h with
  | absent hnone he =>
      cases h' with
      | absent _ he' => exact .inl ⟨he, he'⟩
      | found hsome _ _ _ _ => rw [hroot, hnone] at hsome; exact nomatch hsome
      | full hsome _ _ => rw [hroot, hnone] at hsome; exact nomatch hsome
  | found hsome he _ _ hpath =>
      cases h' with
      | absent hnone _ => rw [← hroot, hnone] at hsome; exact nomatch hsome
      | found _ he' _ _ hpath' => exact .inr (.inl ⟨_, _, _, _, he, he', hpath.trans hpath'.symm⟩)
      | full _ hfull he' => exact .inr (.inr (.inr ⟨hfull, he'⟩))
  | full _ hfull he => exact .inr (.inr (.inl ⟨hfull, he⟩))

structure SameAnswers (s : Session) (id : Nat) (t : Session) (jd : Nat) : Prop where
  green : s.placements[id]?.map Placement.green = t.placements[jd]?.map Placement.green
  offset : s.placements[id]?.map Placement.offset = t.placements[jd]?.map Placement.offset
  index : s.indexInParent? id = t.indexInParent? jd
  parent : (s.parent? id).map s.path = (t.parent? jd).map t.path
  child : ∀ i, Alike s (child id i) t (child jd i)
  nextSibling : Alike s (nextSibling id) t (nextSibling jd)
  prevSibling : Alike s (prevSibling id) t (prevSibling jd)

theorem Derived.sameAnswers {root : Green} (h : Derived root s id q) (h' : Derived root t jd q)
    (hroot : t.root = s.root) : SameAnswers s id t jd := by
  obtain ⟨p, hp, hm, ho⟩ := h.holds
  obtain ⟨p', hp', hm', ho'⟩ := h'.holds
  have hgreen := Option.some.inj (hm.symm.trans hm')
  refine ⟨by rw [hp, hp', Option.map_some, Option.map_some, hgreen],
    by rw [hp, hp', Option.map_some, Option.map_some, ho, ho'], h.index.trans h'.index.symm,
    h.parent.trans h'.parent.symm, fun i => (h.child i).alike (h'.child i) hroot, ?_, ?_⟩
  · rcases q.eq_nil_or_concat with rfl | ⟨r, i, rfl⟩
    · exact .inl ⟨h.noNext rfl, h'.noNext rfl⟩
    · rw [List.concat_eq_append] at h h'
      exact (h.nextSibling r i rfl).alike (h'.nextSibling r i rfl) hroot
  · by_cases hprev : ∃ r i, q = r ++ [i + 1]
    · obtain ⟨r, i, rfl⟩ := hprev
      exact (h.prevSibling r i rfl).alike (h'.prevSibling r i rfl) hroot
    · have hnone : ∀ r i, q ≠ r ++ [i + 1] := fun r i heq => hprev ⟨r, i, heq⟩
      exact .inl ⟨h.noPrev hnone, h'.noPrev hnone⟩

end Session

namespace Visit

variable {root : Green} {v w : Visit}

theorem Sound.derived (h : v.Sound root) {id : Nat} (ha : v.session.Attached id) :
    Session.Derived root v.session id (v.session.path id).indices :=
  h.root ▸ Session.derived_of_at h.reached (ha.at_path h.reached.coherent)

theorem Reachable.derivable (h : Reachable root v) :
    (∀ id ∈ v.handles, ∃ p, v.session.placements[id]? = some p) ∧
      (∀ id ∈ v.handles, v.session.Attached id →
        Session.Derived root v.session id (v.session.path id).indices) ∧
      ∀ w, Reachable root w → ∀ id ∈ v.handles, ∀ jd ∈ w.handles, v.session.Attached id →
        w.session.Attached jd → v.session.path id = w.session.path jd →
        Session.SameAnswers v.session id w.session jd := by
  have hv := h.sound
  refine ⟨?_, fun id _ ha => hv.derived ha, ?_⟩
  · intro id hid
    exact ⟨_, Array.getElem?_eq_getElem (hv.handles id hid)⟩
  · intro w hw id _ jd _ ha ha' hpath
    have hderived := hw.sound.derived ha'
    rw [← hpath] at hderived
    exact (hv.derived ha).sameAnswers hderived (hw.sound.root.trans hv.root.symm)

end Visit

namespace Sample

theorem visit_derived : Visit.Reachable assignment visit ∧
    Session.Derived assignment visit.session 2 [2, 0] := by
  refine ⟨visit_reachable, ?_⟩
  have hcoherent := visit_reachable.sound.reached.coherent
  have h := visit_reachable.derivable.2.1 2 List.mem_cons_self (visit_at.attached hcoherent)
  rwa [visit_at.path_eq hcoherent] at h

end Sample

end LosslessSyntax
