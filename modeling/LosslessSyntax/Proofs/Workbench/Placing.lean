import LosslessSyntax.Proofs.Session.Occurrence
import LosslessSyntax.Proofs.Workbench.Registry

namespace LosslessSyntax

namespace Green

variable {r : Registry} {root g m c : Green} {q : List Nat} {offset i j : Nat}

theorem Occurs.eq_of_same (hroot : r.Lists root) (hg : r.Lists g)
    (hc : root.descend? (q ++ [i]) = some c) (hsame : c.same g = true) : c = g := by
  rw [same, Bool.and_eq_true, beq_iff_eq, beq_iff_eq] at hsame
  exact (hroot.of_descend? hc).eq_of_stamp_eq hg hsame.2

theorem Occurs.empty_of_two (hroot : r.Lists root) (hg : r.Lists g)
    (hm : root.descend? q = some m) (hi : root.Occurs q g offset i)
    (hj : root.Occurs q g offset j) (hne : i ≠ j) : g.width = 0 := by
  have hempty {i j : Nat} (hi : root.Occurs q g offset i) (hj : root.Occurs q g offset j)
      (hlt : i < j) : g.width = 0 := by
    obtain ⟨c, hc, hsame, hwidth⟩ := hi.width_eq_zero hm hj hlt
    rwa [← eq_of_same hroot hg hc hsame]
  rcases Nat.lt_or_gt_of_ne hne with hlt | hlt
  · exact hempty hi hj hlt
  · exact hempty hj hi hlt

end Green

namespace Session

/-- The element is placed as child `i`, like a caller of `child` would have it, and placed once: all
that comes later finds it there. -/
structure PlacedAs (s t : Session) (g : Green) (offset id i cid : Nat) : Prop where
  place : place g offset (some (s, id)) s = .ok cid t
  child : child id i s = .ok (some cid) t
  size_le : t.placements.size ≤ s.placements.size + 1
  later : ∀ u : Session, u.Coherent → Extends t u →
    Session.place g offset (some (u, id)) u = .ok cid u ∧ Session.child id i u = .ok (some cid) u

variable {s : Session} {q : List Nat} {id cid i : Nat} {g : Green} {offset : Nat}

theorem place_eq (g : Green) (offset : Nat) (s : Session) (id : Nat) :
    place g offset (some (s, id)) s = placeBelow g offset id s := by
  change (if s.stamp = s.stamp then placeBelow g offset id else _) s = _
  rw [if_pos rfl]

theorem place_of_unique (hs : s.Grounded) (h : s.At q id)
    (hi : ∀ j, s.root.Occurs q g offset j ↔ j = i) :
    (∃ cid t, PlacedAs s t g offset id i cid) ∨
      (s.Crowded ∧ place g offset (some (s, id)) s = .error (.aborted .arenaFull) s ∧
        child id i s = .error (.aborted .arenaFull) s) := by
  obtain ⟨c, hc, -⟩ := (hi i).mpr rfl
  obtain ⟨p, -, hm, -⟩ := h.holds hs.coherent hs.wellFormed
  have heq := (place_eq g offset s id).trans (placeBelow_of_unique hs h hi)
  rcases child_cases hs.coherent hs.wellFormed h hm i with
    ⟨hnone, -⟩ | ⟨-, -, ⟨cid, t, he, hst, hat, -⟩ | ⟨hfull, hnew, he⟩⟩
  · rw [Green.descend?_concat hm, hnone] at hc
    exact nomatch hc
  · refine .inl ⟨cid, t, heq.trans (childAt_of_ok he), he, size_le_of_child he, ?_⟩
    intro u hu htu
    have hsu := hst.grown.trans htu
    have hgrounded : u.Grounded := ⟨hu, hsu.root ▸ hs.wellFormed⟩
    have hchild := child_of_at hu (h.mono hsu) (hat.mono htu)
    have hi' : ∀ j, u.root.Occurs q g offset j ↔ j = i := by rwa [hsu.root]
    have heq' := placeBelow_of_unique hgrounded (h.mono hsu) hi'
    exact ⟨(place_eq g offset u id).trans (heq'.trans (childAt_of_ok hchild)), hchild⟩
  · have hsome : (s.root.descend? (q ++ [i])).isSome := Option.isSome_iff_exists.mpr ⟨c, hc⟩
    exact .inr ⟨hs.crowded_of_full hsome hnew hfull, heq.trans (childAt_of_error he), he⟩

theorem place_of_not_unique (hs : s.Grounded) (h : s.At q id)
    (hnot : ¬ ∃! i, s.root.Occurs q g offset i) :
    ∃ m reason, s.root.descend? q = some m ∧
      place g offset (some (s, id)) s = .error (.illegalShape m.kind reason) s := by
  obtain ⟨p, -, hm, -⟩ := h.holds hs.coherent hs.wellFormed
  rw [place_eq]
  rcases placeBelow_of_not_unique hs h hm hnot with ⟨-, he⟩ | ⟨i, j, -, -, -, -, he⟩
  · exact ⟨_, _, hm, he⟩
  · exact ⟨_, _, hm, he⟩

theorem place_of_width_pos {r : Registry} (hs : s.Grounded) (hr : r.Lists s.root) (h : s.At q id)
    (hc : s.At (q ++ [i]) cid) {p : Placement} (hp : s.placements[cid]? = some p)
    (hpos : 0 < p.green.width) : place p.green p.offset (some (s, id)) s = .ok cid s := by
  obtain ⟨m, -, hm, -⟩ := h.holds hs.coherent hs.wellFormed
  obtain ⟨p', hp', hgreen, hoffset⟩ := hc.holds hs.coherent hs.wellFormed
  obtain rfl := Option.some.inj (hp.symm.trans hp')
  have hself := Green.occurs_self hgreen
  rw [← hoffset] at hself
  have hi : ∀ j, s.root.Occurs q p.green p.offset j ↔ j = i := by
    refine fun j => ⟨fun hj => ?_, fun hj => hj ▸ hself⟩
    by_contra hne
    exact hpos.ne' (hj.empty_of_two hr (hr.of_descend? hgreen) hm hself hne)
  rw [place_eq, placeBelow_of_unique hs h hi]
  exact childAt_of_ok (child_of_at hs.coherent h hc)

end Session

namespace Workbench

variable {w : Workbench} {s : Session} {g : Green} {q : List Nat} {id : Nat}

theorem Reachable.placing_settled (h : w.Reachable) (hs : s ∈ w.sessions) (hg : g ∈ w.elements)
    (hid : s.At q id) (offset : Nat) :
    (∀ i, (∀ j, s.root.Occurs q g offset j ↔ j = i) →
        (∃ cid t, Session.PlacedAs s t g offset id i cid) ∨
          (s.Crowded ∧ Session.place g offset (some (s, id)) s = .error (.aborted .arenaFull) s ∧
            Session.child id i s = .error (.aborted .arenaFull) s)) ∧
      ((¬ ∃! i, s.root.Occurs q g offset i) → ∃ m reason, s.root.descend? q = some m ∧
        Session.place g offset (some (s, id)) s = .error (.illegalShape m.kind reason) s) ∧
      (¬ s.Crowded → ((∃ cid t, Session.place g offset (some (s, id)) s = .ok cid t) ↔
        ∃! i, s.root.Occurs q g offset i)) ∧
      (∀ i j, i ≠ j → s.root.Occurs q g offset i → s.root.Occurs q g offset j → g.width = 0) ∧
      ∀ i cid p, s.At (q ++ [i]) cid → s.placements[cid]? = some p → 0 < p.green.width →
        Session.place p.green p.offset (some (s, id)) s = .ok cid s := by
  obtain ⟨r, hr⟩ := h.listed
  have hroot := (hr.sessions s hs).root
  have hgrounded := (h.sound.sessions s hs).reached.grounded
  have hunique := fun i (hi : ∀ j, s.root.Occurs q g offset j ↔ j = i) =>
    Session.place_of_unique hgrounded hid hi
  have hrefused := fun (hnot : ¬ ∃! i, s.root.Occurs q g offset i) =>
    Session.place_of_not_unique hgrounded hid hnot
  refine ⟨hunique, hrefused, fun hroom => ⟨?_, ?_⟩, ?_, ?_⟩
  · rintro ⟨cid, t, he⟩
    by_contra hnot
    obtain ⟨m, reason, -, he'⟩ := hrefused hnot
    exact nomatch he.symm.trans he'
  · rintro ⟨i, hi, honly⟩
    rcases hunique i fun j => ⟨honly j, fun hj => hj ▸ hi⟩ with ⟨cid, t, hplaced⟩ | ⟨hfull, -⟩
    · exact ⟨cid, t, hplaced.place⟩
    · exact absurd hfull hroom
  · obtain ⟨p, -, hm, -⟩ := hid.holds hgrounded.coherent hgrounded.wellFormed
    exact fun i j hne hi hj => hi.empty_of_two hroot (hr.elements g hg) hm hj hne
  · exact fun i cid p hc hp hpos => Session.place_of_width_pos hgrounded hroot hid hc hp hpos

end Workbench

namespace Sample

def echo : Green := node 1 .list [token 0 .identifierToken 3, token 0 .identifierToken 3]

def unheard : Session := ⟨2, echo, #[Placement.make echo 0 none 0]⟩

def heard : Session := unheard.withChild (token 0 .identifierToken 3) 3 Session.rootId 1

def echoing : Workbench where
  supply := ⟨3⟩
  elements := [echo, token 0 .identifierToken 3]
  builders := []
  sessions := [heard]
  documents := []

theorem after_child_unheard : Nav.after (Session.child Session.rootId 1) unheard = heard :=
  have hoffset : 3 ≤ maxSize := by decide
  have hroom : 1 < Arena.capacity := by decide
  have hchild : Session.child 0 1 unheard = _ :=
    Session.child_of_room rfl rfl rfl hoffset hroom
  Nav.after_of_ok hchild

theorem echoing_reachable : echoing.Reachable := by
  have hname : (Workbench.empty ⟨0⟩).Step ⟨⟨1⟩, [token 0 .identifierToken 3], [], [], []⟩ :=
    .create (.token (by decide) rfl)
  have hcs : ∀ c ∈ echo.children, c ∈ [token 0 .identifierToken 3] := by
    simp [echo, node, Green.children]
  have hecho : Workbench.Step ⟨⟨1⟩, [token 0 .identifierToken 3], [], [], []⟩
      ⟨⟨2⟩, [echo, token 0 .identifierToken 3], [], [], []⟩ := .create (.node hcs rfl)
  have hopened : Workbench.Step ⟨⟨2⟩, [echo, token 0 .identifierToken 3], [], [], []⟩
      { echoing with sessions := [unheard] } := .openSession List.mem_cons_self rfl rfl
  have hasked : Workbench.Step { echoing with sessions := [unheard] } echoing :=
    @Workbench.Step.move _ 0 _ _ rfl (after_child_unheard ▸ .child Session.rootId 1)
  exact .step (.step (.step (.step (.empty ⟨0⟩) hname) hecho) hopened) hasked

theorem echo_placed : echoing.Reachable ∧
    Session.place (token 0 .identifierToken 3) 3 (some (heard, 0)) heard = .ok 1 heard := by
  have hmem : heard ∈ echoing.sessions := List.mem_cons_self
  have hname : token 0 .identifierToken 3 ∈ echoing.elements := by simp [echoing]
  obtain ⟨-, -, -, -, hplaced⟩ := echoing_reachable.placing_settled hmem hname .root 3
  have hsecond : heard.At [1] 1 :=
    .child (p := Placement.make (token 0 .identifierToken 3) 3 (some 0) 1) .root rfl rfl
  exact ⟨echoing_reachable, hplaced 1 1 _ hsecond rfl (by decide)⟩

end Sample

end LosslessSyntax
