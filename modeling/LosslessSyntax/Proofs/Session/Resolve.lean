import LosslessSyntax.Proofs.Green.Position
import LosslessSyntax.Proofs.Session.Arena
import LosslessSyntax.Proofs.Session.Reached

namespace LosslessSyntax

namespace Session

structure GrownBy (k : Nat) (s t : Session) : Prop where
  coherent : t.Coherent
  grown : Extends s t
  size_le : t.placements.size ≤ s.placements.size + k

theorem GrownBy.refl {s : Session} (hs : s.Coherent) (k : Nat) : GrownBy k s s :=
  ⟨hs, .refl s, Nat.le_add_right _ _⟩

theorem GrownBy.trans {j k : Nat} {s t u : Session} (h : GrownBy j s t) (h' : GrownBy k t u) :
    GrownBy (j + k) s u := by
  refine ⟨h'.coherent, h.grown.trans h'.grown, ?_⟩
  have := h.size_le
  have := h'.size_le
  omega

def Holds (s : Session) (id : Nat) (green : Green) (offset : Nat) : Prop :=
  ∃ p, s.placements[id]? = some p ∧ p.green = green ∧ p.offset = offset

section

variable {s : Session} {id offset : Nat} {g : Green}

theorem child_spec (hs : s.Coherent) (hg : g.WellFormed) (hp : s.Holds id g offset)
    (hfit : offset + g.width ≤ maxSize) (i : Nat) :
    (g.child? i = none ∧ child id i s = .ok none s) ∨
      ∃ c, g.child? i = some c ∧
        ((∃ cid t, child id i s = .ok (some cid) t ∧ GrownBy 1 s t ∧
            t.Holds cid c (offset + Green.widths (g.children.take i))) ∨
          (Arena.capacity ≤ s.placements.size ∧
            child id i s = .error (.aborted .arenaFull) s)) := by
  obtain ⟨p, hp, rfl, rfl⟩ := hp
  have hsize := hs.memo_size hp
  cases hc : p.green.child? i with
  | none =>
      left
      have hi : p.green.children.length ≤ i := List.getElem?_eq_none_iff.mp hc
      have hm : p.memo[i]? = none := Array.getElem?_eq_none_iff.mpr (hsize ▸ hi)
      exact ⟨rfl, child_of_outside hp hm⟩
  | some c =>
      right
      refine ⟨c, rfl, ?_⟩
      have hi : i < p.green.children.length := (List.getElem?_eq_some_iff.mp hc).1
      have hslot : p.green.slot? i = some (Green.widths (p.green.children.take i), c) := by
        rw [hg.slot?_eq, hc, Option.map_some]
      have hchild := Green.widths_take_child_le hg hc
      rcases hm : p.memo[i]? with _ | _ | cid
      · exact absurd (Array.getElem?_eq_none_iff.mp hm) (by omega)
      · have he := child_of_slot hp hm hslot
        rw [if_neg (by omega)] at he
        split at he
        · refine .inl ⟨_, _, he, ⟨hs.withChild hp hm hslot, .withChild hp hm c _, ?_⟩,
            _, withChild_new hp, rfl, rfl⟩
          rw [withChild, Array.size_modify, Array.size_push]
        · rename_i hadmits
          rw [Arena.admits_iff, Nat.not_lt] at hadmits
          exact .inr ⟨hadmits, he⟩
      · obtain ⟨q, hq, ha, hindex⟩ := hs.memoized hp hm
        obtain ⟨-, r, start, hr, hrslot, hoffset, -⟩ := hs.below hq ha
        obtain rfl : p = r := Option.some.inj (hp.symm.trans hr)
        rw [hindex, hslot, Option.some.injEq, Prod.mk.injEq] at hrslot
        obtain ⟨rfl, rfl⟩ := hrslot
        exact .inl ⟨cid, s, child_of_memo hp hm, .refl hs 1, q, hq, rfl, hoffset⟩

theorem descendFrom_spec (hs : s.Coherent) (hg : g.WellFormed) (hp : s.Holds id g offset)
    (hfit : offset + g.width ≤ maxSize) (path : Path) (depth : Nat) (is : List Nat) :
    (∃ m cid t, g.descend? is = some m ∧ descendFrom path depth id is s = .ok cid t ∧
        GrownBy is.length s t ∧ t.Holds cid m (offset + g.offsetAt is)) ∨
      (∃ k t, k < is.length ∧ (g.descend? (is.take k)).isSome ∧
        g.descend? (is.take (k + 1)) = none ∧ GrownBy is.length s t ∧
        descendFrom path depth id is s =
          .error (.rejected (.invalidPath path (depth + k))) t) ∨
      (∃ t, Arena.capacity < s.placements.size + is.length ∧
        descendFrom path depth id is s = .error (.aborted .arenaFull) t) := by
  induction is generalizing s g id offset depth with
  | nil => exact .inl ⟨g, id, s, rfl, rfl, .refl hs 0, hp⟩
  | cons i is ih =>
      rcases child_spec hs hg hp hfit i with
        ⟨hc, he⟩ | ⟨c, hc, ⟨cid, t, he, hst, hcid⟩ | ⟨hfull, he⟩⟩
      · refine .inr (.inl ⟨0, s, Nat.succ_pos _, rfl, ?_, .refl hs _, ?_⟩)
        · rw [List.take_succ_cons, Green.descend?_cons, hc, Option.bind_none]
        · exact Nav.bind_ok he
      · have hchild := Green.widths_take_child_le hg hc
        have hdescend : ∀ js, g.descend? (i :: js) = c.descend? js := by
          intro js
          rw [Green.descend?_cons, hc, Option.bind_some]
        have hrun : descendFrom path depth id (i :: is) s =
            descendFrom path (depth + 1) cid is t := Nav.bind_ok he
        have hgrown : ∀ {u}, GrownBy is.length t u → GrownBy (i :: is).length s u := by
          intro u h
          rw [List.length_cons, Nat.add_comm]
          exact hst.trans h
        rcases ih hst.coherent (hg.of_child? hc) hcid (by omega) (depth + 1) with
          ⟨m, mid, u, hm, hu, htu, hheld⟩ | ⟨k, u, hk, hsome, hnone, htu, hu⟩ | ⟨u, hfull, hu⟩
        · refine .inl ⟨m, mid, u, (hdescend is).trans hm, hrun.trans hu, hgrown htu, ?_⟩
          rw [Green.offsetAt_cons hc, ← Nat.add_assoc]
          exact hheld
        · refine .inr (.inl ⟨k + 1, u, Nat.succ_lt_succ hk, ?_, ?_, hgrown htu, ?_⟩)
          · rw [List.take_succ_cons, hdescend]
            exact hsome
          · rw [List.take_succ_cons, hdescend]
            exact hnone
          · rw [hrun, hu, Nat.add_assoc, Nat.add_comm 1 k]
        · refine .inr (.inr ⟨u, ?_, hrun.trans hu⟩)
          have := hst.size_le
          rw [List.length_cons]
          omega
      · refine .inr (.inr ⟨s, ?_, Nav.bind_error he⟩)
        rw [List.length_cons]
        omega

end

theorem Reached.holds_root {s : Session} (hs : s.Reached) : s.Holds rootId s.root 0 := by
  obtain ⟨p, hp, hg, ho, -⟩ := hs.coherent.root
  exact ⟨p, hp, hg, ho⟩

theorem resolve_spec {s : Session} (hs : s.Reached) (path : Path) :
    (∃ m id t, s.root.descend? path.indices = some m ∧ resolve path s = .ok id t ∧
        GrownBy path.depth s t ∧ t.Holds id m (s.root.offsetAt path.indices)) ∨
      (∃ k t, k < path.depth ∧ (s.root.descend? (path.indices.take k)).isSome ∧
        s.root.descend? (path.indices.take (k + 1)) = none ∧ GrownBy path.depth s t ∧
        resolve path s = .error (.rejected (.invalidPath path k)) t) ∨
      (∃ t, Arena.capacity < s.placements.size + path.depth ∧
        resolve path s = .error (.aborted .arenaFull) t) := by
  have hroot := hs.root_wellFormed
  have hfit : 0 + s.root.width ≤ maxSize := (Nat.zero_add _).trans_le hroot.width_le
  have hspec := descendFrom_spec hs.coherent hroot hs.holds_root hfit path 0 path.indices
  simp only [Nat.zero_add] at hspec
  exact hspec

end Session

end LosslessSyntax
