import LosslessSyntax.Proofs.Session.Visit
import LosslessSyntax.Proofs.Session.Yields
import Mathlib.Order.Bounds.Basic

namespace LosslessSyntax

namespace Session

variable {s t u : Session} {q r is : List Nat} {id cid a : Nat} {m : Green}

section Descended

structure Descended (s : Session) (q : List Nat) (t : Session) (id : Nat) : Prop where
  explored : Explored s t
  arrived : t.At q id
  placed : ∀ r ∈ t.placed, r ∈ s.placed ∨ r <+: q

theorem Descended.refl (hs : s.Coherent) (h : s.At q id) : Descended s q s id :=
  ⟨.refl hs, h, fun _ hr => .inl hr⟩

theorem Descended.trans (h : Descended s q t a) (h' : Descended t (q ++ r) u id) :
    Descended s (q ++ r) u id := by
  refine ⟨h.explored.trans h'.explored, h'.arrived, ?_⟩
  intro p hp
  rcases h'.placed p hp with hp | hp
  · exact (h.placed p hp).imp_right fun hp => hp.trans (List.prefix_append q r)
  · exact .inr hp

theorem Descended.isSome (hs : s.Grounded) (h : Descended s q t id) :
    (s.root.descend? q).isSome := by
  have ht := hs.explored h.explored
  obtain ⟨p, -, hm, -⟩ := h.arrived.holds ht.coherent ht.wellFormed
  rw [h.explored.grown.root] at hm
  exact hm ▸ rfl

theorem Descended.mem_placed_iff (hs : s.Coherent) (h : Descended s q t id) :
    r ∈ t.placed ↔ r ∈ s.placed ∨ r <+: q := by
  refine ⟨h.placed r, ?_⟩
  have ht := h.explored.coherent
  rintro (hr | ⟨is, rfl⟩)
  · obtain ⟨rid, hrid⟩ := (Session.mem_placed_iff hs).mp hr
    exact (Session.mem_placed_iff ht).mpr ⟨rid, hrid.mono h.explored.grown⟩
  · exact (Session.mem_placed_iff ht).mpr (h.arrived.exists_of_append ht)

inductive Followed (s : Session) (path : Path) (depth : Nat) (q is : List Nat) (run : Nav Nat) :
    Prop
  | found {id : Nat} {t : Session} : run s = .ok id t → Descended s (q ++ is) t id →
      Followed s path depth q is run
  | broken {k id : Nat} {t : Session} : k < is.length →
      s.root.descend? (q ++ is.take (k + 1)) = none → Descended s (q ++ is.take k) t id →
      run s = .error (.rejected (.invalidPath path (depth + k))) t →
      Followed s path depth q is run
  | full {t : Session} : s.Crowded → run s = .error (.aborted .arenaFull) t →
      Followed s path depth q is run

theorem followed_descendFrom (hs : s.Grounded) (h : s.At q id) (path : Path) (depth : Nat)
    (is : List Nat) : Followed s path depth q is (descendFrom path depth id is) := by
  induction is generalizing s q id depth with
  | nil => exact .found rfl ((List.append_nil q).symm ▸ .refl hs.coherent h)
  | cons i is ih =>
      obtain ⟨p, -, hm, -⟩ := h.holds hs.coherent hs.wellFormed
      have hnext := Green.descend?_concat hm i
      rcases child_cases hs.coherent hs.wellFormed h hm i with
        ⟨hc, he⟩ | ⟨c, hc, ⟨cid, t, he, hst, hat, hplaced⟩ | ⟨hfull, hnew, he⟩⟩
      · have hstay : Descended s (q ++ (i :: is).take 0) s id :=
          (List.append_nil q).symm ▸ .refl hs.coherent h
        exact .broken (Nat.succ_pos _) (hnext.trans hc) hstay (Nav.bind_ok he)
      · have hstep : Descended s (q ++ [i]) t cid := by
          refine ⟨hst, hat, fun r hr => (hplaced r hr).imp_right ?_⟩
          rintro rfl
          exact List.prefix_rfl
        have hrun : descendFrom path depth id (i :: is) s =
            descendFrom path (depth + 1) cid is t := Nav.bind_ok he
        have happend : ∀ js, q ++ [i] ++ js = q ++ i :: js := List.append_assoc q [i]
        cases ih (hs.explored hst) hat (depth + 1) with
        | found hu hdown =>
            exact .found (hrun.trans hu) (happend is ▸ hstep.trans hdown)
        | @broken k _ _ hk hnone hdown hu =>
            rw [happend, hst.grown.root] at hnone
            rw [Nat.add_assoc, Nat.add_comm 1] at hu
            exact .broken (Nat.succ_lt_succ hk) hnone (happend (is.take k) ▸ hstep.trans hdown)
              (hrun.trans hu)
        | full hcrowded hu => exact .full (hst.crowded_iff.mp hcrowded) (hrun.trans hu)
      · refine .full (hs.crowded_of_full ?_ hnew hfull) (Nav.bind_error he)
        rw [hnext, hc]
        rfl

theorem descendFrom_of_at (hs : s.Coherent) (h : s.At q id) (hcid : s.At (q ++ is) cid)
    (path : Path) (depth : Nat) : descendFrom path depth id is s = .ok cid s := by
  induction is generalizing q id depth with
  | nil =>
      obtain rfl := h.id_unique hs (List.append_nil q ▸ hcid)
      rfl
  | cons i is ih =>
      rw [List.append_cons] at hcid
      obtain ⟨a, ha⟩ := hcid.exists_of_append hs
      obtain ⟨b, p, hb, hp, hparent, rfl⟩ := ha.of_concat hs
      obtain rfl := hb.id_unique hs h
      obtain ⟨-, r, -, hr, -, -, hmemo⟩ := hs.below hp hparent
      have hrun : descendFrom path depth b (p.index :: is) s =
          descendFrom path (depth + 1) a is s := Nav.bind_ok (child_of_memo hr hmemo)
      exact hrun.trans (ih ha hcid (depth + 1))

end Descended

section Filled

def unplaced (s : Session) (q : List Nat) : List (List Nat) :=
  s.root.paths.filter fun r => decide (r <+: q) && decide (r ∉ s.placed)

theorem mem_unplaced_iff :
    r ∈ s.unplaced q ↔ (s.root.descend? r).isSome ∧ r <+: q ∧ r ∉ s.placed := by
  rw [unplaced, List.mem_filter, Green.mem_paths_iff, Bool.and_eq_true, decide_eq_true_iff,
    decide_eq_true_iff]

theorem unplaced_congr
    (h : ∀ p, (s.root.descend? p).isSome → (p <+: q ↔ p <+: r)) : s.unplaced q = s.unplaced r := by
  refine List.filter_congr fun p hp => ?_
  simp only [h p (Green.mem_paths_iff.mp hp)]

structure FilledAlong (s : Session) (q : List Nat) (t : Session) : Prop where
  explored : Explored s t
  placed : t.placed.Perm (s.placed ++ s.unplaced q)
  size : t.placements.size = s.placements.size + (s.unplaced q).length

theorem nodup_placed_append_unplaced (hs : s.Coherent) (q : List Nat) :
    (s.placed ++ s.unplaced q).Nodup := by
  refine List.nodup_append'.mpr ⟨nodup_placed hs, s.root.nodup_paths.filter _, ?_⟩
  intro r hr hnew
  exact (mem_unplaced_iff.mp hnew).2.2 hr

theorem Descended.placed_perm (hs : s.Grounded) (h : Descended s q t id) :
    t.placed.Perm (s.placed ++ s.unplaced q) := by
  refine (List.perm_ext_iff_of_nodup (nodup_placed h.explored.coherent)
    (nodup_placed_append_unplaced hs.coherent q)).mpr fun r => ?_
  rw [h.mem_placed_iff hs.coherent, List.mem_append, mem_unplaced_iff]
  constructor
  · rintro (hr | hr)
    · exact .inl hr
    · by_cases hold : r ∈ s.placed
      · exact .inl hold
      · exact .inr ⟨Green.isSome_descend?_of_leads hr (h.isSome hs), hr, hold⟩
  · exact Or.imp_right fun hr => hr.2.1

theorem Descended.filled (hs : s.Grounded) (h : Descended s q t id) : FilledAlong s q t := by
  have hperm := h.placed_perm hs
  refine ⟨h.explored, hperm, ?_⟩
  have hlength := hperm.length_eq
  have hsplit := s.length_placed_add_strays
  have hsplit' := t.length_placed_add_strays
  rw [List.length_append] at hlength
  rw [← hsplit, ← hsplit', h.explored.strays_eq, hlength, Nat.add_right_comm]

end Filled

section Resolved

inductive Resolved (s : Session) (q : List Nat) : Prop
  | found {id : Nat} {t : Session} : (s.root.descend? q).isSome → resolve ⟨q⟩ s = .ok id t →
      t.Attached id → t.path id = ⟨q⟩ → FilledAlong s q t → Resolved s q
  | broken {k : Nat} {t : Session} : s.root.descend? q = none →
      IsGreatest {n | ∃ r, r <+: q ∧ (s.root.descend? r).isSome ∧ r.length = n} k →
      resolve ⟨q⟩ s = .error (.rejected (.invalidPath ⟨q⟩ k)) t → FilledAlong s q t → Resolved s q
  | full {t : Session} : s.Crowded → resolve ⟨q⟩ s = .error (.aborted .arenaFull) t → Resolved s q

theorem length_le_of_leads {root : Green} {k : Nat} (hnone : root.descend? (q.take (k + 1)) = none)
    (hr : r <+: q) (hsome : (root.descend? r).isSome) : r.length ≤ k := by
  by_contra hlong
  have hprefix : q.take (k + 1) <+: r :=
    List.prefix_of_prefix_length_le (List.take_prefix _ q) hr
      ((List.length_take_le _ q).trans (Nat.not_le.mp hlong))
  have hsome := Green.isSome_descend?_of_leads hprefix hsome
  rw [hnone] at hsome
  exact nomatch hsome

theorem resolved (hs : s.Grounded) (q : List Nat) : s.Resolved q := by
  cases followed_descendFrom hs .root ⟨q⟩ 0 q with
  | @found id t hrun hdown =>
      have ht := hdown.explored.coherent
      rw [List.nil_append] at hdown
      exact .found (hdown.isSome hs) hrun (hdown.arrived.attached ht) (hdown.arrived.path_eq ht)
        (hdown.filled hs)
  | @broken k id t hk hnone hdown hrun =>
      rw [List.nil_append] at hnone hdown
      -- What leads somewhere is not longer than what was followed, so both leave the same unplaced.
      have hlongest : ∀ r, r <+: q → (s.root.descend? r).isSome → r.length ≤ k :=
        fun r => length_le_of_leads hnone
      have hunplaced : s.unplaced (q.take k) = s.unplaced q := by
        refine unplaced_congr fun p hp => ?_
        rw [List.prefix_take_iff]
        exact and_iff_left_of_imp fun hpq => hlongest p hpq hp
      obtain ⟨hst, hplaced, hsize⟩ := hdown.filled hs
      rw [hunplaced] at hplaced hsize
      rw [Nat.zero_add] at hrun
      refine .broken ?_ ⟨⟨q.take k, List.take_prefix k q, hdown.isSome hs, ?_⟩, ?_⟩ hrun
        ⟨hst, hplaced, hsize⟩
      · by_contra hsome
        have hle := hlongest q List.prefix_rfl (Option.isSome_iff_ne_none.mpr hsome)
        exact absurd hk (Nat.not_lt.mpr hle)
      · exact List.length_take_of_le (Nat.le_of_lt hk)
      · rintro _ ⟨r, hr, hsome, rfl⟩
        exact hlongest r hr hsome
  | full hcrowded hrun => exact .full hcrowded hrun

theorem resolve_path (hs : s.Coherent) (h : s.Attached id) : resolve (s.path id) s = .ok id s :=
  descendFrom_of_at hs .root (h.at_path hs) (s.path id) 0

theorem eq_of_path_eq (hs : s.Coherent) (ha : s.Attached a) (h : s.Attached id)
    (heq : s.path a = s.path id) : a = id :=
  (ha.at_path hs).id_unique hs (heq ▸ h.at_path hs)

end Resolved

end Session

namespace Visit

open Session

variable {root : Green} {v : Visit}

theorem Reachable.paths_resolve (h : Reachable root v) :
    (∀ id, v.session.Attached id → resolve (v.session.path id) v.session = .ok id v.session) ∧
      (∀ q, v.session.Resolved q) ∧
      (∀ a b, v.session.Attached a → v.session.Attached b →
        v.session.path a = v.session.path b → a = b) ∧
      v.session.root = root ∧
      (v.detached = 0 → ∀ id ∈ v.handles, v.session.Attached id) ∧
      (v.detached = 0 → root.size ≤ Arena.capacity → ¬ v.session.Crowded) := by
  have hv := h.sound
  have hs := hv.reached.coherent
  refine ⟨fun _ => resolve_path hs, resolved hv.reached.grounded, fun _ _ => eq_of_path_eq hs,
    hv.root, ?_, ?_⟩
  · intro hzero id hid
    exact attached_of_strays (hv.strays hzero) (hv.handles id hid)
  · intro hzero hroom
    rw [Crowded, hv.root, hv.strays hzero]
    exact Nat.not_lt.mpr hroom

end Visit

namespace Sample

theorem visit_resolves : Visit.Reachable assignment visit ∧
    Session.resolve ⟨[2, 0]⟩ visit.session = .ok 2 visit.session ∧
    visit.session.Resolved [2, 0, 1] ∧ visit.session.unplaced [2, 0, 1] = [] := by
  have hs := visit_reachable.sound.reached.coherent
  obtain ⟨hfound, hresolved, -⟩ := visit_reachable.paths_resolve
  have h := hfound 2 (visit_at.attached hs)
  rw [visit_at.path_eq hs] at h
  exact ⟨visit_reachable, h, hresolved _, by decide +kernel⟩

end Sample

end LosslessSyntax
