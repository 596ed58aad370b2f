import LosslessSyntax.Proofs.Green.Listing
import LosslessSyntax.Proofs.Session.Lineage
import LosslessSyntax.Proofs.Session.Reached
import Mathlib.Data.List.Induction

namespace LosslessSyntax

namespace Session

structure Explored (s t : Session) : Prop where
  coherent : t.Coherent
  grown : Extends s t
  strays_eq : t.strays = s.strays

structure Confined (qs : List (List Nat)) (s : Session) : Prop where
  coherent : s.Coherent
  wellFormed : s.root.WellFormed
  placed : ∀ q ∈ s.placed, q ∈ qs
  room : s.strays + qs.length ≤ Arena.capacity

variable {s t u : Session} {q r : List Nat} {qs : List (List Nat)} {id cid i : Nat} {m c : Green}

theorem Explored.refl (hs : s.Coherent) : Explored s s := ⟨hs, .refl s, rfl⟩

theorem Explored.trans (h : Explored s t) (h' : Explored t u) : Explored s u :=
  ⟨h'.coherent, h.grown.trans h'.grown, h'.strays_eq.trans h.strays_eq⟩

theorem At.of_extends (hs : s.Coherent) (ht : t.Coherent) (hst : Extends s t) (h : t.At q id)
    (hid : id < s.placements.size) : s.At q id := by
  have hp := Array.getElem?_eq_getElem hid
  have hold := ((attached_iff_of_extends hs ht hst hp).mp (h.attached ht)).at_path hs
  rwa [(hold.mono hst).path_unique ht h] at hold

theorem At.exists_of_append (hs : s.Coherent) (h : s.At (q ++ r) id) : ∃ a, s.At q a := by
  induction r using List.reverseRecOn generalizing id with
  | nil => exact ⟨id, List.append_nil q ▸ h⟩
  | append_singleton r i ih =>
      rw [← List.append_assoc] at h
      obtain ⟨a, -, ha, -⟩ := h.of_concat hs
      exact ih ha

theorem not_mem_placed_of_memo (hs : s.Coherent) (h : s.At q id) {p : Placement}
    (hp : s.placements[id]? = some p) (hm : p.memo[i]? = some none) : q ++ [i] ∉ s.placed := by
  intro hmem
  obtain ⟨cid, hc⟩ := (mem_placed_iff hs).mp hmem
  obtain ⟨a, r, ha, hr, hparent, rfl⟩ := hc.of_concat hs
  obtain rfl := ha.id_unique hs h
  obtain ⟨-, p', -, hp', -, -, hmemo⟩ := hs.below hr hparent
  obtain rfl := Option.some.inj (hp.symm.trans hp')
  exact nomatch hm.symm.trans hmemo

theorem explored_withChild (hs : s.Coherent) (h : s.At q id) {p : Placement} {start : Nat}
    (hp : s.placements[id]? = some p) (hm : p.memo[i]? = some none)
    (hslot : p.green.slot? i = some (start, c)) :
    Explored s (s.withChild c (p.offset + start) id i) ∧
      (s.withChild c (p.offset + start) id i).At (q ++ [i]) s.placements.size ∧
      ∀ r ∈ (s.withChild c (p.offset + start) id i).placed, r ∈ s.placed ∨ r = q ++ [i] := by
  have ht := hs.withChild hp hm hslot
  have hst := Extends.withChild hp hm c (p.offset + start)
  have hsize : (s.withChild c (p.offset + start) id i).placements.size =
      s.placements.size + 1 := by
    rw [withChild, Array.size_modify, Array.size_push]
  have hnew : (s.withChild c (p.offset + start) id i).At (q ++ [i]) s.placements.size :=
    .child (h.mono hst) (withChild_new hp) rfl
  refine ⟨⟨ht, hst, ?_⟩, hnew, ?_⟩
  · rw [strays_of_grown hs ht hst hsize, if_pos (hnew.attached ht), Nat.add_zero]
  · intro r hr
    obtain ⟨rid, hrid⟩ := (mem_placed_iff ht).mp hr
    by_cases hold : rid < s.placements.size
    · exact .inl ((mem_placed_iff hs).mpr ⟨rid, hrid.of_extends hs ht hst hold⟩)
    · have hlt := hrid.lt_size ht
      obtain rfl : rid = s.placements.size := by omega
      exact .inr (hrid.path_unique ht hnew)

theorem child_cases (hs : s.Coherent) (hroot : s.root.WellFormed) (h : s.At q id)
    (hm : s.root.descend? q = some m) (i : Nat) :
    (m.child? i = none ∧ child id i s = .ok none s) ∨
      ∃ c, m.child? i = some c ∧
        ((∃ cid t, child id i s = .ok (some cid) t ∧ Explored s t ∧ t.At (q ++ [i]) cid ∧
            ∀ r ∈ t.placed, r ∈ s.placed ∨ r = q ++ [i]) ∨
          (Arena.capacity ≤ s.placements.size ∧ q ++ [i] ∉ s.placed ∧
            child id i s = .error (.aborted .arenaFull) s)) := by
  obtain ⟨p, hp, hg, ho⟩ := h.holds hs hroot
  obtain rfl := Option.some.inj (hm.symm.trans hg)
  have hsize := hs.memo_size hp
  have hwf := hroot.of_descend? hm
  cases hc : p.green.child? i with
  | none =>
      have hi : p.green.children.length ≤ i := List.getElem?_eq_none_iff.mp hc
      exact .inl ⟨rfl, child_of_outside hp (Array.getElem?_eq_none_iff.mpr (hsize ▸ hi))⟩
  | some c =>
      refine .inr ⟨c, rfl, ?_⟩
      have hi : i < p.green.children.length := (List.getElem?_eq_some_iff.mp hc).1
      have hslot : p.green.slot? i = some (Green.widths (p.green.children.take i), c) := by
        rw [hwf.slot?_eq, hc, Option.map_some]
      rcases hmemo : p.memo[i]? with _ | _ | cid
      · exact absurd (Array.getElem?_eq_none_iff.mp hmemo) (by omega)
      · have hfits := Green.offsetAt_add_width_le hroot hm
        have hchild := Green.widths_take_child_le hwf hc
        have hmax := hroot.width_le
        have he := child_of_slot hp hmemo hslot
        rw [if_neg (by omega)] at he
        split at he
        · exact .inl ⟨_, _, he, explored_withChild hs h hp hmemo hslot⟩
        · rename_i hadmits
          rw [Arena.admits_iff, Nat.not_lt] at hadmits
          exact .inr ⟨hadmits, not_mem_placed_of_memo hs h hp hmemo, he⟩
      · obtain ⟨r, hr, hparent, rfl⟩ := hs.memoized hp hmemo
        exact .inl ⟨cid, s, child_of_memo hp hmemo, .refl hs, .child h hr hparent,
          fun _ hr => .inl hr⟩

theorem child_of_ok (hs : s.Coherent) (hroot : s.root.WellFormed) (h : s.At q id)
    (hok : child id i s = .ok (some cid) t) : Explored s t ∧ t.At (q ++ [i]) cid := by
  obtain ⟨p, -, hm, -⟩ := h.holds hs hroot
  rcases child_cases hs hroot h hm i with
    ⟨-, he⟩ | ⟨c, -, ⟨cid', t', he, hst, hat, -⟩ | ⟨-, -, he⟩⟩
  · exact nomatch hok.symm.trans he
  · cases hok.symm.trans he
    exact ⟨hst, hat⟩
  · exact nomatch hok.symm.trans he

section Opened

variable {root : Green} {supply rest : Supply} {new : Session}

theorem size_of_ofRoot (ho : ofRoot root supply = .ok (new, rest)) : new.placements.size = 1 := by
  cases ho
  rfl

theorem eq_nil_of_mem_placed_ofRoot (ho : ofRoot root supply = .ok (new, rest))
    (hq : q ∈ new.placed) : q = [] := by
  obtain ⟨hnew, -⟩ := coherent_of_ofRoot ho
  have hsize := size_of_ofRoot ho
  obtain ⟨id, h⟩ := (mem_placed_iff hnew).mp hq
  have hlt := h.lt_size hnew
  obtain rfl : id = rootId := by
    rw [rootId]
    omega
  exact h.path_unique hnew .root

theorem strays_of_ofRoot (ho : ofRoot root supply = .ok (new, rest)) : new.strays = 0 := by
  obtain ⟨hnew, -⟩ := coherent_of_ofRoot ho
  have hsize := size_of_ofRoot ho
  have hpos := List.length_pos_of_mem ((mem_placed_iff hnew).mpr ⟨rootId, .root⟩)
  have hsplit := new.length_placed_add_strays
  omega

end Opened

theorem placed_subset (hs : s.Coherent) (hroot : s.root.WellFormed) : s.placed ⊆ s.root.paths := by
  intro q hq
  obtain ⟨id, h⟩ := (mem_placed_iff hs).mp hq
  obtain ⟨p, -, hm, -⟩ := h.holds hs hroot
  exact Green.mem_paths_iff.mpr (Option.isSome_iff_exists.mpr ⟨_, hm⟩)

namespace Confined

theorem of_explored (hs : Confined qs s) (hst : Explored s t) (h : ∀ q ∈ t.placed, q ∈ qs) :
    Confined qs t :=
  ⟨hst.coherent, hst.grown.root ▸ hs.wellFormed, h, hst.strays_eq ▸ hs.room⟩

theorem of_fits (hs : s.Reached) (hroom : s.root.size + s.strays ≤ Arena.capacity) :
    Confined s.root.paths s := by
  have hplaced := placed_subset hs.coherent hs.root_wellFormed
  refine ⟨hs.coherent, hs.root_wellFormed, fun _ hq => hplaced hq, ?_⟩
  rwa [Green.length_paths, Nat.add_comm]

theorem of_later (hs : s.Reached) (hst : Explored s t) (ht : t.placements.size ≤ Arena.capacity) :
    Confined t.placed s := by
  refine ⟨hs.coherent, hs.root_wellFormed, ?_, ?_⟩
  · intro q hq
    obtain ⟨id, h⟩ := (mem_placed_iff hs.coherent).mp hq
    exact (mem_placed_iff hst.coherent).mpr ⟨id, h.mono hst.grown⟩
  · have hsplit := t.length_placed_add_strays
    have hstrays := hst.strays_eq
    omega

theorem of_opened {root : Green} {supply rest : Supply}
    (ho : ofRoot root supply = .ok (s, rest)) (hroot : root.WellFormed) (hnil : [] ∈ qs)
    (hroom : qs.length ≤ Arena.capacity) : Confined qs s := by
  obtain ⟨hs, rfl⟩ := coherent_of_ofRoot ho
  refine ⟨hs, hroot, fun q hq => eq_nil_of_mem_placed_ofRoot ho hq ▸ hnil, ?_⟩
  rwa [strays_of_ofRoot ho, Nat.zero_add]

theorem size_lt (hs : Confined qs s) (hq : q ∈ qs) (hnew : q ∉ s.placed) :
    s.placements.size < Arena.capacity := by
  have hnodup : (q :: s.placed).Nodup := List.nodup_cons.mpr ⟨hnew, nodup_placed hs.coherent⟩
  have hle := (List.subperm_of_subset hnodup (List.cons_subset.mpr ⟨hq, hs.placed⟩)).length_le
  have hsplit := s.length_placed_add_strays
  have hroom := hs.room
  rw [List.length_cons] at hle
  omega

theorem child (hs : Confined qs s) (h : s.At q id) (hm : s.root.descend? q = some m)
    (hc : m.child? i = some c) (hq : q ++ [i] ∈ qs) :
    ∃ cid t, Session.child id i s = .ok (some cid) t ∧ Explored s t ∧ Confined qs t ∧
      t.At (q ++ [i]) cid := by
  rcases child_cases hs.coherent hs.wellFormed h hm i with
    ⟨hnone, -⟩ | ⟨c', -, ⟨cid, t, he, hst, hat, hplaced⟩ | ⟨hfull, hnew, -⟩⟩
  · exact nomatch hc.symm.trans hnone
  · refine ⟨cid, t, he, hst, hs.of_explored hst ?_, hat⟩
    intro r hr
    rcases hplaced r hr with hr | rfl
    · exact hs.placed r hr
    · exact hq
  · exact absurd (hs.size_lt hq hnew) (Nat.not_lt.mpr hfull)

theorem descendFrom (hs : Confined qs s) (h : s.At q id) {is : List Nat}
    (hm : s.root.descend? (q ++ is) = some m) (hqs : ∀ k ≤ is.length, q ++ is.take k ∈ qs)
    (path : Path) (depth : Nat) :
    ∃ cid t, Session.descendFrom path depth id is s = .ok cid t ∧ Explored s t ∧
      Confined qs t ∧ t.At (q ++ is) cid := by
  induction is generalizing s q id depth with
  | nil => exact ⟨id, s, rfl, .refl hs.coherent, hs, (List.append_nil q).symm ▸ h⟩
  | cons i is ih =>
      obtain ⟨p, -, hg, -⟩ := h.holds hs.coherent hs.wellFormed
      rw [Green.descend?_append, hg, Option.bind_some] at hm
      obtain ⟨c, hc, hrest⟩ := Green.descend?_cons_eq_some_iff.mp hm
      have hq : q ++ [i] ∈ qs := by simpa using hqs 1 (by simp)
      obtain ⟨cid, t, he, hst, ht, hat⟩ := hs.child h hg hc hq
      have hm' : t.root.descend? (q ++ [i] ++ is) = some m := by
        rw [hst.grown.root, Green.descend?_append, Green.descend?_concat hg, hc, Option.bind_some,
          hrest]
      have hqs' : ∀ k ≤ is.length, q ++ [i] ++ is.take k ∈ qs := by
        intro k hk
        simpa using hqs (k + 1) (by simpa using hk)
      obtain ⟨mid, u, hu, htu, hu', hmid⟩ := ih ht hat hm' hqs' (depth + 1)
      rw [List.append_assoc, List.singleton_append] at hmid
      exact ⟨mid, u, (Nav.bind_ok he).trans hu, hst.trans htu, hu', hmid⟩

theorem resolve (hs : Confined qs s) {path : Path} (hm : s.root.descend? path.indices = some m)
    (hqs : ∀ r, r <+: path.indices → r ∈ qs) :
    ∃ id t, Session.resolve path s = .ok id t ∧ Explored s t ∧ Confined qs t ∧
      t.At path.indices id :=
  hs.descendFrom .root hm (fun k _ => hqs _ (List.take_prefix k path.indices)) path 0

end Confined

theorem explored_of_descendFrom (hs : s.Coherent) (hroot : s.root.WellFormed) (h : s.At q id)
    {path : Path} {depth : Nat} {is : List Nat}
    (hok : descendFrom path depth id is s = .ok cid t) : Explored s t ∧ t.At (q ++ is) cid := by
  induction is generalizing s q id depth with
  | nil =>
      cases hok
      exact ⟨.refl hs, (List.append_nil q).symm ▸ h⟩
  | cons i is ih =>
      obtain ⟨found, u, hchild, hrest⟩ := Nav.bind_eq_ok_iff.mp hok
      cases found with
      | none => exact nomatch hrest
      | some c =>
          obtain ⟨hsu, hat⟩ := child_of_ok hs hroot h hchild
          obtain ⟨hut, hcid⟩ := ih hsu.coherent (hsu.grown.root ▸ hroot) hat hrest
          rw [List.append_assoc, List.singleton_append] at hcid
          exact ⟨hsu.trans hut, hcid⟩

theorem explored_of_resolve (hs : s.Reached) {path : Path} (hok : resolve path s = .ok id t) :
    Explored s t ∧ t.At path.indices id :=
  explored_of_descendFrom hs.coherent hs.root_wellFormed .root hok

end Session

end LosslessSyntax
