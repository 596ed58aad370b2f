import LosslessSyntax.Proofs.Edit.Validate
import LosslessSyntax.Proofs.Session.Derived
import LosslessSyntax.Proofs.Session.Ends
import LosslessSyntax.Proofs.Text.Tiling

namespace LosslessSyntax

namespace Green

variable {g m : Green} {q : List Nat}

theorem tiled_children_from (hg : g.WellFormed) (hm : g.descend? q = some m)
    (hn : m.isNode = true) (count front : Nat) (hcount : front + count = m.children.length) :
    TextRange.Tiled (g.rangeAt q).stop (g.offsetAt q + widths (m.children.take front))
      ((List.range' front count).map fun i => g.rangeAt (q ++ [i])) := by
  induction count generalizing front with
  | zero =>
      have hall : m.children.take front = m.children := List.take_of_length_le (by omega)
      have hstop : g.offsetAt q + g.widthAt q = g.offsetAt q + widths m.children := by
        rw [widthAt_eq hm, (hg.of_descend? hm).widths_children hn]
      rw [hall, ← hstop]
      exact .nil
  | succ count ih =>
      have hc : m.child? front = some m.children[front] := List.getElem?_eq_getElem (by omega)
      have hstart : (g.rangeAt (q ++ [front])).start =
          g.offsetAt q + widths (m.children.take front) := offsetAt_concat hm hc
      have hstop : g.offsetAt (q ++ [front]) + g.widthAt (q ++ [front]) =
          g.offsetAt q + widths (m.children.take (front + 1)) := by
        rw [offsetAt_concat hm hc, widthAt_eq ((descend?_concat hm front).trans hc),
          widths_take_succ hc, Nat.add_assoc]
      have hrest := ih (front + 1) (by omega)
      rw [← hstop] at hrest
      rw [← hstart, List.range'_succ, List.map_cons]
      exact .cons _ hrest

theorem tiled_children (hg : g.WellFormed) (hm : g.descend? q = some m) (hn : m.isNode = true) :
    TextRange.Tiled (g.rangeAt q).stop (g.rangeAt q).start
      ((List.range' 0 m.children.length).map fun i => g.rangeAt (q ++ [i])) :=
  tiled_children_from hg hm hn m.children.length 0 (Nat.zero_add _)

theorem covers_rangeAt {n : Green} {r : List Nat} (hg : g.WellFormed) (hm : g.descend? q = some m)
    (hn : g.descend? r = some n) (hp : q <+: r) : (g.rangeAt q).covers (g.rangeAt r) = true := by
  obtain ⟨is, rfl⟩ := hp
  have hin : m.descend? is = some n := by
    rwa [descend?_append, hm, Option.bind_some] at hn
  have hle := offsetAt_add_width_le (hg.of_descend? hm) hin
  rw [TextRange.covers, Bool.and_eq_true, decide_eq_true_eq, decide_eq_true_eq]
  simp only [rangeAt, offsetAt_append hm, widthAt_eq hm, widthAt_eq hn]
  omega

end Green

namespace Session

variable {s t : Session} {q : List Nat} {id : Nat} {m : Green}

def Spans (s : Session) (id : Nat) (r : TextRange) : Prop :=
  ∃ p, s.placements[id]? = some p ∧ p.textRange = .ok r

theorem At.spans (hs : s.Coherent) (hroot : s.root.WellFormed) (h : s.At q id) :
    s.Spans id (s.root.rangeAt q) := by
  obtain ⟨p, hp, hm, ho⟩ := h.holds hs hroot
  obtain ⟨p', hp', -, hrange⟩ := Edit.textRange_of_holds hroot hm ⟨p, hp, rfl, ho⟩
  exact ⟨p', hp', hrange⟩

structure Divided (s : Session) (id : Nat) (ids : List Nat) (t : Session) : Prop where
  grown : Extends s t
  paths : ∃ p, s.placements[id]? = some p ∧
    ids.map t.path = (List.range' 0 p.green.children.length).map (s.path id).child
  ranges : ∃ r rs, t.Spans id r ∧ List.Forall₂ t.Spans ids rs ∧ TextRange.Tiled r.stop r.start rs

theorem divided_of_at (hs : s.Reached) (hst : Explored s t) (h : s.At q id) {p : Placement}
    (hp : s.placements[id]? = some p) (hm : s.root.descend? q = some p.green)
    (hn : p.isNode = true) {ids : List Nat}
    (hids : t.Given q ids (List.range' 0 p.green.children.length)) : Divided s id ids t := by
  have ht := hst.coherent
  have hroot : t.root.WellFormed := hst.grown.root ▸ hs.root_wellFormed
  have htiled := Green.tiled_children hroot (hst.grown.root ▸ hm) hn
  refine ⟨hst.grown, ⟨p, hp, ?_⟩, _, _, (h.mono hst.grown).spans ht hroot, ?_, htiled⟩
  · rw [h.path_eq hs.coherent]
    exact hids.map_eq fun _ _ hat => hat.path_eq ht
  · rw [List.forall₂_map_right_iff]
    exact List.Forall₂.imp (fun _ _ hat => hat.spans ht hroot) hids

theorem drain_cases (hs : s.Reached) (h : s.At q id) {p : Placement}
    (hp : s.placements[id]? = some p) (hn : p.isNode = true) :
    (∃ ids t, (ChildQueue.ofNode id >>= ChildQueue.drain ChildQueue.next) s = .ok ids t ∧
        Divided s id ids t) ∨
      (Arena.capacity < s.root.size + s.strays ∧
        ∃ t, (ChildQueue.ofNode id >>= ChildQueue.drain ChildQueue.next) s =
          .error (.aborted .arenaFull) t) := by
  obtain ⟨p', hp', hm, -⟩ := h.holds hs.coherent hs.root_wellFormed
  obtain rfl := Option.some.inj (hp.symm.trans hp')
  have hqueue : (ChildQueue.ofNode id >>= ChildQueue.drain ChildQueue.next) s =
      ChildQueue.takeAll ChildQueue.next p.green.children.length
        ⟨id, 0, p.green.children.length, Nat.zero_le _⟩ s := by
    have hopen : ChildQueue.ofNode id s = .ok ⟨id, 0, p.green.children.length, Nat.zero_le _⟩ s :=
      Nav.bind_ok (Nav.placement_eq hp)
    rw [Nav.bind_ok hopen]
    rfl
  have hleft : ChildrenLeft id p.green.children.length ⟨id, 0, p.green.children.length, Nat.zero_le _⟩
      (List.range' 0 p.green.children.length) := ⟨rfl, Nat.le_refl _, rfl⟩
  rw [hqueue]
  cases Takes.takeAll takes_next Ends.orderly_next ⟨hs.grounded, h, hm⟩ hleft
    (Nat.le_of_eq List.length_range') with
  | @answer ids t he hst hids =>
      exact .inl ⟨ids, t, he, divided_of_at hs hst h hp hm hn hids.1⟩
  | @full t hfull he => exact .inr ⟨hfull, t, he⟩

structure Ordered (p q : Path) (r u : TextRange) : Prop where
  inside : p.isPrefixOf q = true → r.covers u = true
  before : compare p q = .lt → p.isPrefixOf q = false → r.stop ≤ u.start
  apart : r.sharesByte u = true → p.isPrefixOf q = true ∨ q.isPrefixOf p = true

theorem ordered_of_descend? {g m n : Green} {p q : Path} (hg : g.WellFormed)
    (hm : g.descend? p.indices = some m) (hn : g.descend? q.indices = some n) :
    Ordered p q (g.rangeAt p.indices) (g.rangeAt q.indices) := by
  refine ⟨?_, ?_, ?_⟩
  · intro hp
    exact Green.covers_rangeAt hg hm hn (Path.isPrefixOf_iff.mp hp)
  · intro hlt hp
    have hp : ¬ p.indices <+: q.indices := by
      intro h
      exact Bool.false_ne_true (hp.symm.trans (Path.isPrefixOf_iff.mpr h))
    have hwidth := Green.widthAt_eq hm
    have hle := Green.offsetAt_add_width_le_offsetAt hg hm hn (Path.compare_eq_lt_iff.mp hlt) hp
    simp only [Green.rangeAt, hwidth]
    exact hle
  · intro hshare
    by_contra h
    rw [not_or, Path.isPrefixOf_iff, Path.isPrefixOf_iff] at h
    have hnot := Green.not_sharesByte_rangeAt hg (Option.isSome_iff_exists.mpr ⟨m, hm⟩)
      (Option.isSome_iff_exists.mpr ⟨n, hn⟩) h.1 h.2
    exact Bool.false_ne_true (hnot.symm.trans hshare)

theorem Reached.text_order (hs : s.Reached) :
    (∀ id jd, s.Attached id → s.Attached jd →
      ∃ r u, s.Spans id r ∧ s.Spans jd u ∧ Ordered (s.path id) (s.path jd) r u) ∧
      ∀ id p, s.Attached id → s.placements[id]? = some p → p.isNode = true →
        (∃ ids t, (ChildQueue.ofNode id >>= ChildQueue.drain ChildQueue.next) s = .ok ids t ∧
            Divided s id ids t) ∨
          (Arena.capacity < s.root.size + s.strays ∧
            ∃ t, (ChildQueue.ofNode id >>= ChildQueue.drain ChildQueue.next) s =
              .error (.aborted .arenaFull) t) := by
  have hroot := hs.root_wellFormed
  refine ⟨?_, ?_⟩
  · intro id jd hid hjd
    have hat := hid.at_path hs.coherent
    have hat' := hjd.at_path hs.coherent
    obtain ⟨p, -, hm, -⟩ := hat.holds hs.coherent hroot
    obtain ⟨p', -, hm', -⟩ := hat'.holds hs.coherent hroot
    exact ⟨_, _, hat.spans hs.coherent hroot, hat'.spans hs.coherent hroot,
      ordered_of_descend? hroot hm hm'⟩
  · intro id p hid hp hn
    exact drain_cases hs (hid.at_path hs.coherent) hp hn

end Session

namespace Sample

theorem visit_ordered : visit.session.Reached ∧
    ∃ r u, visit.session.Spans Session.rootId r ∧ visit.session.Spans 2 u ∧
      Session.Ordered ⟨[]⟩ ⟨[2, 0]⟩ r u := by
  have hs := visit_reachable.sound.reached
  have hroot : visit.session.At [] Session.rootId := .root
  have h := hs.text_order.1 _ _ (hroot.attached hs.coherent) (visit_at.attached hs.coherent)
  rw [hroot.path_eq hs.coherent, visit_at.path_eq hs.coherent] at h
  exact ⟨hs, h⟩

end Sample

end LosslessSyntax
