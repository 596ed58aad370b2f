import LosslessSyntax.Proofs.Workbench.Handles

namespace LosslessSyntax

namespace Edit

theorem above_nil {edits : List Edit} (hne : edits ≠ [])
    (hroots : ∀ e ∈ edits, e.path.isRoot = false) : Above edits [] := by
  obtain ⟨e, he⟩ := List.exists_mem_of_ne_nil edits hne
  refine ⟨e, he, List.nil_prefix, fun hnil => ?_⟩
  exact Bool.false_ne_true ((hroots e he).symm.trans (isRoot_iff.mpr hnil.symm))

def Untouched (edits : List Edit) (q : List Nat) : Prop :=
  ∀ e ∈ edits, Path.Apart e.path.indices q

end Edit

namespace Session

structure Unequal (s : Session) (i : Nat) (t : Session) (j : Nat) : Prop where
  equivalent : s.equivalent i t j = false
  equivalent' : t.equivalent j s i = false
  equalElements : s.equalElements i t j = false
  equalElements' : t.equalElements j s i = false

variable {s t new : Session} {edits : List Edit} {supply rest : Supply} {i j : Nat}

theorem equivalent_of_root (hs : s.Coherent) (ht : t.Coherent) (hst : s.stamp ≠ t.stamp)
    (hroot : s.root.same t.root = false) (hi : s.Attached i) (hj : t.Attached j) :
    s.equivalent i t j = false := by
  have hati := hi.at_path hs
  have hatj := hj.at_path ht
  obtain ⟨p, hp⟩ := hati.exists_placement hs
  obtain ⟨r, hr⟩ := hatj.exists_placement ht
  obtain ⟨ps, hps⟩ := exists_chain hs hp
  obtain ⟨rs, hrs⟩ := exists_chain ht hr
  by_contra h
  have hall := (equivalent_iff_forall₂ hs ht (fun heq => absurd heq hst) hps hrs).mp
    (Bool.eq_true_of_not_eq_false h)
  have hsame := root_same_of_forall₂ hs ht hati hatj hps hrs hall
  exact Bool.false_ne_true (hroot.symm.trans hsame)

theorem unequal_of_root (hs : s.Coherent) (ht : t.Coherent) (hst : s.stamp ≠ t.stamp)
    (hroot : s.root.same t.root = false) (hi : s.Attached i) (hj : t.Attached j) :
    s.Unequal i t j := by
  have hequivalent := equivalent_of_root hs ht hst hroot hi hj
  have hequivalent' := equivalent_of_root ht hs hst.symm (Green.same_comm _ _ ▸ hroot) hj hi
  refine ⟨hequivalent, hequivalent', ?_, ?_⟩
  · rw [equalElements, hequivalent, Bool.and_false]
  · rw [equalElements, hequivalent', Bool.and_false]

theorem root_renewed (hs : s.Sound supply) (hne : edits ≠ [])
    (hroots : ∀ e ∈ edits, e.path.isRoot = false)
    (h : Substitution s.root edits supply new rest) : s.root.same new.root = false := by
  obtain ⟨-, m', -, hm', -, hnew⟩ := h.rebuilt [] (Edit.above_nil hne hroots)
  obtain rfl := Option.some.inj hm'
  exact (Green.same_comm _ _).trans (hnew s.root (hs.root.before (Green.descend?_nil s.root)))

end Session

namespace Workbench

variable {w : Workbench} {s t new : Session} {edits : List Edit} {rest : Supply}

theorem Reachable.edited_apart (h : w.Reachable) (hs : s ∈ w.sessions)
    (hr : ∀ e ∈ edits, e.replacement ∈ w.elements) (hne : edits ≠ [])
    (hroots : ∀ e ∈ edits, e.path.isRoot = false)
    (happly : Session.apply edits w.supply s = .ok (new, rest) t) :
    ∀ before after : Session, before.Coherent → after.Coherent →
      Session.Extends s before → Session.Extends new after →
      (∀ i j, before.Attached i → after.Attached j → before.Unequal i after j) ∧
        ∀ q, Edit.Untouched edits q →
          after.root.descend? q = before.root.descend? q ∧
          ∀ i j p u, before.At q i → after.At q j → before.placements[i]? = some p →
            after.placements[j]? = some u → p.green.same u.green = true := by
  intro before after hbefore hafter hold hnew
  have hsound := h.sound.sessions s hs
  have happlied := hsound.apply (fun e he => h.sound.elements _ (hr e he)) happly
  have hsubst := Session.substitution_of_apply hsound.reached (Nav.answer_of_ok happly)
  have hstamp : s.stamp ≠ new.stamp := by
    have hlow := (Session.drawnFrom_of_apply hsound.reached happly).1
    have hlt := h.apart.before s.stamp (List.mem_map_of_mem hs)
    exact Nat.ne_of_lt (Nat.lt_of_lt_of_le hlt hlow)
  have hroot := Session.root_renewed hsound hne hroots hsubst
  refine ⟨fun i j hi hj => ?_, fun q hq => ⟨?_, ?_⟩⟩
  · refine Session.unequal_of_root hbefore hafter ?_ ?_ hi hj
    · rwa [hold.stamp, hnew.stamp]
    · rwa [hold.root, hnew.root]
  · rw [hold.root, hnew.root, hsubst.shared q hq]
  · intro i j p u hi hj hp hu
    obtain ⟨p', hp', hm, -⟩ := hi.holds hbefore (hold.root ▸ hsound.root.wellFormed)
    obtain ⟨u', hu', hm', -⟩ := hj.holds hafter (hnew.root ▸ happlied.after.root.wellFormed)
    obtain rfl := Option.some.inj (hp.symm.trans hp')
    obtain rfl := Option.some.inj (hu.symm.trans hu')
    rw [hold.root] at hm
    rw [hnew.root, hsubst.shared q hq, hm, Option.some.injEq] at hm'
    exact hm' ▸ Green.same_refl p.green

end Workbench

namespace Sample

def rename : List Edit := [.atPath ⟨[0]⟩ (token 0 .identifierToken 3)]

def restated : Green := node 5 .expressionStatement statement.children

def renamed : Session := ⟨6, restated, #[Placement.make restated 0 none 0]⟩

def renamedName : Session := renamed.withChild (token 0 .identifierToken 3) 0 Session.rootId 0

theorem rename_accepted :
    Session.apply rename ⟨5⟩ (named 3) = .ok (renamed, ⟨7⟩) (named 3) := by
  with_unfolding_all rfl

theorem after_child_renamed : Nav.after (Session.child Session.rootId 0) renamed = renamedName :=
  have hroom : 1 < Arena.capacity := by decide
  have hchild : Session.child 0 0 renamed = _ :=
    Session.child_of_room rfl rfl rfl (Nat.zero_le _) hroom
  Nav.after_of_ok hchild

theorem names_apart : twice.Reachable ∧
    Session.apply rename ⟨5⟩ (named 3) = .ok (renamed, ⟨7⟩) (named 3) ∧
    ((named 3).placements[1]?.map fun p => (p.green, p.offset)) =
      (renamedName.placements[1]?.map fun p => (p.green, p.offset)) ∧
    (named 3).Attached 1 ∧ renamedName.Attached 1 ∧ (named 3).Unequal 1 renamedName 1 := by
  have hs : named 3 ∈ twice.sessions := by simp [twice]
  have hsound := twice_reachable.sound.sessions _ hs
  have hreplacement : ∀ e ∈ rename, e.replacement ∈ twice.elements :=
    List.forall_mem_singleton.mpr (List.mem_of_getElem? (i := 2) rfl)
  have happlied := hsound.apply (fun e he => twice_reachable.sound.elements _ (hreplacement e he))
    rename_accepted
  have hmove : renamed.Move (fun _ => True) renamedName := after_child_renamed ▸ .child _ _
  obtain ⟨hcoherent, hextends⟩ := happlied.after.reached.coherent.move hmove
  have hname : renamedName.At [0] 1 :=
    .child (p := Placement.make (token 0 .identifierToken 3) 0 (some 0) 0) .root rfl rfl
  have hbefore := (name_at 3).attached hsound.reached.coherent
  have hafter := hname.attached hcoherent
  obtain ⟨hunequal, -⟩ := twice_reachable.edited_apart hs hreplacement (by decide) (by decide)
    rename_accepted (named 3) renamedName hsound.reached.coherent hcoherent (.refl _) hextends
  exact ⟨twice_reachable, rename_accepted, rfl, hbefore, hafter, hunequal 1 1 hbefore hafter⟩

end Sample

end LosslessSyntax
