import LosslessSyntax.Edit
import LosslessSyntax.Proofs.Green.WellFormed
import LosslessSyntax.Proofs.Session.Arena
import LosslessSyntax.Proofs.Session.Coherent
import Mathlib.Logic.Relation

namespace LosslessSyntax

namespace Session

/-- `allowed` are the elements that may be placed detached. -/
inductive Move (allowed : Green → Prop) (s : Session) : Session → Prop
  | child (parent index : Nat) : Move allowed s (Nav.after (Session.child parent index) s)
  | detached (green : Green) (offset : Nat) :
      allowed green → Move allowed s (Nav.after (placeDetached green offset) s)

inductive Reached : Session → Prop
  | opened {root : Green} {supply rest : Supply} {s : Session} :
      root.WellFormed → root.isNode = true → ofRoot root supply = .ok (s, rest) → Reached s
  | moved {s t : Session} : Reached s → Move (fun _ => True) s t → Reached t

theorem Move.mono {P Q : Green → Prop} {s t : Session} (h : Move P s t) (hPQ : ∀ g, P g → Q g) :
    Move Q s t := by
  cases h with
  | child parent index => exact .child parent index
  | detached green offset hgreen => exact .detached green offset (hPQ green hgreen)

theorem after_child (s : Session) (parent index : Nat) :
    Nav.after (child parent index) s = s ∨
      ∃ p start green, s.placements[parent]? = some p ∧ p.memo[index]? = some none ∧
        p.green.slot? index = some (start, green) ∧ s.placements.size < Arena.capacity ∧
        Nav.after (child parent index) s =
          s.withChild green (p.offset + start) parent index := by
  cases hp : s.placements[parent]? with
  | none =>
      left
      have he : child parent index s = .error (.aborted (.unknownPlacement parent)) s :=
        Nav.bind_error (Nav.placement_eq_error hp)
      exact Nav.after_of_error he
  | some p =>
      rcases hm : p.memo[index]? with _ | _ | id
      · exact .inl (Nav.after_of_ok (child_of_outside hp hm))
      · rcases hc : p.green.slot? index with _ | ⟨start, green⟩
        · exact .inl (Nav.after_of_ok (child_of_slot_none hp hm hc))
        · have he := child_of_slot hp hm hc
          split at he
          · exact .inl (Nav.after_of_error he)
          · split at he
            · rename_i hadmits
              exact .inr ⟨p, start, green, rfl, hm, hc, Arena.admits_iff.mp hadmits,
                Nav.after_of_ok he⟩
            · exact .inl (Nav.after_of_error he)
      · exact .inl (Nav.after_of_ok (child_of_memo hp hm))

theorem after_placeDetached (s : Session) (green : Green) (offset : Nat) :
    Nav.after (placeDetached green offset) s = s ∨
      s.placements.size < Arena.capacity ∧ Nav.after (placeDetached green offset) s =
        s.withPlacement (Placement.make green offset none 0) := by
  have he := allot_eq (Placement.make green offset none 0) s
  split at he
  · rename_i hadmits
    exact .inr ⟨Arena.admits_iff.mp hadmits, Nav.after_of_ok he⟩
  · exact .inl (Nav.after_of_error he)

theorem Coherent.move {allowed : Green → Prop} {s t : Session} (hs : s.Coherent)
    (h : Move allowed s t) : t.Coherent ∧ Extends s t := by
  cases h with
  | child parent index =>
      rcases after_child s parent index with he | ⟨p, start, green, hp, hm, hc, -, he⟩
      · rw [he]
        exact ⟨hs, .refl s⟩
      · rw [he]
        exact ⟨hs.withChild hp hm hc, .withChild hp hm green _⟩
  | detached green offset hgreen =>
      rcases after_placeDetached s green offset with he | ⟨-, he⟩
      · rw [he]
        exact ⟨hs, .refl s⟩
      · rw [he]
        exact ⟨hs.withDetached green offset, .withPlacement s _⟩

theorem Move.size_le {allowed : Green → Prop} {s t : Session} (h : Move allowed s t)
    (hs : s.placements.size ≤ Arena.capacity) :
    t.placements.size ≤ Arena.capacity := by
  cases h with
  | child parent index =>
      rcases after_child s parent index with he | ⟨p, start, green, -, -, -, hlt, he⟩
      · rwa [he]
      · rw [he, withChild, Array.size_modify, Array.size_push]
        exact hlt
  | detached green offset hgreen =>
      rcases after_placeDetached s green offset with he | ⟨hlt, he⟩
      · rwa [he]
      · rw [he, withPlacement, Array.size_push]
        exact hlt

structure Over (P : Green → Prop) (s : Session) : Prop where
  root : P s.root
  placed : ∀ {id : Nat} {p : Placement}, s.placements[id]? = some p → P p.green

theorem Over.mono {P Q : Green → Prop} {s : Session} (hs : s.Over P) (hPQ : ∀ g, P g → Q g) :
    s.Over Q :=
  ⟨hPQ _ hs.root, fun hp => hPQ _ (hs.placed hp)⟩

theorem Over.move {P : Green → Prop} (hP : ∀ g c : Green, P g → c ∈ g.children → P c)
    {s t : Session} (hs : s.Over P) (h : Move P s t) : t.Over P := by
  cases h with
  | child parent index =>
      rcases after_child s parent index with he | ⟨p, start, green, hp, hm, hslot, -, he⟩
      · rwa [he]
      · rw [he]
        refine ⟨hs.root, ?_⟩
        intro id q hq
        rcases withChild_cases hp hq with ⟨-, rfl⟩ | ⟨r, hr⟩
        · exact hP _ _ (hs.placed hp) (Green.mem_children_of_slot? hslot)
        · obtain ⟨memo, hold, -, -⟩ := withChild_old green (p.offset + start) hp hm hr
          obtain rfl := Option.some.inj (hq.symm.trans hold)
          exact (hs.placed hr :)
  | detached green offset hgreen =>
      rcases after_placeDetached s green offset with he | ⟨-, he⟩
      · rwa [he]
      · rw [he]
        refine ⟨hs.root, ?_⟩
        intro id q hq
        rcases withPlacement_cases hq with ⟨-, rfl⟩ | hq
        · exact hgreen
        · exact hs.placed hq

theorem eq_of_getElem?_singleton {p q : Placement} {id : Nat} (h : #[p][id]? = some q) :
    q = p := by
  cases id with
  | zero => exact (Option.some.inj h).symm
  | succ id => simp at h

theorem Over.of_ofRoot {P : Green → Prop} {root : Green} (hroot : P root) {supply rest : Supply}
    {s : Session} (h : ofRoot root supply = .ok (s, rest)) : s.Over P := by
  cases h
  refine ⟨hroot, ?_⟩
  intro id p hp
  obtain rfl := eq_of_getElem?_singleton hp
  exact hroot

theorem coherent_of_ofRoot {root : Green} {supply rest : Supply} {s : Session}
    (h : ofRoot root supply = .ok (s, rest)) : s.Coherent ∧ s.root = root := by
  cases h
  refine ⟨⟨⟨_, rfl, rfl, rfl, rfl⟩, ?_, ?_, ?_⟩, rfl⟩
  · intro id p hp
    obtain rfl := eq_of_getElem?_singleton hp
    exact Array.size_replicate
  · intro id a p hp ha
    obtain rfl := eq_of_getElem?_singleton hp
    exact nomatch ha
  · intro a i id q hq hm
    obtain rfl := eq_of_getElem?_singleton hq
    exact absurd hm (make_memo_ne_some _ _ _ _ _ _)

namespace Reached

variable {s : Session}

theorem invariant (h : s.Reached) :
    s.Coherent ∧ s.root.WellFormed ∧ s.root.isNode = true := by
  induction h with
  | opened hw hn ho =>
      obtain ⟨hs, rfl⟩ := coherent_of_ofRoot ho
      exact ⟨hs, hw, hn⟩
  | moved _ hmove ih =>
      obtain ⟨hs, hw, hn⟩ := ih
      obtain ⟨ht, hext⟩ := hs.move hmove
      exact ⟨ht, hext.root ▸ hw, hext.root ▸ hn⟩

theorem coherent (h : s.Reached) : s.Coherent := h.invariant.1

theorem root_wellFormed (h : s.Reached) : s.root.WellFormed := h.invariant.2.1

theorem root_isNode (h : s.Reached) : s.root.isNode = true := h.invariant.2.2

theorem size_le (h : s.Reached) : s.placements.size ≤ Arena.capacity := by
  induction h with
  | opened hw hn ho =>
      cases ho
      change 1 ≤ Arena.capacity
      decide
  | moved _ hmove ih => exact hmove.size_le ih

end Reached

end Session

namespace Nav

open Session

variable {α β : Type} {allowed : Green → Prop}

def Moving (allowed : Green → Prop) (m : Nav α) : Prop :=
  ∀ s, Relation.ReflTransGen (Move allowed) s (after m s)

theorem Moving.pure (a : α) : Moving allowed (pure a) := fun _ => .refl

theorem Moving.fail (e : Failure) : Moving allowed (fail e : Nav α) := fun _ => .refl

theorem Moving.ofExcept (r : Except Failure α) : Moving allowed (ofExcept r) := by
  intro s
  cases r <;> exact .refl

theorem Moving.placement (id : Nat) : Moving allowed (placement id) := by
  intro s
  rcases h : s.placements[id]? with _ | p
  · rw [after_of_error (placement_eq_error h)]
  · rw [after_of_ok (placement_eq h)]

theorem Moving.bind {m : Nav α} {f : α → Nav β} (hm : Moving allowed m)
    (hf : ∀ a, Moving allowed (f a)) : Moving allowed (m >>= f) := by
  intro s
  have hfirst := hm s
  cases h : m s with
  | ok a t =>
      rw [after_of_ok h] at hfirst
      rw [after, bind_ok h]
      exact hfirst.trans (hf a t)
  | error e t =>
      rw [after_of_error h] at hfirst
      rw [after, bind_error h]
      exact hfirst

theorem Moving.child (parent index : Nat) : Moving allowed (Session.child parent index) :=
  fun _ => .single (.child parent index)

theorem Moving.descendFrom (path : Path) (depth id : Nat) (is : List Nat) :
    Moving allowed (Session.descendFrom path depth id is) := by
  induction is generalizing depth id with
  | nil => exact Moving.pure id
  | cons i is ih =>
      refine (Moving.child id i).bind fun found => ?_
      cases found with
      | none => exact Moving.fail _
      | some c => exact ih (depth + 1) c

theorem Moving.resolveEdit (e : Edit) : Moving allowed e.resolve := by
  refine (Moving.descendFrom e.path 0 rootId e.path.indices).bind fun id => ?_
  refine (Moving.placement id).bind fun p => ?_
  have hrange : Moving allowed (Nav.ofExcept p.textRange) := Moving.ofExcept p.textRange
  have hrest := hrange.bind fun range => Moving.pure (Target.mk e.path range e.replacement)
  cases e.expected with
  | none => exact hrest
  | some expected =>
      dsimp only
      split
      · exact hrest
      · exact (Moving.fail _).bind fun _ => hrest

theorem Moving.resolveAll (edits : List Edit) : Moving allowed (Edit.resolveAll edits) := by
  induction edits with
  | nil => exact Moving.pure []
  | cons e es ih =>
      exact (Moving.resolveEdit e).bind fun target => ih.bind fun targets => Moving.pure _

theorem Moving.validate (edits : List Edit) : Moving allowed (Session.validate edits) := by
  refine (Moving.resolveAll edits).bind fun targets => ?_
  dsimp only
  split
  · exact Moving.fail _
  · exact Moving.pure _

theorem Moving.apply (edits : List Edit) (supply : Supply) :
    Moving allowed (Session.apply edits supply) := by
  refine (Moving.validate edits).bind fun targets => ?_
  exact Moving.bind (fun _ => .refl) fun s => Moving.ofExcept _

end Nav

theorem Session.Over.after {P : Green → Prop} {α : Type} {s : Session} {m : Nav α}
    (hP : ∀ g c : Green, P g → c ∈ g.children → P c) (hs : s.Over P) (hm : Nav.Moving P m) :
    (Nav.after m s).Over P := by
  have hmoves := hm s
  generalize Nav.after m s = t at hmoves
  induction hmoves with
  | refl => exact hs
  | tail _ hmove ih => exact ih.move hP hmove

theorem Session.Reached.after {α : Type} {s : Session} {m : Nav α} (h : s.Reached)
    (hm : Nav.Moving (fun _ => True) m) : (Nav.after m s).Reached := by
  have hmoves := hm s
  generalize Nav.after m s = t at hmoves
  induction hmoves with
  | refl => exact h
  | tail _ hmove ih => exact ih.moved hmove

end LosslessSyntax
