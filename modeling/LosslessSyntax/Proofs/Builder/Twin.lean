import LosslessSyntax.Proofs.Builder.Event
import LosslessSyntax.Proofs.Green.Twin

namespace LosslessSyntax

open Green

abbrev Answer := Except Failure (Option Green)

def Answer.elements : Answer → List Green
  | .ok (some g) => [g]
  | _ => []

inductive Answer.Rel (R : Green → Green → Prop) : Answer → Answer → Prop
  | refused (e : Failure) : Rel R (.error e) (.error e)
  | done : Rel R (.ok none) (.ok none)
  | handed {g g' : Green} : R g g' → Rel R (.ok (some g)) (.ok (some g'))

theorem Answer.Rel.mono {R S : Green → Green → Prop} {x y : Answer} (h : Answer.Rel R x y)
    (himp : ∀ g g', R g g' → S g g') : Answer.Rel S x y := by
  cases h with
  | refused e => exact .refused e
  | done => exact .done
  | handed hg => exact .handed (himp _ _ hg)

theorem Answer.Rel.twins_elements {x y : Answer} (h : Answer.Rel Green.Twin x y) :
    Twins x.elements y.elements := by
  cases h with
  | refused e => exact .nil
  | done => exact .nil
  | handed hg => exact .cons hg .nil

namespace Builder

inductive Event.Twin : Event Green → Event Green → Prop
  | same (e : Event Green) : Twin e e
  | push {g g' : Green} : g.Twin g' → Twin (.push g) (.push g')

structure Twin (b c : Builder) : Prop where
  opened : b.opened = c.opened
  pending : Twins b.pending.toList c.pending.toList
  left : b.Honest
  right : c.Honest

structure Reply.Twin (supply : Supply) (r r' : Reply) : Prop where
  answer : Answer.Rel Green.Twin r.answer r'.answer
  builder : r.builder.Twin r'.builder
  next_le : supply.next ≤ r.supply.next

variable {b b' c : Builder} {shape : TokenShape} {supply rest : Supply} {kind : Kind}
  {g t t' : Green} {cs ds : List Green} {e e' : Event Green}

theorem Interned.next_le (h : b.Interned shape supply t b' rest) : supply.next ≤ rest.next := by
  cases h with
  | found hon hlookup => exact Nat.le_refl _
  | entered hon hlookup => exact Nat.le_succ _
  | created hon => exact Nat.le_succ _

theorem agree_requireTokenKind (kind : Kind) :
    Mint.Agree Eq (requireTokenKind kind) (requireTokenKind kind) := by
  rw [requireTokenKind]
  split
  · exact .pure rfl
  · exact .fail _

theorem Honest.twin_self (h : b.Honest) : b.Twin b := ⟨rfl, Twins.refl _, h, h⟩

namespace Twin

theorem gains (h : b.Twin c) {bs es : List Green} {d : Builder} (hb : b.Gains bs b')
    (hc : c.Gains es d) (hs : Twins bs es) : b'.Twin d := by
  refine ⟨?_, ?_, hb.honest, hc.honest⟩
  · rw [hb.opened, hc.opened, h.opened]
  · rw [hb.pending, hc.pending]
    exact List.rel_append h.pending hs

theorem push (h : b.Twin c) (ht : t.Twin t') : (b.push t).Twin (c.push t') :=
  h.gains (h.left.push t) (h.right.push t') (.cons ht .nil)

theorem agree_intern (h : b.Twin c) (shape : TokenShape) :
    Mint.Agree (fun r r' => r.1.Twin r'.1 ∧ r.2.Twin r'.2) (b.intern shape) (c.intern shape) := by
  intro supply supply'
  obtain ⟨t, b', rest, hb, hinterned⟩ := intern_eq_ok b shape supply
  obtain ⟨t', c', rest', hc, hinterned'⟩ := intern_eq_ok c shape supply'
  obtain ⟨⟨stamp, rfl⟩, hgains⟩ := hinterned.gains h.left
  obtain ⟨⟨stamp', rfl⟩, hgains'⟩ := hinterned'.gains h.right
  exact .inr ⟨_, _, rest, rest', hb, hc, ⟨rfl, h.gains hgains hgains' .nil⟩, hinterned.next_le⟩

theorem agree_pushShape (h : b.Twin c) (shape : TokenShape) :
    Mint.Agree Twin (b.pushShape shape) (c.pushShape shape) :=
  (agree_requireTokenKind shape.kind).bind fun _ _ _ =>
    (h.agree_intern shape).bind fun _ _ hr => .pure (hr.2.push hr.1)

theorem settle (h : b.Twin c) {m m' : Mint Builder} (hm : Mint.Agree Twin m m')
    (supply supply' : Supply) :
    Reply.Twin supply (b.settle supply (m supply)) (c.settle supply' (m' supply')) := by
  rcases hm supply supply' with ⟨e, hb, hc⟩ | ⟨b', c', rest, rest', hb, hc, htwin, hle⟩ <;>
    rw [hb, hc]
  · exact ⟨.refused e, h, Nat.le_refl _⟩
  · exact ⟨.done, htwin, hle⟩

theorem closeNode (h : b.Twin c) (supply supply' : Supply) :
    Reply.Twin supply (b.closeNode supply) (c.closeNode supply') := by
  rw [Builder.closeNode, Builder.closeNode, ← h.opened]
  cases hopened : b.opened with
  | nil => exact ⟨.refused _, h, Nat.le_refl _⟩
  | cons top opened =>
      have htake : Twins (b.pending.take top.firstChild).toList
          (c.pending.take top.firstChild).toList := by
        rw [toList_take, toList_take]
        exact List.forall₂_take _ h.pending
      have hdrop : Twins (b.pending.toList.drop top.firstChild)
          (c.pending.toList.drop top.firstChild) := List.forall₂_drop _ h.pending
      dsimp only
      rcases hdrop.agree_assemble top.kind [] supply supply' with
        ⟨e, hb, hc⟩ | ⟨node, node', rest, rest', hb, hc, hnode, hle⟩ <;>
        rw [ofChildren, ofChildren, hb, hc]
      · cases e with
        | rejected e =>
            refine ⟨.refused _, ⟨rfl, ?_, h.left, h.right⟩, Nat.le_refl _⟩
            rw [Array.toList_appendList, Array.toList_appendList]
            exact List.rel_append htake hdrop
        | aborted fault => exact ⟨.refused _, ⟨rfl, htake, h.left, h.right⟩, Nat.le_refl _⟩
      · exact ⟨.done, push ⟨rfl, htake, h.left, h.right⟩ hnode, hle⟩

theorem soleRoot {opened : List OpenNode} (h : Twins cs ds) :
    Answer.Rel Green.Twin ((soleRoot opened cs).map some) ((soleRoot opened ds).map some) := by
  cases opened with
  | cons unfinished opened => exact .refused _
  | nil =>
      cases h with
      | nil => exact .refused _
      | cons hroot hrest =>
          cases hrest with
          | nil =>
              rw [Builder.soleRoot, Builder.soleRoot, hroot.isNode_eq, hroot.kind_eq]
              split
              · exact .handed hroot
              · exact .refused _
          | cons hextra _ =>
              rw [Builder.soleRoot, Builder.soleRoot, hextra.kind_eq]
              exact .refused _

theorem perform (h : b.Twin c) (he : Event.Twin e e') (supply supply' : Supply) :
    Reply.Twin supply (b.perform supply e) (c.perform supply' e') := by
  cases he with
  | push hg => exact ⟨.done, h.push hg, Nat.le_refl _⟩
  | same e =>
      cases e with
      | startNode kind =>
          have hsize : b.pending.size = c.pending.size := by
            rw [← Array.length_toList, ← Array.length_toList, h.pending.length_eq]
          refine ⟨.done, ⟨?_, h.pending, h.left, h.right⟩, Nat.le_refl _⟩
          rw [Builder.perform, Builder.perform, startNode, startNode, h.opened, hsize]
      | pushToken kind leading text trailing =>
          rw [Builder.perform, Builder.perform, pushToken_eq, pushToken_eq]
          exact h.settle (h.agree_pushShape _) supply supply'
      | pushMissing kind =>
          rw [Builder.perform, Builder.perform, pushMissing_eq, pushMissing_eq]
          exact h.settle (h.agree_pushShape _) supply supply'
      | push g => exact ⟨.done, h.push rfl, Nat.le_refl _⟩
      | finishNode => exact h.closeNode supply supply'
      | finish =>
          refine ⟨?_, ⟨rfl, .nil, h.left, h.right⟩, Nat.le_refl _⟩
          rw [Builder.perform, Builder.perform, finish, finish, h.opened]
          exact soleRoot h.pending

theorem agree_checkedNode (b c : Builder) (kind : Kind) (h : Twins cs ds) :
    Mint.Agree Green.Twin (b.checkedNode kind cs) (c.checkedNode kind ds) := by
  rw [checkedNode, checkedNode, h.check_eq]
  split
  · exact .fail _
  · exact (Mint.Agree.ofExcept _).bind fun _ _ _ => h.agree_assemble kind []

end Twin

end Builder

end LosslessSyntax
