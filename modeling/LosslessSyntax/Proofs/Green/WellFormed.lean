import LosslessSyntax.Green.Build
import LosslessSyntax.Proofs.Green.Descent
import Mathlib.Algebra.Order.Ring.Int

namespace LosslessSyntax

namespace Green

def widths (gs : List Green) : Nat := (gs.map width).sum

@[simp] theorem widths_nil : widths [] = 0 := rfl

@[simp] theorem widths_cons (c : Green) (cs : List Green) :
    widths (c :: cs) = c.width + widths cs := rfl

theorem widths_append (as bs : List Green) : widths (as ++ bs) = widths as + widths bs := by
  simp [widths]

theorem widths_take_succ {cs : List Green} {i : Nat} {c : Green} (h : cs[i]? = some c) :
    widths (cs.take (i + 1)) = widths (cs.take i) + c.width := by
  rw [List.take_add_one, h, Option.toList_some, widths_append]
  rfl

theorem widths_take_le (cs : List Green) (i : Nat) : widths (cs.take i) ≤ widths cs := by
  have hsplit := widths_append (cs.take i) (cs.drop i)
  rw [List.take_append_drop] at hsplit
  omega

theorem widths_take_le_of_le (cs : List Green) {i j : Nat} (h : i ≤ j) :
    widths (cs.take i) ≤ widths (cs.take j) := by
  rw [← Nat.min_eq_left h, ← List.take_take]
  exact widths_take_le _ _

def startsFrom (start : Nat) : List Green → List Nat
  | [] => []
  | c :: cs => start :: startsFrom (start + c.width) cs

theorem getElem?_startsFrom (start : Nat) (cs : List Green) (i : Nat) :
    (startsFrom start cs)[i]? = cs[i]?.map fun _ => start + widths (cs.take i) := by
  induction cs generalizing start i with
  | nil => rfl
  | cons c cs ih =>
      cases i with
      | zero => simp [startsFrom]
      | succ i => simp [startsFrom, ih, Nat.add_assoc]

def summarize (cs : List Green) (ds : List Diagnostic) : Summary where
  width := widths cs
  starts := startsFrom 0 cs
  containsMissing := cs.any containsMissing
  containsDiagnostics := !ds.isEmpty || cs.any containsDiagnostics

inductive WellFormed : Green → Prop
  | token {stamp : Nat} {shape : TokenShape} {ds : List Diagnostic} :
      shape.width ≤ maxSize → (shape.missing = true → shape.width = 0) →
      WellFormed (.token stamp shape ds)
  | node {stamp : Nat} {kind : Kind} {cs : List Green} {ds : List Diagnostic} :
      (∀ c ∈ cs, WellFormed c) → widths cs ≤ maxSize →
      WellFormed (.node stamp kind (summarize cs ds) cs ds)

theorem mem_children_of_slot? {g c : Green} {index start : Nat}
    (h : g.slot? index = some (start, c)) : c ∈ g.children := by
  rw [slot?] at h
  split at h
  · rename_i hc
    obtain ⟨-, rfl⟩ := Prod.mk.inj (Option.some.inj h)
    exact List.mem_of_getElem? hc
  · exact nomatch h

namespace WellFormed

variable {g c m : Green}

theorem width_le (h : g.WellFormed) : g.width ≤ maxSize := by
  cases h with
  | token hw hm => exact hw
  | node hcs hw => exact hw

theorem checkedWidth_eq (h : g.WellFormed) : g.checkedWidth = .ok g.width := by
  have hw : ¬ maxSize < g.width := Nat.not_lt.mpr h.width_le
  simp [checkedWidth, hw]

theorem of_mem_children (h : g.WellFormed) (hc : c ∈ g.children) : c.WellFormed := by
  cases h with
  | token hw hm => simp [children] at hc
  | node hcs hw => exact hcs c hc

theorem of_child? {i : Nat} (h : g.WellFormed) (hc : g.child? i = some c) : c.WellFormed :=
  h.of_mem_children (List.mem_of_getElem? hc)

theorem of_descend? {is : List Nat} (h : g.WellFormed) (hm : g.descend? is = some m) :
    m.WellFormed := by
  induction is generalizing g with
  | nil =>
      rw [descend?_nil, Option.some.injEq] at hm
      exact hm ▸ h
  | cons i is ih =>
      obtain ⟨c, hc, hm⟩ := descend?_cons_eq_some_iff.mp hm
      exact ih (h.of_child? hc) hm

theorem widths_children (h : g.WellFormed) (hn : g.isNode = true) :
    widths g.children = g.width := by
  cases h with
  | token hw hm => simp [isNode] at hn
  | node hcs hw => rfl

theorem childStart?_eq (h : g.WellFormed) (i : Nat) :
    g.childStart? i = (g.child? i).map fun _ => widths (g.children.take i) := by
  cases h with
  | token hw hm => rfl
  | @node stamp kind cs ds hcs hw =>
      have hs := getElem?_startsFrom 0 cs i
      simp only [Nat.zero_add] at hs
      exact hs

theorem slot?_eq (h : g.WellFormed) (i : Nat) :
    g.slot? i = (g.child? i).map fun c => (widths (g.children.take i), c) := by
  rw [slot?, h.childStart?_eq]
  cases g.child? i <;> rfl

end WellFormed

theorem layOut_eq (kind : Kind) {cs : List Green} (hcs : ∀ c ∈ cs, c.WellFormed) {start : Nat}
    (hs : start ≤ maxSize) :
    layOut kind start cs =
      if start + widths cs ≤ maxSize then .ok (startsFrom start cs, start + widths cs)
      else .error (.illegalShape kind .widthOverflow) := by
  induction cs generalizing start with
  | nil => simp [layOut, startsFrom, hs]
  | cons c cs ih =>
      have hc := (hcs c List.mem_cons_self).checkedWidth_eq
      have hrest := fun b hb => hcs b (List.mem_cons_of_mem c hb)
      simp only [layOut, hc, widths_cons, startsFrom, ← Nat.add_assoc, bind, Except.bind]
      by_cases hle : start + c.width ≤ maxSize
      · simp only [addSizes?, if_pos hle, ih hrest hle]
        by_cases hfit : start + c.width + widths cs ≤ maxSize
        · simp only [if_pos hfit]
          rfl
        · simp only [if_neg hfit]
      · have hlt : ¬ start + c.width + widths cs ≤ maxSize := by omega
        simp only [addSizes?, if_neg hle, if_neg hlt]

theorem assemble_eq (kind : Kind) {cs : List Green} (hcs : ∀ c ∈ cs, c.WellFormed)
    (ds : List Diagnostic) (supply : Supply) :
    assemble kind cs ds supply =
      if widths cs ≤ maxSize then
        .ok (.node supply.next kind (summarize cs ds) cs ds, ⟨supply.next + 1⟩)
      else .error (.illegalShape kind .widthOverflow) := by
  have hl := layOut_eq kind hcs (Nat.zero_le maxSize)
  rw [Nat.zero_add] at hl
  by_cases hw : widths cs ≤ maxSize
  · rw [if_pos hw] at hl ⊢
    simp only [assemble, hl]
    rfl
  · rw [if_neg hw] at hl ⊢
    simp only [assemble, hl]
    rfl

theorem assemble_eq_ok {kind : Kind} {cs : List Green} {ds : List Diagnostic} {supply : Supply}
    {g : Green} {rest : Supply} (h : assemble kind cs ds supply = .ok (g, rest)) :
    ∃ summary, g = .node supply.next kind summary cs ds ∧ rest = ⟨supply.next + 1⟩ := by
  cases hl : layOut kind 0 cs with
  | error e =>
      simp only [assemble, hl] at h
      cases h
  | ok laid =>
      simp only [assemble, hl] at h
      cases h
      exact ⟨_, rfl, rfl⟩

theorem WellFormed.of_assemble {kind : Kind} {cs : List Green} (hcs : ∀ c ∈ cs, c.WellFormed)
    {ds : List Diagnostic} {supply rest : Supply} {g : Green}
    (h : assemble kind cs ds supply = .ok (g, rest)) : g.WellFormed := by
  rw [assemble_eq kind hcs] at h
  split at h
  · cases h
    exact .node hcs ‹_›
  · cases h

end Green

end LosslessSyntax
