import LosslessSyntax.Green.Basic

namespace LosslessSyntax

namespace Green

@[elab_as_elim, induction_eliminator]
theorem induct {P : Green → Prop}
    (token : ∀ stamp shape ds, P (.token stamp shape ds))
    (node : ∀ stamp kind summary cs ds, (∀ c ∈ cs, P c) → P (.node stamp kind summary cs ds)) :
    ∀ g, P g
  | .token stamp shape ds => token stamp shape ds
  | .node stamp kind summary cs ds =>
      node stamp kind summary cs ds fun c _ => induct token node c

theorem descend?_nil (g : Green) : g.descend? [] = some g := rfl

theorem descend?_cons (g : Green) (i : Nat) (is : List Nat) :
    g.descend? (i :: is) = (g.child? i).bind (descend? · is) := rfl

theorem descend?_cons_eq_some_iff {g m : Green} {i : Nat} {is : List Nat} :
    g.descend? (i :: is) = some m ↔ ∃ c, g.child? i = some c ∧ c.descend? is = some m := by
  rw [descend?_cons, Option.bind_eq_some_iff]

theorem descend?_concat {g m : Green} {is : List Nat} (h : g.descend? is = some m) (i : Nat) :
    g.descend? (is ++ [i]) = m.child? i := by
  rw [descend?_append, h, Option.bind_some, descend?_cons]
  cases m.child? i <;> rfl

theorem isNode_of_child?_eq_some {g c : Green} {i : Nat} (h : g.child? i = some c) :
    g.isNode = true := by
  cases g with
  | token stamp shape ds => simp [child?, children] at h
  | node stamp kind summary cs ds => rfl

theorem isSome_descend?_of_leads {g : Green} {is js : List Nat} (hp : is <+: js)
    (h : (g.descend? js).isSome) : (g.descend? is).isSome := by
  obtain ⟨ks, rfl⟩ := hp
  rw [descend?_append] at h
  exact Option.isSome_of_isSome_bind h

theorem size_lt_of_mem {g c : Green} (h : c ∈ g.children) : c.size < g.size := by
  cases g with
  | token stamp shape ds => simp [children] at h
  | node stamp kind summary cs ds =>
      have hs : c.size ≤ sizes cs := by
        change c ∈ cs at h
        induction cs with
        | nil => simp at h
        | cons b bs ihbs =>
            rw [sizes]
            rcases List.mem_cons.mp h with rfl | hb
            · exact Nat.le_add_right _ _
            · exact Nat.le_trans (ihbs hb) (Nat.le_add_left _ _)
      rw [size]
      exact Nat.lt_succ_of_le hs

section ChildrenFrom

variable {m c : Green} {i : Nat} {cs : List Green}

def ChildrenFrom (m : Green) (i : Nat) (cs : List Green) : Prop :=
  ∀ k, m.child? (i + k) = cs[k]?

theorem childrenFrom_zero (m : Green) : m.ChildrenFrom 0 m.children := by
  intro k
  rw [Nat.zero_add]
  rfl

theorem ChildrenFrom.none (h : m.ChildrenFrom i []) : m.child? i = none := h 0

theorem ChildrenFrom.head (h : m.ChildrenFrom i (c :: cs)) : m.child? i = some c := h 0

theorem ChildrenFrom.tail (h : m.ChildrenFrom i (c :: cs)) : m.ChildrenFrom (i + 1) cs := by
  intro k
  rw [Nat.add_assoc, Nat.add_comm 1 k]
  exact h (k + 1)

end ChildrenFrom

end Green

end LosslessSyntax
