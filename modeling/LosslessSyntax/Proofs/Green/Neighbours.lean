import LosslessSyntax.Proofs.Green.Listing

namespace LosslessSyntax

theorem eq_cut_of_getElem? {α : Type} {xs : List α} {x : α} {i : Nat} (h : xs[i]? = some x) :
    xs = xs.take i ++ x :: xs.drop (i + 1) := by
  obtain ⟨hi, rfl⟩ := List.getElem?_eq_some_iff.mp h
  rw [← List.drop_eq_getElem_cons hi, List.take_append_drop]

namespace Green

section HasChildren

variable {m c : Green} {i : Nat} {cs : List Green}

def HasChildren (m : Green) (i : Nat) (cs : List Green) : Prop :=
  ∀ k c, cs[k]? = some c → m.child? (i + k) = some c

theorem HasChildren.head (h : m.HasChildren i (c :: cs)) : m.child? i = some c := h 0 c rfl

theorem HasChildren.tail (h : m.HasChildren i (c :: cs)) : m.HasChildren (i + 1) cs := by
  intro k b hb
  rw [Nat.add_right_comm]
  exact h (k + 1) b hb

theorem hasChildren_all (m : Green) : m.HasChildren 0 m.children := by
  intro k c hc
  rwa [Nat.zero_add]

theorem hasChildren_drop (m : Green) (i : Nat) : m.HasChildren i (m.children.drop i) := by
  intro k c hc
  rwa [List.getElem?_drop] at hc

theorem hasChildren_take (m : Green) (i : Nat) : m.HasChildren 0 (m.children.take i) := by
  intro k c hc
  rw [List.getElem?_take] at hc
  split at hc
  · rwa [Nat.zero_add]
  · exact nomatch hc

end HasChildren

section Split

def before (q : List Nat) : Green → List Nat → List Entry
  | _, [] => []
  | g, i :: is =>
      match g.child? i with
      | none => []
      | some c => (q, g) :: listingAmong q 0 (g.children.take i) ++ c.before (q ++ [i]) is

def behind (q : List Nat) : Green → List Nat → List Entry
  | _, [] => []
  | g, i :: is =>
      match g.child? i with
      | none => []
      | some c => c.behind (q ++ [i]) is ++ listingAmong q (i + 1) (g.children.drop (i + 1))

variable {g m c : Green} {q is : List Nat} {i : Nat}

theorem listingAmong_cut (q : List Nat) (index : Nat) (as bs : List Green) :
    listingAmong q index (as ++ bs) =
      listingAmong q index as ++ listingAmong q (index + as.length) bs := by
  induction as generalizing index with
  | nil => rfl
  | cons a as ih =>
      rw [List.cons_append, listingAmong, ih, listingAmong, List.append_assoc, List.length_cons,
        Nat.add_right_comm, Nat.add_assoc]

theorem listing_eq (g : Green) (q : List Nat) :
    g.listing q = (q, g) :: listingAmong q 0 g.children := by
  cases g <;> rfl

theorem size_eq (g : Green) : g.size = sizes g.children + 1 := by
  cases g <;> rfl

theorem listing_of_isToken (q : List Nat) (ht : g.isToken = true) : g.listing q = [(q, g)] := by
  cases g with
  | token stamp shape ds => rfl
  | node stamp kind summary cs ds => exact nomatch ht

theorem listing_child (q : List Nat) (hc : g.child? i = some c) :
    g.listing q = (q, g) :: listingAmong q 0 (g.children.take i) ++ c.listing (q ++ [i]) ++
      listingAmong q (i + 1) (g.children.drop (i + 1)) := by
  have hi := (List.getElem?_eq_some_iff.mp hc).1
  have hamong : listingAmong q 0 g.children = _ :=
    (congrArg (listingAmong q 0) (eq_cut_of_getElem? hc)).trans (listingAmong_cut q 0 _ _)
  rw [List.length_take_of_le (Nat.le_of_lt hi), Nat.zero_add, listingAmong] at hamong
  rw [listing_eq, hamong]
  simp only [List.append_assoc, List.cons_append]

theorem before_cons (q is : List Nat) (hc : g.child? i = some c) :
    g.before q (i :: is) =
      (q, g) :: listingAmong q 0 (g.children.take i) ++ c.before (q ++ [i]) is := by
  rw [before]
  simp only [hc]

theorem behind_cons (q is : List Nat) (hc : g.child? i = some c) :
    g.behind q (i :: is) =
      c.behind (q ++ [i]) is ++ listingAmong q (i + 1) (g.children.drop (i + 1)) := by
  rw [behind]
  simp only [hc]

theorem listing_split (q : List Nat) (hm : g.descend? is = some m) :
    g.listing q = g.before q is ++ m.listing (q ++ is) ++ g.behind q is := by
  induction is generalizing g q with
  | nil =>
      obtain rfl := Option.some.inj hm
      rw [before, behind, List.nil_append, List.append_nil, List.append_nil]
  | cons i is ih =>
      obtain ⟨c, hc, hm⟩ := descend?_cons_eq_some_iff.mp hm
      rw [listing_child q hc, ih (q ++ [i]) hm, before_cons q is hc, behind_cons q is hc]
      simp only [List.append_assoc, List.cons_append, List.nil_append]

theorem before_concat (q : List Nat) (hm : g.descend? is = some m) (hc : m.child? i = some c) :
    g.before q (is ++ [i]) =
      g.before q is ++ (q ++ is, m) :: listingAmong (q ++ is) 0 (m.children.take i) := by
  induction is generalizing g q with
  | nil =>
      obtain rfl := Option.some.inj hm
      rw [List.nil_append, before_cons q [] hc, before, before, List.append_nil, List.append_nil,
        List.nil_append]
  | cons j is ih =>
      obtain ⟨b, hb, hm⟩ := descend?_cons_eq_some_iff.mp hm
      rw [List.cons_append, before_cons q _ hb, before_cons q _ hb, ih (q ++ [j]) hm]
      simp only [List.append_assoc, List.cons_append, List.nil_append]

theorem behind_concat (q : List Nat) (hm : g.descend? is = some m) (hc : m.child? i = some c) :
    g.behind q (is ++ [i]) =
      listingAmong (q ++ is) (i + 1) (m.children.drop (i + 1)) ++ g.behind q is := by
  induction is generalizing g q with
  | nil =>
      obtain rfl := Option.some.inj hm
      rw [List.nil_append, behind_cons q [] hc, behind, behind, List.append_nil, List.append_nil,
        List.nil_append]
  | cons j is ih =>
      obtain ⟨b, hb, hm⟩ := descend?_cons_eq_some_iff.mp hm
      rw [List.cons_append, behind_cons q _ hb, behind_cons q _ hb, ih (q ++ [j]) hm]
      simp only [List.append_assoc, List.cons_append, List.nil_append]

end Split

end Green

end LosslessSyntax
