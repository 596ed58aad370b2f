import LosslessSyntax.Green.Leaves
import LosslessSyntax.Proofs.Green.Descent
import Mathlib.Data.List.Nodup

namespace LosslessSyntax

namespace Green

abbrev Entry := List Nat × Green

mutual

def listing (q : List Nat) : Green → List Entry
  | token i s ds => [(q, token i s ds)]
  | node i k s cs ds => (q, node i k s cs ds) :: listingAmong q 0 cs

def listingAmong (q : List Nat) (index : Nat) : List Green → List Entry
  | [] => []
  | c :: cs => c.listing (q ++ [index]) ++ listingAmong q (index + 1) cs

end

section

variable {g m : Green} {cs : List Green} {p q : List Nat} {index : Nat}

theorem length_listingAmong (h : ∀ c ∈ cs, ∀ q, (c.listing q).length = c.size) :
    (listingAmong q index cs).length = sizes cs := by
  induction cs generalizing index with
  | nil => rfl
  | cons c cs ih =>
      have hc := h c List.mem_cons_self (q ++ [index])
      have hcs := @ih (index + 1) fun b hb => h b (List.mem_cons_of_mem c hb)
      rw [listingAmong, List.length_append, hc, hcs, sizes]

theorem length_listing (g : Green) (q : List Nat) : (g.listing q).length = g.size := by
  induction g generalizing q with
  | token stamp shape ds => rfl
  | node stamp kind summary cs ds ih =>
      rw [listing, List.length_cons, length_listingAmong ih, size]

theorem listingAmong_append (h : ∀ c ∈ cs, ∀ p q,
      c.listing (p ++ q) = (c.listing q).map fun x => (p ++ x.1, x.2)) (p q : List Nat) :
    listingAmong (p ++ q) index cs = (listingAmong q index cs).map fun x => (p ++ x.1, x.2) := by
  induction cs generalizing index with
  | nil => rfl
  | cons c cs ih =>
      have hcs := @ih (index + 1) fun b hb => h b (List.mem_cons_of_mem c hb)
      rw [listingAmong, List.append_assoc, h c List.mem_cons_self, hcs, listingAmong,
        List.map_append]

theorem listing_append (g : Green) (p q : List Nat) :
    g.listing (p ++ q) = (g.listing q).map fun x => (p ++ x.1, x.2) := by
  induction g generalizing p q with
  | token stamp shape ds => rfl
  | node stamp kind summary cs ds ih =>
      rw [listing, listingAmong_append ih, listing, List.map_cons]

theorem mem_listingAmong_iff
    (h : ∀ c ∈ cs, ∀ q p m, (p, m) ∈ c.listing q ↔ ∃ is, p = q ++ is ∧ c.descend? is = some m) :
    (p, m) ∈ listingAmong q index cs ↔
      ∃ i c is, cs[i]? = some c ∧ p = q ++ (index + i) :: is ∧ c.descend? is = some m := by
  induction cs generalizing index with
  | nil => simp [listingAmong]
  | cons c cs ih =>
      have hc := h c List.mem_cons_self (q ++ [index]) p m
      have hcs := @ih (index + 1) fun b hb => h b (List.mem_cons_of_mem c hb)
      rw [listingAmong, List.mem_append, hc, hcs]
      constructor
      · rintro (⟨is, rfl, hm⟩ | ⟨i, b, is, hb, rfl, hm⟩)
        · exact ⟨0, c, is, rfl, by simp, hm⟩
        · exact ⟨i + 1, b, is, hb, by rw [Nat.add_right_comm, Nat.add_assoc], hm⟩
      · rintro ⟨_ | i, b, is, hb, rfl, hm⟩
        · obtain rfl : c = b := Option.some.inj hb
          exact .inl ⟨is, by simp, hm⟩
        · exact .inr ⟨i, b, is, hb, by rw [Nat.add_right_comm, Nat.add_assoc], hm⟩

theorem mem_listing_iff : (p, m) ∈ g.listing q ↔ ∃ is, p = q ++ is ∧ g.descend? is = some m := by
  induction g generalizing q p m with
  | token stamp shape ds =>
      rw [listing, List.mem_singleton, Prod.mk.injEq]
      constructor
      · rintro ⟨rfl, rfl⟩
        exact ⟨[], (List.append_nil _).symm, rfl⟩
      · rintro ⟨_ | ⟨i, is⟩, rfl, hm⟩
        · exact ⟨List.append_nil _, (Option.some.inj hm).symm⟩
        · exact nomatch hm
  | node stamp kind summary cs ds ih =>
      rw [listing, List.mem_cons, Prod.mk.injEq,
        mem_listingAmong_iff fun c hc q p m => ih c hc]
      constructor
      · rintro (⟨rfl, rfl⟩ | ⟨i, c, is, hc, rfl, hm⟩)
        · exact ⟨[], (List.append_nil _).symm, rfl⟩
        · exact ⟨i :: is, by rw [Nat.zero_add], descend?_cons_eq_some_iff.mpr ⟨c, hc, hm⟩⟩
      · rintro ⟨_ | ⟨i, is⟩, rfl, hm⟩
        · exact .inl ⟨List.append_nil _, (Option.some.inj hm).symm⟩
        · obtain ⟨c, hc, hm⟩ := descend?_cons_eq_some_iff.mp hm
          exact .inr ⟨i, c, is, hc, by rw [Nat.zero_add], hm⟩

theorem pairwise_listingAmong (h : ∀ c ∈ cs, ∀ q, (c.listing q).Pairwise fun x y => x.1 ≠ y.1) :
    (listingAmong q index cs).Pairwise fun x y => x.1 ≠ y.1 := by
  induction cs generalizing index with
  | nil => exact .nil
  | cons c cs ih =>
      rw [listingAmong, List.pairwise_append]
      refine ⟨h c List.mem_cons_self _, ih fun b hb => h b (List.mem_cons_of_mem c hb), ?_⟩
      rintro ⟨p, m⟩ hp ⟨p', m'⟩ hp' rfl
      obtain ⟨is, rfl, -⟩ := mem_listing_iff.mp hp
      obtain ⟨i, b, is', -, heq, -⟩ :=
        (mem_listingAmong_iff fun c _ q p m => mem_listing_iff).mp hp'
      rw [List.append_assoc, List.append_cancel_left_eq, List.singleton_append,
        List.cons.injEq] at heq
      omega

theorem pairwise_listing (g : Green) (q : List Nat) :
    (g.listing q).Pairwise fun x y => x.1 ≠ y.1 := by
  induction g generalizing q with
  | token stamp shape ds => exact List.pairwise_singleton _ _
  | node stamp kind summary cs ds ih =>
      rw [listing, List.pairwise_cons]
      refine ⟨?_, pairwise_listingAmong ih⟩
      rintro ⟨p, m⟩ hp rfl
      obtain ⟨i, c, is, -, heq, -⟩ :=
        (mem_listingAmong_iff fun c _ q p m => mem_listing_iff).mp hp
      exact absurd (List.self_eq_append_right.mp heq) (List.cons_ne_nil _ _)

end

theorem descend?_of_mem_listing {root : Green} {x : Entry} (hm : root.descend? q = some m)
    (hx : x ∈ m.listing q) : root.descend? x.1 = some x.2 := by
  obtain ⟨is, hpath, hg⟩ := mem_listing_iff.mp hx
  rw [hpath, descend?_append, hm, Option.bind_some, hg]

def paths (g : Green) : List (List Nat) := (g.listing []).map Prod.fst

theorem length_paths (g : Green) : g.paths.length = g.size := by
  rw [paths, List.length_map, length_listing]

theorem mem_paths_iff {g : Green} {q : List Nat} : q ∈ g.paths ↔ (g.descend? q).isSome := by
  rw [paths, List.mem_map, Option.isSome_iff_exists]
  constructor
  · rintro ⟨⟨p, m⟩, hmem, rfl⟩
    obtain ⟨is, rfl, hm⟩ := mem_listing_iff.mp hmem
    exact ⟨m, hm⟩
  · rintro ⟨m, hm⟩
    exact ⟨(q, m), mem_listing_iff.mpr ⟨q, rfl, hm⟩, rfl⟩

theorem mem_paths_of_prefix {g m : Green} {q r : List Nat} (hm : g.descend? q = some m)
    (hr : r <+: q) : r ∈ g.paths :=
  mem_paths_iff.mpr (isSome_descend?_of_leads hr (hm ▸ rfl))

theorem nodup_paths (g : Green) : g.paths.Nodup :=
  List.pairwise_map.mpr (g.pairwise_listing [])

section Leaves

def tokensIn (entries : List Entry) : List Green :=
  (entries.filter fun x => x.2.isToken).map Prod.snd

theorem tokensIn_append (xs ys : List Entry) :
    tokensIn (xs ++ ys) = tokensIn xs ++ tokensIn ys := by
  rw [tokensIn, List.filter_append, List.map_append, tokensIn, tokensIn]

theorem leavesOf_nil_cons (stack : List (List Green)) : leavesOf ([] :: stack) = leavesOf stack := by
  rw [leavesOf]

theorem leavesOf_cons (q : List Nat) (index : Nat) {cs : List Green} {stack : List (List Green)}
    (h : ∀ c ∈ cs, ∀ (gs : List Green) (stack : List (List Green)) (q : List Nat),
      leavesOf ((c :: gs) :: stack) = tokensIn (c.listing q) ++ leavesOf (gs :: stack)) :
    leavesOf (cs :: stack) = tokensIn (listingAmong q index cs) ++ leavesOf stack := by
  induction cs generalizing index with
  | nil => exact leavesOf_nil_cons stack
  | cons c cs ih =>
      rw [h c List.mem_cons_self cs stack (q ++ [index]),
        ih (index + 1) fun b hb => h b (List.mem_cons_of_mem c hb), listingAmong, tokensIn_append,
        List.append_assoc]

theorem leavesOf_cons_cons (g : Green) (gs : List Green) (stack : List (List Green))
    (q : List Nat) :
    leavesOf ((g :: gs) :: stack) = tokensIn (g.listing q) ++ leavesOf (gs :: stack) := by
  induction g generalizing gs stack q with
  | token stamp shape ds =>
      rw [leavesOf]
      rfl
  | node stamp kind summary cs ds ih =>
      rw [leavesOf, leavesOf_cons q 0 ih]
      rfl

theorem leaves_eq_tokensIn {g : Green} (hn : g.isNode = true) (q : List Nat) :
    g.leaves = tokensIn (g.listing q) := by
  cases g with
  | token stamp shape ds => exact nomatch hn
  | node stamp kind summary cs ds =>
      have hrest : leavesOf [] = [] := by rw [leavesOf]
      rw [leaves, leavesOf_cons q 0 fun c _ gs stack q => leavesOf_cons_cons c gs stack q, hrest,
        List.append_nil]
      rfl

end Leaves

end Green

end LosslessSyntax
