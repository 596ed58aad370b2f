import LosslessSyntax.Green.Queue
import Mathlib.Data.List.Forall2
import Mathlib.Data.List.Induction

namespace LosslessSyntax

inductive Pull where
  | front
  | back
  | drain
  | drainBack
  deriving DecidableEq, Repr

structure Ends (M : Type → Type) (α Q : Type) where
  next : Q → M (Option α × Q)
  nextBack : Q → M (Option α × Q)
  drain : Q → M (List α)
  drainBack : Q → M (List α)

namespace Ends

section Run

variable {M : Type → Type} {α Q : Type} [Monad M]

def pull (e : Ends M α Q) (q : Q) : Pull → M (List α × Q)
  | .front => do
      let r ← e.next q
      pure (r.1.toList, r.2)
  | .back => do
      let r ← e.nextBack q
      pure (r.1.toList, r.2)
  | .drain => do
      let all ← e.drain q
      pure (all, q)
  | .drainBack => do
      let all ← e.drainBack q
      pure (all, q)

def pullAll (e : Ends M α Q) : List Pull → Q → M (List (List α) × Q)
  | [], q => pure ([], q)
  | move :: moves, q => do
      let r ← e.pull q move
      let rest ← e.pullAll moves r.2
      pure (r.1 :: rest.1, rest.2)

end Run

def ofList (α : Type) : Ends Id α (List α) where
  next xs := (xs.head?, xs.tail)
  nextBack xs := (xs.getLast?, xs.dropLast)
  drain xs := xs
  drainBack xs := xs.reverse

def deal {α : Type} (moves : List Pull) (xs : List α) : List (List α) × List α :=
  (ofList α).pullAll moves xs

def drawn {α : Type} (move : Pull) (moves : List Pull) (answers : List (List α)) : List α :=
  (moves.zip answers).flatMap fun x => if x.1 = move then x.2 else []

section Deal

variable {α β Q : Type}

theorem pull_front (e : Ends Id α Q) (q : Q) :
    e.pull q .front = ((e.next q).1.toList, (e.next q).2) := rfl

theorem pull_back (e : Ends Id α Q) (q : Q) :
    e.pull q .back = ((e.nextBack q).1.toList, (e.nextBack q).2) := rfl

theorem pull_drain (e : Ends Id α Q) (q : Q) : e.pull q .drain = (e.drain q, q) := rfl

theorem pull_drainBack (e : Ends Id α Q) (q : Q) : e.pull q .drainBack = (e.drainBack q, q) := rfl

theorem pullAll_cons (e : Ends Id α Q) (move : Pull) (moves : List Pull) (q : Q) :
    e.pullAll (move :: moves) q =
      ((e.pull q move).1 :: (e.pullAll moves (e.pull q move).2).1,
        (e.pullAll moves (e.pull q move).2).2) := rfl

theorem deal_cons (move : Pull) (moves : List Pull) (xs : List α) :
    deal (move :: moves) xs =
      (((ofList α).pull xs move).1 :: (deal moves ((ofList α).pull xs move).2).1,
        (deal moves ((ofList α).pull xs move).2).2) :=
  pullAll_cons _ _ _ _

theorem nextBack_concat (xs : List α) (a : α) :
    (ofList α).nextBack (xs ++ [a]) = (some a, xs) :=
  Prod.ext List.getLast?_concat List.dropLast_concat

theorem pull_back_concat (xs : List α) (a : α) :
    (ofList α).pull (xs ++ [a]) .back = ([a], xs) := by
  rw [pull_back, nextBack_concat]
  rfl

theorem pull_map (f : α → β) (xs : List α) (move : Pull) :
    (ofList β).pull (xs.map f) move =
      (((ofList α).pull xs move).1.map f, ((ofList α).pull xs move).2.map f) := by
  cases move with
  | front => cases xs <;> rfl
  | back =>
      cases xs using List.reverseRecOn with
      | nil => rfl
      | append_singleton xs a =>
          rw [List.map_append, List.map_singleton, pull_back_concat, pull_back_concat,
            List.map_singleton]
  | drain => rfl
  | drainBack => exact congrArg (·, xs.map f) List.map_reverse.symm

theorem deal_map (f : α → β) (moves : List Pull) (xs : List α) :
    deal moves (xs.map f) = ((deal moves xs).1.map (List.map f), (deal moves xs).2.map f) := by
  induction moves generalizing xs with
  | nil => rfl
  | cons move moves ih => rw [deal_cons, deal_cons, pull_map, ih, List.map_cons]

theorem drawn_cons (move other : Pull) (moves : List Pull) (xs : List α) (xss : List (List α)) :
    drawn move (other :: moves) (xs :: xss) =
      (if other = move then xs else []) ++ drawn move moves xss :=
  List.flatMap_cons

theorem drawn_append (moves : List Pull) (xs : List α) :
    drawn .front moves (deal moves xs).1 ++ (deal moves xs).2 ++
      (drawn .back moves (deal moves xs).1).reverse = xs := by
  induction moves generalizing xs with
  | nil => exact List.append_nil xs
  | cons move moves ih =>
      rw [deal_cons]
      cases move with
      | front =>
          cases xs with
          | nil => exact ih []
          | cons a xs => exact congrArg (a :: ·) (ih xs)
      | back =>
          cases xs using List.reverseRecOn with
          | nil => exact ih []
          | append_singleton xs a =>
              have hrest := ih xs
              rw [pull_back_concat, drawn_cons, drawn_cons, if_neg Pull.noConfusion, if_pos rfl,
                List.nil_append, List.singleton_append, List.reverse_cons, ← List.append_assoc]
              exact congrArg (· ++ [a]) hrest
      | drain => exact ih xs
      | drainBack => exact ih xs

theorem nodup_drawn {moves : List Pull} {xs : List α} (h : xs.Nodup) :
    (drawn .front moves (deal moves xs).1 ++ drawn .back moves (deal moves xs).1).Nodup := by
  have hends := (List.sublist_append_left (drawn .front moves (deal moves xs).1)
    (deal moves xs).2).append_right (drawn .back moves (deal moves xs).1).reverse
  rw [drawn_append] at hends
  have hperm := (List.reverse_perm (drawn .back moves (deal moves xs).1)).append_left
    (drawn .front moves (deal moves xs).1)
  exact hperm.nodup_iff.mp (h.sublist hends)

theorem drawn_forall₂ {R : α → β → Prop} {move : Pull} {moves : List Pull} {xss : List (List α)}
    {yss : List (List β)} (h : List.Forall₂ (List.Forall₂ R) xss yss) :
    List.Forall₂ R (drawn move moves xss) (drawn move moves yss) := by
  induction h generalizing moves with
  | nil =>
      rw [drawn, drawn, List.zip_nil_right, List.zip_nil_right]
      exact .nil
  | @cons xs ys xss yss hxs _ ih =>
      cases moves with
      | nil => exact .nil
      | cons other moves =>
          rw [drawn_cons, drawn_cons]
          refine List.rel_append ?_ ih
          split
          · exact hxs
          · exact .nil

theorem drawn_range (moves : List Pull) (len : Nat) : ∃ k,
    k + (deal moves (List.range len)).2.length ≤ len ∧
    drawn .front moves (deal moves (List.range len)).1 = List.range k ∧
    drawn .back moves (deal moves (List.range len)).1 =
      (List.range' (k + (deal moves (List.range len)).2.length)
        (len - k - (deal moves (List.range len)).2.length)).reverse := by
  have hall := drawn_append moves (List.range len)
  rw [List.append_assoc] at hall
  nth_rewrite 4 [List.range_eq_range'] at hall
  obtain ⟨k, hk, hfront, hrest⟩ := List.range'_eq_append_iff.mp hall.symm
  obtain ⟨j, hj, hleft, hback⟩ := List.range'_eq_append_iff.mp hrest.symm
  rw [hleft, List.length_range', hfront, ← List.range_eq_range', List.reverse_eq_iff.mp hback,
    Nat.zero_add, Nat.mul_one, Nat.mul_one]
  exact ⟨k, by omega, rfl, rfl⟩

/-- The function takes the elements of a list one by one, in the order in which `listed` lists them,
and finds what it takes from a part of the list by going on until it comes across it. -/
structure Orderly (take : List α → Option α × List α) (listed : List α → List α) : Prop where
  nil : take [] = (none, [])
  listed_nil : listed [] = []
  cons : ∀ xs, xs ≠ [] → ∃ a ys, take xs = (some a, ys) ∧ listed xs = a :: listed ys ∧
    xs.length = ys.length + 1
  filter : ∀ keep xs a ys, take xs = (some a, ys) →
    take (xs.filter keep) = if keep a then (some a, ys.filter keep) else take (ys.filter keep)

theorem orderly_next : Orderly (ofList α).next (ofList α).drain := by
  refine ⟨rfl, rfl, ?_, ?_⟩
  · intro xs hne
    cases xs with
    | nil => exact absurd rfl hne
    | cons a ys => exact ⟨a, ys, rfl, rfl, rfl⟩
  · intro keep xs a ys h
    cases xs with
    | nil => exact nomatch h
    | cons b xs =>
        cases h
        rw [List.filter_cons]
        split <;> rfl

theorem orderly_nextBack : Orderly (ofList α).nextBack (ofList α).drainBack := by
  refine ⟨rfl, rfl, ?_, ?_⟩
  · intro xs hne
    cases xs using List.reverseRecOn with
    | nil => exact absurd rfl hne
    | append_singleton ys a =>
        exact ⟨a, ys, nextBack_concat ys a, List.reverse_concat, List.length_append⟩
  · intro keep xs a ys h
    cases xs using List.reverseRecOn with
    | nil => exact nomatch h
    | append_singleton xs b =>
        cases (nextBack_concat xs b).symm.trans h
        rw [List.filter_append, List.filter_cons, List.filter_nil]
        split
        · exact nextBack_concat _ _
        · rw [List.append_nil]

end Deal

end Ends

namespace GreenQueue

def takeAll (take : GreenQueue → Option Green × GreenQueue) : Nat → GreenQueue → List Green
  | 0, _ => []
  | limit + 1, q =>
      match take q with
      | (none, _) => []
      | (some c, q) => c :: takeAll take limit q

end GreenQueue

namespace Ends

def green : Ends Id Green GreenQueue where
  next := GreenQueue.next
  nextBack := GreenQueue.nextBack
  drain q := GreenQueue.takeAll GreenQueue.next q.size q
  drainBack q := GreenQueue.takeAll GreenQueue.nextBack q.size q

theorem takeAll_eq {take : GreenQueue → Option Green × GreenQueue}
    {deal : List Green → Option Green × List Green} {listed : List Green → List Green}
    (h : Orderly deal listed) (htake : ∀ xs, take ⟨xs⟩ = ((deal xs).1, ⟨(deal xs).2⟩))
    {limit : Nat} {xs : List Green} (hlimit : xs.length ≤ limit) :
    GreenQueue.takeAll take limit ⟨xs⟩ = listed xs := by
  induction limit generalizing xs with
  | zero =>
      obtain rfl := List.length_eq_zero_iff.mp (Nat.le_zero.mp hlimit)
      exact h.listed_nil.symm
  | succ limit ih =>
      by_cases hne : xs = []
      · subst hne
        rw [GreenQueue.takeAll, htake, h.nil, h.listed_nil]
      · obtain ⟨a, ys, hdeal, hlisted, hlength⟩ := h.cons xs hne
        rw [GreenQueue.takeAll, htake, hdeal, hlisted]
        have hrest : ys.length ≤ limit := by omega
        exact congrArg (a :: ·) (ih hrest)

theorem green_next (xs : List Green) :
    green.next ⟨xs⟩ = (((ofList Green).next xs).1, ⟨((ofList Green).next xs).2⟩) := by
  cases xs <;> rfl

theorem green_nextBack (xs : List Green) :
    green.nextBack ⟨xs⟩ = (((ofList Green).nextBack xs).1, ⟨((ofList Green).nextBack xs).2⟩) := by
  cases xs using List.reverseRecOn with
  | nil => rfl
  | append_singleton xs a =>
      change GreenQueue.nextBack _ = _
      rw [nextBack_concat, GreenQueue.nextBack, List.getLast?_concat, List.dropLast_concat]

theorem green_drain (xs : List Green) : green.drain ⟨xs⟩ = xs :=
  takeAll_eq orderly_next green_next (Nat.le_refl xs.length)

theorem green_drainBack (xs : List Green) : green.drainBack ⟨xs⟩ = xs.reverse :=
  takeAll_eq orderly_nextBack green_nextBack (Nat.le_refl xs.length)

theorem green_pull (xs : List Green) (move : Pull) :
    green.pull ⟨xs⟩ move =
      (((ofList Green).pull xs move).1, ⟨((ofList Green).pull xs move).2⟩) := by
  cases move with
  | front => rw [pull_front, green_next, pull_front]
  | back => rw [pull_back, green_nextBack, pull_back]
  | drain =>
      rw [pull_drain, green_drain]
      rfl
  | drainBack =>
      rw [pull_drainBack, green_drainBack]
      rfl

theorem green_pullAll (moves : List Pull) (xs : List Green) :
    green.pullAll moves ⟨xs⟩ = ((deal moves xs).1, ⟨(deal moves xs).2⟩) := by
  induction moves generalizing xs with
  | nil => rfl
  | cons move moves ih => rw [pullAll_cons, green_pull, ih, deal_cons]

end Ends

end LosslessSyntax
