import LosslessSyntax.Proofs.Session.Run
import Mathlib.Algebra.Order.Ring.Int

namespace LosslessSyntax

namespace Arena

def capacity : Nat := 2 ^ 32 - 32

theorem blockSize_eq (block : Nat) : blockSize block = 2 ^ (block + 5) := by
  rw [blockSize, firstBlock, Nat.shiftLeft_eq, Nat.pow_add, Nat.mul_comm]

theorem blockSize_succ (block : Nat) : blockSize (block + 1) = 2 * blockSize block := by
  rw [blockSize_eq, blockSize_eq, Nat.add_right_comm, Nat.pow_succ, Nat.mul_comm]

theorem locate_eq_iff {index block slot : Nat} :
    locate index = (block, slot) ↔
      slot < blockSize block ∧ index + firstBlock = blockSize block + slot := by
  have hpos : index + 32 ≠ 0 := by omega
  have hlog : Nat.log2 32 = 5 := by decide
  rw [blockSize_eq, locate, Prod.mk.injEq]
  simp only [firstBlock, hlog, Nat.one_shiftLeft]
  constructor
  · rintro ⟨hblock, hslot⟩
    have hbit : 5 ≤ Nat.log2 (index + 32) := (Nat.le_log2 hpos).mpr (by omega)
    have hlow : 2 ^ Nat.log2 (index + 32) ≤ index + 32 := Nat.log2_self_le hpos
    have hhigh : index + 32 < 2 ^ (Nat.log2 (index + 32) + 1) := Nat.lt_log2_self
    have hexp : block + 5 = Nat.log2 (index + 32) := by omega
    rw [hexp]
    omega
  · rintro ⟨hslot, hsum⟩
    have hbit : Nat.log2 (index + 32) = block + 5 := (Nat.log2_eq_iff hpos).mpr (by omega)
    rw [hbit]
    omega

theorem locate_spec (index : Nat) :
    (locate index).2 < blockSize (locate index).1 ∧
      index + firstBlock = blockSize (locate index).1 + (locate index).2 :=
  locate_eq_iff.mp rfl

theorem locate_injective : Function.Injective locate := by
  intro index other heq
  obtain ⟨-, hindex⟩ := locate_spec index
  obtain ⟨-, hother⟩ := locate_spec other
  rw [heq] at hindex
  omega

theorem locate_zero : locate 0 = (0, 0) :=
  locate_eq_iff.mpr (by decide)

theorem locate_succ (index : Nat) :
    locate (index + 1) =
      if (locate index).2 + 1 < blockSize (locate index).1 then
        ((locate index).1, (locate index).2 + 1)
      else ((locate index).1 + 1, 0) := by
  obtain ⟨hslot, hsum⟩ := locate_spec index
  split
  · next hroom => exact locate_eq_iff.mpr ⟨hroom, by omega⟩
  · next hfull =>
    have hdouble := blockSize_succ (locate index).1
    exact locate_eq_iff.mpr ⟨by omega, by omega⟩

theorem block_lt_iff {index : Nat} : (locate index).1 < blockCount ↔ index < capacity := by
  obtain ⟨hslot, hsum⟩ := locate_spec index
  rw [blockSize_eq] at hslot hsum
  simp only [firstBlock, blockCount, capacity] at *
  constructor
  · intro hblock
    have hsize : 2 ^ ((locate index).1 + 5) ≤ 2 ^ 31 := Nat.pow_le_pow_right (by decide) (by omega)
    omega
  · intro hindex
    by_contra hblock
    have hsize : 2 ^ 32 ≤ 2 ^ ((locate index).1 + 5) := Nat.pow_le_pow_right (by decide) (by omega)
    omega

theorem admits_iff {index : Nat} : admits index = true ↔ index < capacity := by
  have hcapacity : capacity ≤ maxSize := by decide
  rw [admits, Bool.and_eq_true, decide_eq_true_iff, decide_eq_true_iff, block_lt_iff]
  omega

end Arena

namespace Session

open Arena

theorem allot_of_lt {p : Placement} {s : Session} (h : s.placementCount < capacity) :
    allot p s = .ok s.placementCount (s.withPlacement p) :=
  (allot_eq p s).trans (if_pos (admits_iff.mpr h))

theorem allot_of_full {p : Placement} {s : Session} (h : capacity ≤ s.placementCount) :
    allot p s = .error (.aborted .arenaFull) s :=
  (allot_eq p s).trans (if_neg fun ha => Nat.not_lt.mpr h (admits_iff.mp ha))

theorem child_of_room {s : Session} {parent index start : Nat} {p : Placement} {green : Green}
    (hp : s.placements[parent]? = some p) (hm : p.memo[index]? = some none)
    (hc : p.green.slot? index = some (start, green)) (hle : p.offset + start ≤ maxSize)
    (hlt : s.placementCount < capacity) :
    child parent index s =
      .ok (some s.placementCount) (s.withChild green (p.offset + start) parent index) := by
  rw [child_of_slot hp hm hc, if_neg (Nat.not_lt.mpr hle)]
  exact if_pos (admits_iff.mpr hlt)

theorem mapM_allot (ps : List Placement) (s : Session) :
    ps.mapM allot s =
      if ps.length ≤ capacity - s.placementCount then
        .ok (List.range' s.placementCount ps.length) (ps.foldl withPlacement s)
      else
        .error (.aborted .arenaFull)
          ((ps.take (capacity - s.placementCount)).foldl withPlacement s) := by
  induction ps generalizing s with
  | nil => rfl
  | cons p ps ih =>
    rw [List.mapM_cons]
    rcases Nat.lt_or_ge s.placementCount capacity with hroom | hfull
    · have hcount : (s.withPlacement p).placementCount = s.placementCount + 1 := Array.size_push p
      have hstep : capacity - s.placementCount = capacity - (s.placementCount + 1) + 1 := by omega
      have hrest := ih (s.withPlacement p)
      rw [hcount] at hrest
      rw [Nav.bind_ok (allot_of_lt hroom), hstep, List.length_cons, List.take_succ_cons,
        List.range'_succ, List.foldl_cons, List.foldl_cons]
      by_cases hfits : ps.length ≤ capacity - (s.placementCount + 1)
      · rw [if_pos hfits] at hrest
        rw [if_pos (Nat.succ_le_succ hfits), Nav.bind_ok hrest]
        rfl
      · rw [if_neg hfits] at hrest
        rw [if_neg fun h => hfits (Nat.le_of_succ_le_succ h), Nav.bind_error hrest]
    · rw [Nav.bind_error (allot_of_full hfull), Nat.sub_eq_zero_of_le hfull,
        List.length_cons, if_neg (Nat.not_succ_le_zero _), List.take_zero, List.foldl_nil]

end Session

namespace Arena

theorem addresses (index : Nat) :
    ((locate index).1 < blockCount ↔ index < capacity) ∧
      (locate index).2 < blockSize (locate index).1 ∧
      (∀ other, locate other = locate index → other = index) ∧
      locate 0 = (0, 0) ∧
      locate (index + 1) =
        (if (locate index).2 + 1 < blockSize (locate index).1 then
          ((locate index).1, (locate index).2 + 1)
        else ((locate index).1 + 1, 0)) ∧
      ∀ (s : Session) (ps : List Placement),
        ps.mapM Session.allot s =
          if ps.length ≤ capacity - s.placementCount then
            .ok (List.range' s.placementCount ps.length) (ps.foldl Session.withPlacement s)
          else
            .error (.aborted .arenaFull)
              ((ps.take (capacity - s.placementCount)).foldl Session.withPlacement s) :=
  ⟨block_lt_iff, (locate_spec index).1, fun _ heq => locate_injective heq, locate_zero,
    locate_succ index, fun s ps => Session.mapM_allot ps s⟩

theorem short_of_maxSize :
    capacity ≤ maxSize ∧ locate capacity = (blockCount, 0) ∧
      ∀ (stamp : Nat) (root : Green) (p : Placement),
        (List.replicate capacity p).mapM Session.allot { stamp, root, placements := #[p] } =
          .error (.aborted .arenaFull)
            ((List.replicate (capacity - 1) p).foldl Session.withPlacement
              { stamp, root, placements := #[p] }) := by
  refine ⟨by decide, locate_eq_iff.mpr (by decide), ?_⟩
  intro stamp root p
  have hone : Session.placementCount { stamp, root, placements := #[p] } = 1 := rfl
  rw [Session.mapM_allot, hone, List.length_replicate, if_neg (by decide), List.take_replicate,
    Nat.min_eq_left (Nat.sub_le capacity 1)]

end Arena

end LosslessSyntax
