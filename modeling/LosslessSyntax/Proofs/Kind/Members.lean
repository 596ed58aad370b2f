import LosslessSyntax.KindSet
import Mathlib.Data.Finset.Card
import Mathlib.Data.Finset.Range

namespace LosslessSyntax

theorem Kind.ordinal_injective : Function.Injective Kind.ordinal := fun _ _ => Kind.ordinal_inj

namespace KindSet

variable {s t : KindSet} {S T : Finset Kind}

def Marks (s : KindSet) (S : Finset Kind) : Prop :=
  ∀ i, s.bits.getLsbD i = true ↔ i ∈ S.image Kind.ordinal

theorem marks_empty : empty.Marks ∅ := by
  intro i
  simp [empty]

theorem Marks.insert (h : s.Marks S) (k : Kind) : (s.insert k).Marks (Insert.insert k S) := by
  intro i
  rw [Finset.image_insert, Finset.mem_insert, ← h i, KindSet.insert, BitVec.getLsbD_or,
    getLsbD_bit, Bool.or_eq_true, decide_eq_true_iff]
  exact or_comm

theorem Marks.union (hs : s.Marks S) (ht : t.Marks T) : (s.union t).Marks (S ∪ T) := by
  intro i
  rw [Finset.image_union, Finset.mem_union, ← hs i, ← ht i, KindSet.union, BitVec.getLsbD_or,
    Bool.or_eq_true]

theorem Marks.foldl_insert (h : s.Marks S) (ks : List Kind) :
    (ks.foldl KindSet.insert s).Marks (ks.toFinset ∪ S) := by
  induction ks generalizing s S with
  | nil => simpa using h
  | cons k ks ih =>
      have hmember : (k :: ks).toFinset ∪ S = ks.toFinset ∪ Insert.insert k S := by
        rw [List.toFinset_cons, Finset.insert_union, Finset.union_insert]
      rw [hmember]
      exact ih (h.insert k)

theorem marks_ofList (ks : List Kind) : (ofList ks).Marks ks.toFinset := by
  have h := marks_empty.foldl_insert ks
  rwa [Finset.union_empty] at h

theorem Marks.contains_iff (h : s.Marks S) (k : Kind) : s.contains k = true ↔ k ∈ S := by
  rw [contains_eq_getLsbD, h, Kind.ordinal_injective.mem_finset_image]

theorem Marks.eq_iff (hs : s.Marks S) (ht : t.Marks T) : s = t ↔ S = T := by
  constructor
  · rintro rfl
    ext k
    rw [← hs.contains_iff, ht.contains_iff]
  · rintro rfl
    have hbits : s.bits = t.bits := by
      apply BitVec.eq_of_getLsbD_eq
      intro i _
      rw [Bool.eq_iff_iff, hs i, ht i]
    cases s
    exact congrArg KindSet.mk hbits

theorem isEmpty_iff_eq_empty : s.isEmpty = true ↔ s = empty := by
  cases s
  simp [isEmpty, empty]

theorem Marks.isEmpty_iff (h : s.Marks S) : s.isEmpty = true ↔ S = ∅ :=
  isEmpty_iff_eq_empty.trans (h.eq_iff marks_empty)

theorem Marks.size_eq (h : s.Marks S) : s.size = S.card := by
  -- The size counts the whole word; a bit that is no kind's is not set and is not counted.
  have hbits : ((List.range 64).filter fun i => s.bits.getLsbD i).toFinset =
      S.image Kind.ordinal := by
    ext i
    rw [List.mem_toFinset, List.mem_filter, List.mem_range, h i, and_iff_right_iff_imp]
    intro hi
    obtain ⟨k, -, rfl⟩ := Finset.mem_image.mp hi
    exact ordinal_lt_width k
  have hnodup : ((List.range 64).filter fun i => s.bits.getLsbD i).Nodup :=
    List.nodup_range.filter _
  calc s.size = ((List.range 64).filter fun i => s.bits.getLsbD i).length :=
        List.countP_eq_length_filter
    _ = (S.image Kind.ordinal).card := by rw [← hbits, List.toFinset_card_of_nodup hnodup]
    _ = S.card := Finset.card_image_of_injective S Kind.ordinal_injective

inductive Recipe where
  | of (ks : List Kind)
  | insert (r : Recipe) (k : Kind)
  | union (r q : Recipe)
  deriving DecidableEq, Repr

namespace Recipe

def make : Recipe → KindSet
  | of ks => ofList ks
  | insert r k => r.make.insert k
  | union r q => r.make.union q.make

def listed : Recipe → List Kind
  | of ks => ks
  | insert r k => r.listed ++ [k]
  | union r q => r.listed ++ q.listed

theorem marks_make (r : Recipe) : r.make.Marks r.listed.toFinset := by
  induction r with
  | of ks => exact marks_ofList ks
  | insert r k ih =>
      have hmember : (r.listed ++ [k]).toFinset = Insert.insert k r.listed.toFinset := by
        rw [List.toFinset_append, List.toFinset_cons, List.toFinset_nil, Finset.union_comm,
          Finset.insert_union, Finset.empty_union]
      rw [listed, hmember]
      exact ih.insert k
  | union r q ihr ihq =>
      rw [listed, List.toFinset_append]
      exact ihr.union ihq

end Recipe

theorem members_decide (xs ys : List Kind) (r : Recipe) :
    (∀ k, (ofList xs).contains k = true ↔ k ∈ xs) ∧
      (∀ k, ((ofList xs).union (ofList ys)).contains k = true ↔ k ∈ xs ∨ k ∈ ys) ∧
      (ofList xs).size = xs.toFinset.card ∧
      ((ofList xs).isEmpty = true ↔ xs = []) ∧
      (ofList xs = ofList ys ↔ ∀ k, k ∈ xs ↔ k ∈ ys) ∧
      r.make = ofList r.listed := by
  have hxs : (ofList xs).Marks xs.toFinset := marks_ofList xs
  have hys : (ofList ys).Marks ys.toFinset := marks_ofList ys
  refine ⟨fun k => ?_, fun k => ?_, hxs.size_eq, ?_, ?_, ?_⟩
  · rw [hxs.contains_iff, List.mem_toFinset]
  · rw [(hxs.union hys).contains_iff, Finset.mem_union, List.mem_toFinset, List.mem_toFinset]
  · rw [hxs.isEmpty_iff, List.toFinset_eq_empty_iff]
  · rw [hxs.eq_iff hys, Finset.ext_iff]
    simp only [List.mem_toFinset]
  · exact (r.marks_make.eq_iff (marks_ofList r.listed)).mpr rfl

example : (Recipe.union (.of [.list, .error, .list]) (.insert (.of []) .error)).make =
    ofList [.error, .list] := by decide

end KindSet

end LosslessSyntax
