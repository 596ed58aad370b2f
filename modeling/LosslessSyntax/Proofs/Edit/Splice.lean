import LosslessSyntax.Proofs.Edit.Conflict
import LosslessSyntax.Proofs.Edit.Rebuild

namespace LosslessSyntax

namespace Splice

def Sorted (xs : List Splice) : Prop := xs.Pairwise fun x y => x.1 ≤ y.1

variable {xs ys : List Splice} {index : Nat} {cs : List Green}

theorem Sorted.under (h : Sorted xs) (index : Nat) : Sorted (under index xs) :=
  pairwise_under h fun _ _ hle => ((indices_cons_le_cons_iff.mp hle).resolve_left (lt_irrefl _)).2

theorem rebuildAmong_congr (h : ∀ j, index ≤ j → Splice.under j xs = Splice.under j ys) :
    rebuildAmong index cs xs = rebuildAmong index cs ys := by
  induction cs generalizing index with
  | nil => rfl
  | cons c cs ih =>
      have hcs := ih fun j hj => h j (Nat.le_of_succ_le hj)
      rw [rebuildAmong_cons, rebuildAmong_cons, h index (Nat.le_refl _), hcs]

end Splice

namespace Target

open Splice (Sorted Settled under)

/-- What is left of a target below an element to which the first `depth` steps lead. -/
def below (depth : Nat) (t : Target) : Splice := (t.path.indices.drop depth, t.replacement)

variable {t u : Target} {ts us : List Target} {depth index i j : Nat} {c node : Green}

theorem below_of_step (h : t.path.indices[depth]? = some i) :
    t.below depth = (i :: (t.below (depth + 1)).1, t.replacement) := by
  obtain ⟨hlt, rfl⟩ := List.getElem?_eq_some_iff.mp h
  rw [below, below, ← List.drop_eq_getElem_cons hlt]

theorem exists_step (h : (t.below depth).1 ≠ []) : ∃ i, t.path.indices[depth]? = some i := by
  rw [below, Ne, List.drop_eq_nil_iff, Nat.not_le] at h
  exact ⟨_, List.getElem?_eq_getElem h⟩

theorem under_cons_of_step (h : t.path.indices[depth]? = some i) :
    under i ((t :: ts).map (below depth)) =
      t.below (depth + 1) :: under i (ts.map (below depth)) := by
  rw [List.map_cons, below_of_step h, under, List.filterMap_cons, Splice.below, if_pos rfl]
  rfl

theorem under_cons_of_other (h : t.path.indices[depth]? = some i) (hne : i ≠ j) :
    under j ((t :: ts).map (below depth)) = under j (ts.map (below depth)) := by
  rw [List.map_cons, below_of_step h, under, List.filterMap_cons, Splice.below, if_neg hne]
  rfl

theorem step_le (hs : Sorted ((t :: ts).map (below depth))) (hu : u ∈ ts)
    (ht : t.path.indices[depth]? = some i) (hj : u.path.indices[depth]? = some j) : i ≤ j := by
  have hle := (List.pairwise_cons.mp hs).1 _ (List.mem_map_of_mem hu)
  rw [below_of_step ht, below_of_step hj, indices_cons_le_cons_iff] at hle
  omega

theorem steps_ne (hs : Sorted ((t :: u :: ts).map (below depth)))
    (ht : t.path.indices[depth]? = some i) (hu : u.path.indices[depth]? = some j) (hne : i ≠ j) :
    ∀ v ∈ u :: ts, v.path.indices[depth]? ≠ some i := by
  intro v hv hstep
  have hle : i ≤ j := step_le hs List.mem_cons_self ht hu
  rcases List.mem_cons.mp hv with rfl | hv
  · exact hne (Option.some.inj (hstep.symm.trans hu))
  · -- The targets are sorted, so that none goes back to a child that was left.
    exact hne (Nat.le_antisymm hle (step_le (List.pairwise_cons.mp hs).2 hv hu hstep))

theorem step_eq_pure (h : t.path.indices[depth]? = some i) : t.step depth = pure ⟨i, h⟩ := by
  rw [step]
  generalize t.path.indices[depth]? = step at h
  subst h
  rfl

theorem step_eq_fail (h : t.path.indices[depth]? = none) :
    t.step depth = Mint.fail (.aborted .badIndex) := by
  rw [step]
  generalize t.path.indices[depth]? = step at h
  subst h
  rfl

theorem step_of_mem_below {is : List Nat} {r : Green}
    (h : (i :: is, r) ∈ ts.map (below depth)) : ∃ t ∈ ts, t.path.indices[depth]? = some i := by
  obtain ⟨t, ht, hbelow⟩ := List.mem_map.mp h
  have hne : (t.below depth).1 ≠ [] := by
    rw [hbelow]
    exact List.cons_ne_nil i is
  obtain ⟨j, hj⟩ := exists_step hne
  rw [below_of_step hj, Prod.mk.injEq, List.cons.injEq] at hbelow
  exact ⟨t, ht, hbelow.1.1 ▸ hj⟩

theorem under_eq_nil_iff : under i (ts.map (below depth)) = [] ↔
    ∀ t ∈ ts, t.path.indices[depth]? ≠ some i := by
  constructor
  · intro hnil t ht hstep
    have hmem : (i :: (t.below (depth + 1)).1, t.replacement) ∈ ts.map (below depth) :=
      below_of_step hstep ▸ List.mem_map_of_mem ht
    exact List.ne_nil_of_mem (Splice.mem_under_iff.mpr hmem) hnil
  · intro h
    rw [List.eq_nil_iff_forall_not_mem]
    rintro ⟨is, r⟩ hmem
    obtain ⟨t, ht, hstep⟩ := step_of_mem_below (Splice.mem_under_iff.mp hmem)
    exact h t ht hstep

structure Chunk.Sound (c : Chunk depth t ts) : Prop where
  group : under c.index (ts.map (below depth)) = c.group.map (below (depth + 1))
  rest : ∀ j, c.index < j → under j (ts.map (below depth)) = under j (c.rest.map (below depth))
  later : ∀ u ∈ c.rest, u.path.indices[depth]? ≠ some c.index

namespace Chunk.Sound

variable {chunk : Chunk depth t ts}

theorem map_group (h : chunk.Sound) : (t :: chunk.group).map (below (depth + 1)) =
    under chunk.index ((t :: ts).map (below depth)) := by
  rw [under_cons_of_step chunk.step, h.group]
  rfl

theorem under_later (h : chunk.Sound) (hj : chunk.index < j) :
    under j ((t :: ts).map (below depth)) = under j (chunk.rest.map (below depth)) := by
  rw [under_cons_of_other chunk.step (Nat.ne_of_lt hj), h.rest j hj]

end Chunk.Sound

theorem chunk_eq_pure (hs : Sorted ((t :: ts).map (below depth)))
    (hsteps : ∀ u ∈ t :: ts, ∃ i, u.path.indices[depth]? = some i) :
    ∃ c, chunk depth t ts = pure c ∧ c.Sound := by
  induction ts generalizing t with
  | nil =>
      obtain ⟨i, hi⟩ := hsteps t List.mem_cons_self
      refine ⟨⟨i, [], [], hi, rfl⟩, ?_, rfl, fun _ _ => rfl, List.forall_mem_nil _⟩
      rw [chunk, step_eq_pure hi]
      rfl
  | cons u us ih =>
      obtain ⟨⟨i, hi⟩, hrest⟩ := List.forall_mem_cons.mp hsteps
      obtain ⟨j, hj⟩ := hrest u List.mem_cons_self
      have hsorted := (List.pairwise_cons.mp hs).2
      rw [chunk, step_eq_pure hi, step_eq_pure hj]
      by_cases hij : i = j
      · subst hij
        obtain ⟨⟨k, group, rest, hk, split⟩, hc, hsound⟩ := ih hsorted hrest
        obtain rfl : k = i := Option.some.inj (hk.symm.trans hj)
        refine ⟨⟨k, u :: group, rest, hi, congrArg (u :: ·) split⟩, ?_, ?_, ?_, hsound.later⟩
        · simp only [pure_bind, if_true, hc]
        · rw [under_cons_of_step hj, hsound.group]
          rfl
        · intro l hl
          rw [under_cons_of_other hj (Nat.ne_of_lt hl), hsound.rest l hl]
      · have hlater := steps_ne hs hi hj hij
        refine ⟨⟨i, [], u :: us, hi, rfl⟩, ?_, under_eq_nil_iff.mpr hlater, fun _ _ => rfl, hlater⟩
        simp only [pure_bind, if_neg hij]

def Rebuilds (depth : Nat) (c : Green) (xs : List Splice) : Prop :=
  xs ≠ [] → (∀ x ∈ xs, x.1 ≠ []) → ∀ ts, ts.map (below depth) = xs →
    splice c depth ts = Splice.rebuild c xs

theorem renew_eq {xs : List Splice} (hs : Settled c xs) (hrebuilds : Rebuilds (depth + 1) c xs)
    (hmap : (t :: ts).map (below (depth + 1)) = xs) (hlt : depth < t.path.depth) :
    (if t.path.depth = depth + 1 then pure t.replacement
      else if c.isNode then splice c (depth + 1) (t :: ts)
      else Mint.fail (.rejected (.invalidPath t.path (depth + 1)))) = Splice.renew c xs := by
  rcases hs.cases with rfl | ⟨r, rfl⟩ | ⟨hne, hpaths⟩
  · exact nomatch hmap
  · obtain ⟨hlast, hr⟩ := Prod.mk.inj (List.cons.inj hmap).1
    have hle : t.path.depth ≤ depth + 1 := List.drop_eq_nil_iff.mp hlast
    rw [if_pos (Nat.le_antisymm hle hlt), hr]
    rfl
  · have hmore : ¬ t.path.depth = depth + 1 := by
      intro heq
      have hmem : t.below (depth + 1) ∈ xs := hmap ▸ List.mem_cons_self
      exact hpaths _ hmem (List.drop_eq_nil_iff.mpr (Nat.le_of_eq heq))
    rw [if_neg hmore, if_pos (hs.isNode hne hpaths), hrebuilds hne hpaths _ hmap,
      Splice.renew_eq_rebuild hne hpaths]

structure Ready (depth index : Nat) (todo : List Green) (ts : List Target) : Prop where
  sorted : Sorted (ts.map (below depth))
  steps : ∀ t ∈ ts, ∃ i, t.path.indices[depth]? = some i ∧ index ≤ i ∧ i < index + todo.length
  settled : ∀ {i : Nat} {c : Green}, todo[i]? = some c →
    Settled c (under (index + i) (ts.map (below depth)))
  rebuilds : ∀ {i : Nat} {c : Green}, todo[i]? = some c →
    Rebuilds (depth + 1) c (under (index + i) (ts.map (below depth)))

namespace Ready

variable {todo done : List Green}

theorem eq_nil (h : Ready depth index [] ts) : ts = [] := by
  rw [List.eq_nil_iff_forall_not_mem]
  intro t ht
  obtain ⟨i, -, hle, hlt⟩ := h.steps t ht
  exact absurd hlt (Nat.not_lt.mpr hle)

theorem later (h : Ready depth index (c :: todo) ts) (hsub : us.Sublist ts)
    (hsteps : ∀ u ∈ us, u.path.indices[depth]? ≠ some index)
    (hunder : ∀ j, index < j → under j (ts.map (below depth)) = under j (us.map (below depth))) :
    Ready depth (index + 1) todo us := by
  have hshift : ∀ i, index + 1 + i = index + (i + 1) := fun i => by omega
  have hsame : ∀ i, under (index + 1 + i) (us.map (below depth)) =
      under (index + (i + 1)) (ts.map (below depth)) := by
    intro i
    rw [hshift, hunder _ (by omega)]
  refine ⟨h.sorted.sublist (hsub.map _), ?_, ?_, ?_⟩
  · intro u hu
    obtain ⟨i, hi, hle, hlt⟩ := h.steps u (hsub.subset hu)
    have hne : index ≠ i := fun heq => hsteps u hu (heq ▸ hi)
    rw [List.length_cons] at hlt
    exact ⟨i, hi, by omega, by omega⟩
  · intro i d hd
    rw [hsame]
    exact h.settled hd
  · intro i d hd
    rw [hsame]
    exact h.rebuilds hd

theorem step_head (h : Ready depth index (c :: todo) (t :: ts))
    (hne : under index ((t :: ts).map (below depth)) ≠ []) :
    t.path.indices[depth]? = some index := by
  rw [ne_eq, under_eq_nil_iff] at hne
  push Not at hne
  obtain ⟨u, hu, hstep⟩ := hne
  obtain ⟨i, hi, hle, -⟩ := h.steps t List.mem_cons_self
  rcases List.mem_cons.mp hu with rfl | hu
  · exact hstep
  · rw [hi, Nat.le_antisymm (step_le h.sorted hu hi hstep) hle]

theorem skip (h : Ready depth index (c :: todo) ts)
    (hnil : under index (ts.map (below depth)) = []) : Ready depth (index + 1) todo ts :=
  h.later (List.Sublist.refl ts) (under_eq_nil_iff.mp hnil) fun _ _ => rfl

theorem take {chunk : Chunk depth t ts} (h : Ready depth chunk.index (c :: todo) (t :: ts))
    (hs : chunk.Sound) : Ready depth (chunk.index + 1) todo chunk.rest := by
  have hsub : chunk.rest.Sublist ts := by
    have hrest := List.sublist_append_right chunk.group chunk.rest
    rwa [chunk.split] at hrest
  exact h.later (hsub.cons t) hs.later fun j hj => hs.under_later hj

theorem exists_chunk (h : Ready depth index (c :: todo) (t :: ts))
    (hne : under index ((t :: ts).map (below depth)) ≠ []) :
    ∃ chunk : Chunk depth t ts, Target.chunk depth t ts = pure chunk ∧ chunk.Sound ∧
      chunk.index = index := by
  have hsteps : ∀ u ∈ t :: ts, ∃ i, u.path.indices[depth]? = some i :=
    fun u hu => (h.steps u hu).imp fun _ => And.left
  obtain ⟨chunk, hchunk, hsound⟩ := chunk_eq_pure h.sorted hsteps
  exact ⟨chunk, hchunk, hsound, Option.some.inj (chunk.step.symm.trans (h.step_head hne))⟩

theorem spliceGroups_take {chunk : Chunk depth t ts}
    (h : Ready depth done.length (c :: todo) (t :: ts))
    (hchunk : Target.chunk depth t ts = pure chunk) (hs : chunk.Sound)
    (hindex : chunk.index = done.length) (node : Green) :
    spliceGroups node depth (done ++ c :: todo) (t :: ts) = (do
      let d ← Splice.renew c (under done.length ((t :: ts).map (below depth)))
      spliceGroups node depth (done ++ [d] ++ todo) chunk.rest) := by
  have hc : (done ++ c :: todo)[chunk.index]? = some c := by simp [hindex]
  have hset : ∀ d, (done ++ c :: todo).set chunk.index d = done ++ [d] ++ todo := by
    simp [hindex]
  have hrenew := renew_eq (h.settled (i := 0) rfl) (h.rebuilds (i := 0) rfl)
    (hindex ▸ hs.map_group) chunk.depth_lt
  rw [spliceGroups, hchunk]
  simp only [pure_bind, hc, hset]
  rw [hrenew, Nat.add_zero]

theorem spliceGroups_eq (h : Ready depth done.length todo ts) (node : Green) :
    spliceGroups node depth (done ++ todo) ts = (do
      let cs ← Splice.rebuildAmong done.length todo (ts.map (below depth))
      pure (done ++ cs)) := by
  induction todo generalizing done ts with
  | nil =>
      obtain rfl := h.eq_nil
      rw [spliceGroups]
      rfl
  | cons c todo ih =>
      have hlength : ∀ d, (done ++ [d]).length = done.length + 1 := fun d => List.length_append
      rw [Splice.rebuildAmong_cons]
      by_cases hnil : under done.length (ts.map (below depth)) = []
      · have hready : Ready depth (done ++ [c]).length todo ts := hlength c ▸ h.skip hnil
        rw [List.append_cons, ih hready, hlength, hnil]
        simp only [Splice.renew, pure_bind, bind_assoc, List.append_assoc, List.singleton_append]
      · cases ts with
        | nil => exact absurd rfl hnil
        | cons t ts =>
            -- The targets come in order, so the first chunk is for the first child that has any.
            obtain ⟨chunk, hchunk, hsound, hindex⟩ := h.exists_chunk hnil
            have hrest : Splice.rebuildAmong (done.length + 1) todo ((t :: ts).map (below depth)) =
                Splice.rebuildAmong (done.length + 1) todo (chunk.rest.map (below depth)) :=
              Splice.rebuildAmong_congr fun j hj => hsound.under_later (hindex ▸ hj)
            rw [h.spliceGroups_take hchunk hsound hindex, hrest, bind_assoc]
            refine bind_congr fun d => ?_
            have htake : Ready depth (done ++ [d]).length todo chunk.rest := by
              rw [hlength, ← hindex]
              exact (hindex ▸ h).take hsound
            rw [ih htake, hlength]
            simp only [bind_assoc, pure_bind, List.append_assoc, List.singleton_append]

end Ready

theorem ready_of_settled {xs : List Splice} {stamp : Nat} {kind : Kind} {summary : Summary}
    {cs : List Green} {ds : List Diagnostic} (h : Settled (.node stamp kind summary cs ds) xs)
    (hs : Sorted xs) (hpaths : ∀ x ∈ xs, x.1 ≠ []) (hmap : ts.map (below depth) = xs)
    (hrebuilds : ∀ i c, cs[i]? = some c → Rebuilds (depth + 1) c (under i xs)) :
    Ready depth 0 cs ts := by
  subst hmap
  refine ⟨hs, ?_, ?_, ?_⟩
  · intro t ht
    have hmem := List.mem_map_of_mem (f := below depth) ht
    obtain ⟨i, hi⟩ := exists_step (hpaths _ hmem)
    rw [below_of_step hi] at hmem
    obtain ⟨c, hc⟩ := h.exists_child hmem
    obtain ⟨hlt, -⟩ := List.getElem?_eq_some_iff.mp hc
    exact ⟨i, hi, Nat.zero_le i, by rwa [Nat.zero_add]⟩
  · intro i c hc
    rw [Nat.zero_add]
    exact h.under hc
  · intro i c hc
    rw [Nat.zero_add]
    exact hrebuilds i c hc

theorem rebuilds_of_settled {xs : List Splice} (h : Settled c xs) (hs : Sorted xs) (depth : Nat) :
    Rebuilds depth c xs := by
  induction h using Settled.induction generalizing depth with
  | untouched g h => exact fun hne => absurd rfl hne
  | replaced g r h => exact fun _ hpaths => absurd rfl (hpaths _ List.mem_cons_self)
  | rebuilt stamp kind summary cs ds xs h hne hpaths ih =>
      rintro - - ts rfl
      have hready : Ready depth ([] : List Green).length cs ts :=
        ready_of_settled h hs hpaths rfl fun i c hc => ih i c hc (hs.under i) _
      have hgroups := hready.spliceGroups_eq (.node stamp kind summary cs ds)
      rw [splice, Splice.rebuild]
      simp only [List.nil_append, List.length_nil, bind_pure] at hgroups
      exact congrArg (· >>= _) hgroups

/-- Where validation has resolved, sorted and separated the targets, no error of `splice` but a
failing width can come up, and what it makes is what each child makes of the splices below it. -/
theorem splice_eq_rebuild {root : Green} (hs : Sorted (ts.map (below 0)))
    (h : Settled root (ts.map (below 0))) (hne : ts ≠ [])
    (hpaths : ∀ x ∈ ts.map (below 0), x.1 ≠ []) :
    splice root 0 ts = Splice.rebuild root (ts.map (below 0)) :=
  rebuilds_of_settled h hs 0 (fun hnil => hne (List.map_eq_nil_iff.mp hnil)) hpaths ts rfl

end Target

end LosslessSyntax
