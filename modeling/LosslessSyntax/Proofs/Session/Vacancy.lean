import LosslessSyntax.Proofs.Green.Listing
import LosslessSyntax.Proofs.Session.Fits

namespace LosslessSyntax

namespace Session

def below? (s : Session) : Nat → List Nat → Option Nat
  | id, [] => some id
  | id, i :: is => do
      let p ← s.placements[id]?
      let c ← p.memo[i]?.join
      s.below? c is

def vacant (s : Session) (start : Nat) (g : Green) : List (List Nat) :=
  g.paths.filter fun q => (s.below? start q).isNone

structure GrownBelow (start : Nat) (s t : Session) : Prop where
  grown : Extends s t
  fresh : ∀ id, s.placements.size ≤ id → id < t.placements.size → ∃ q, t.Under start q id

/-- The placement holds the element within the largest text, and the arena has room for all that is
not placed yet below it. -/
structure Roomy (s : Session) (start : Nat) (g : Green) : Prop where
  coherent : s.Coherent
  held : ∃ p, s.placements[start]? = some p ∧ p.green = g ∧ p.Sized
  room : s.placements.size + (s.vacant start g).length ≤ Arena.capacity

variable {s t u : Session} {start id : Nat} {q : List Nat} {g m : Green} {p : Placement}

namespace GrownBelow

theorem refl (start : Nat) (s : Session) : GrownBelow start s s :=
  ⟨.refl s, fun _ hle hlt => absurd hlt (Nat.not_lt.mpr hle)⟩

theorem trans (h : GrownBelow start s t) (h' : GrownBelow start t u) : GrownBelow start s u := by
  refine ⟨h.grown.trans h'.grown, fun id hle hlt => ?_⟩
  by_cases hold : id < t.placements.size
  · obtain ⟨q, hq⟩ := h.fresh id hle hold
    exact ⟨q, hq.mono h'.grown⟩
  · exact h'.fresh id (Nat.not_lt.mp hold) hlt

end GrownBelow

section Below

theorem below?_append (q r : List Nat) (id : Nat) :
    s.below? id (q ++ r) = (s.below? id q).bind fun a => s.below? a r := by
  induction q generalizing id with
  | nil => rfl
  | cons i q ih => simp only [List.cons_append, below?, Option.bind_eq_bind, Option.bind_assoc, ih]

theorem below?_eq_some_iff (hs : s.Coherent) :
    s.below? start q = some id ↔ s.Under start q id := by
  constructor
  · intro h
    induction q generalizing start with
    | nil =>
        obtain rfl := Option.some.inj h
        exact .self
    | cons i q ih =>
        obtain ⟨p, hp, hbelow⟩ := Option.bind_eq_some_iff.mp h
        obtain ⟨c, hc, hrest⟩ := Option.bind_eq_some_iff.mp hbelow
        obtain ⟨r, hr, hparent, rfl⟩ := hs.memoized hp (Option.join_eq_some_iff.mp hc)
        exact Under.trans (.child (q := []) .self hr hparent) (ih hrest)
  · intro h
    induction h with
    | self => rfl
    | @child q a id p _ hp ha ih =>
        obtain ⟨-, above, -, habove, -, -, hmemo⟩ := hs.below hp ha
        rw [below?_append, ih, Option.bind_some, below?, habove, Option.bind_eq_bind,
          Option.bind_some, hmemo]
        rfl

theorem mem_vacant_iff (hs : s.Coherent) :
    q ∈ s.vacant start g ↔ (g.descend? q).isSome ∧ ∀ id, ¬ s.Under start q id := by
  rw [vacant, List.mem_filter, Green.mem_paths_iff, Option.isNone_iff_eq_none]
  refine and_congr_right fun _ => ?_
  rw [Option.eq_none_iff_forall_ne_some]
  exact forall_congr' fun id => not_congr (below?_eq_some_iff hs)

theorem length_vacant_lt (hs : s.Coherent) (ht : t.Coherent) (hst : Extends s t)
    (hvacant : q ∈ s.vacant start g) (hplaced : t.Under start q id) :
    (t.vacant start g).length < (s.vacant start g).length := by
  have hsplit : t.vacant start g =
      (s.vacant start g).filter fun q => (t.below? start q).isNone := by
    rw [vacant, vacant, List.filter_filter]
    refine List.filter_congr fun r _ => ?_
    cases ht' : t.below? start r with
    | some id => rfl
    | none =>
        cases hs' : s.below? start r with
        | none => rfl
        | some id =>
            have hunder := ((below?_eq_some_iff hs).mp hs').mono hst
            exact nomatch ht'.symm.trans ((below?_eq_some_iff ht).mpr hunder)
  rw [hsplit, List.length_filter_lt_length_iff_exists]
  refine ⟨q, hvacant, ?_⟩
  rw [(below?_eq_some_iff ht).mpr hplaced]
  exact Bool.false_ne_true

end Below

theorem length_vacant_le (s : Session) (start : Nat) (g : Green) :
    (s.vacant start g).length ≤ g.size :=
  (List.length_filter_le _ _).trans_eq g.length_paths

namespace Roomy

theorem of_size (hs : s.Coherent) (hp : s.placements[start]? = some p) (hsized : p.Sized)
    (hroom : s.placements.size + p.green.size ≤ Arena.capacity) : s.Roomy start p.green := by
  have hle := s.length_vacant_le start p.green
  exact ⟨hs, ⟨p, hp, rfl, hsized⟩, by omega⟩

theorem holds (h : s.Roomy start g) (hid : s.Under start q id) (hm : g.descend? q = some m) :
    ∃ p, s.placements[id]? = some p ∧ p.green = m ∧ p.Sized := by
  obtain ⟨top, htop, rfl, hsized⟩ := h.held
  obtain ⟨p, hp, hpsized, -⟩ := hid.stop_le h.coherent htop hsized
  obtain ⟨p', hp', hm', -⟩ := hid.holds h.coherent htop hsized.wellFormed
  obtain rfl := Option.some.inj (hp.symm.trans hp')
  exact ⟨p, hp, Option.some.inj (hm'.symm.trans hm), hpsized⟩

theorem of_extends (h : s.Roomy start g) (ht : t.Coherent) (hst : Extends s t)
    (hroom : t.placements.size + (t.vacant start g).length ≤ Arena.capacity) : t.Roomy start g := by
  obtain ⟨p, hp, hg, hsized⟩ := h.held
  obtain ⟨r, hr, hrsized, hgreen, -⟩ := hst.sized hp hsized
  exact ⟨ht, ⟨r, hr, hgreen.trans hg, hrsized⟩, hroom⟩

theorem ask (h : s.Roomy start g) (hid : s.Under start q id) (hm : g.descend? q = some m)
    (i : Nat) :
    ∃ found t, child id i s = .ok found t ∧ GrownBelow start s t ∧ t.Roomy start g ∧
      found.isSome = (m.child? i).isSome ∧ ∀ cid ∈ found, t.Under start (q ++ [i]) cid := by
  obtain ⟨p, hp, rfl, hsized⟩ := h.holds hid hm
  have hs := h.coherent
  have hvacant (hsome : (p.green.child? i).isSome) (hnew : ∀ cid, ¬ s.Under id [i] cid) :
      q ++ [i] ∈ s.vacant start g := by
    refine (mem_vacant_iff hs).mpr ⟨?_, ?_⟩
    · rwa [Green.descend?_concat hm]
    · intro cid hcid
      obtain ⟨a, r, ha, hr, hparent, rfl⟩ := hcid.of_concat
      obtain rfl := ha.id_unique hs hid
      exact hnew cid (.child (q := []) .self hr hparent)
  cases childAnswer hs hp hsized i with
  | absent hnone he =>
      exact ⟨none, s, he, .refl start s, h, by rw [hnone]; rfl, fun _ hcid => (nomatch hcid)⟩
  | remembered hsome hunder he =>
      refine ⟨_, s, he, .refl start s, h, hsome.symm, ?_⟩
      intro _ hcid
      exact Option.some.inj hcid ▸ hid.trans hunder
  | @placed t hsome hnew ht hst hsize hunder he =>
      have hcid := (hid.mono hst).trans hunder
      have hfewer := length_vacant_lt hs ht hst (hvacant hsome hnew) hcid
      have hroom := h.room
      have hbelow : GrownBelow start s t := by
        refine ⟨hst, fun a hle hlt => ?_⟩
        obtain rfl : a = s.placements.size := by omega
        exact ⟨_, hcid⟩
      refine ⟨_, t, he, hbelow, h.of_extends ht hst (by omega), hsome.symm, ?_⟩
      intro _ hcid'
      exact Option.some.inj hcid' ▸ hcid
  | full hsome hnew hfull _ =>
      have hpos := List.length_pos_of_mem (hvacant hsome hnew)
      have hroom := h.room
      omega

end Roomy

end Session

end LosslessSyntax
