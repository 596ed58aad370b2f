import LosslessSyntax.Proofs.Builder.Client
import LosslessSyntax.Proofs.Workbench.Builder
import Mathlib.Data.List.Dedup

namespace LosslessSyntax

open Green

namespace Builder

namespace Client

variable {w w' : Client} {b : Builder} {shape : TokenShape} {supply rest : Supply} {t : Green}

structure Shares (w : Client) : Prop where
  internsTokens : w.builder.internsTokens = true
  plain : ∀ x ∈ w.builder.cache, ∃ stamp < w.supply.next, x.2 = .token stamp x.1 []
  shapes : (w.builder.cache.map Prod.fst).Nodup
  stamps : (w.builder.cache.map fun x => x.2.stamp).Nodup
  produced : ∀ x, x ∈ w.produced ↔ x ∈ w.builder.cache
  misses : w.builder.stats.misses = w.builder.cache.length
  traffic : w.builder.stats.hits + w.builder.stats.misses = w.produced.length

namespace Shares

theorem kept (h : w.Shares) (hkeeps : w.builder.Keeps w'.builder)
    (hle : w.supply.next ≤ w'.supply.next) (hproduced : w'.produced = w.produced) :
    w'.Shares := by
  refine ⟨?_, ?_, ?_, ?_, ?_, ?_, ?_⟩
  · rw [hkeeps.internsTokens, h.internsTokens]
  · rw [hkeeps.cache]
    intro x hx
    obtain ⟨stamp, hlt, ht⟩ := h.plain x hx
    exact ⟨stamp, Nat.lt_of_lt_of_le hlt hle, ht⟩
  · rw [hkeeps.cache]
    exact h.shapes
  · rw [hkeeps.cache]
    exact h.stamps
  · rw [hkeeps.cache, hproduced]
    exact h.produced
  · rw [hkeeps.cache, hkeeps.stats, h.misses]
  · rw [hkeeps.stats, hproduced, h.traffic]

theorem not_mem_shapes (hlookup : b.cache.lookup shape = none) :
    shape ∉ b.cache.map Prod.fst := by
  intro hmem
  obtain ⟨x, hx, rfl⟩ := List.mem_map.mp hmem
  have hne := List.lookup_eq_none_iff.mp hlookup x hx
  simp at hne

theorem not_mem_stamps (h : w.Shares) (hle : w.supply.next ≤ supply.next) :
    supply.next ∉ w.builder.cache.map fun x => x.2.stamp := by
  intro hmem
  obtain ⟨x, hx, hstamp⟩ := List.mem_map.mp hmem
  obtain ⟨stamp, hlt, ht⟩ := h.plain x hx
  rw [ht] at hstamp
  obtain rfl : stamp = supply.next := hstamp
  exact absurd (Nat.lt_of_lt_of_le hlt hle) (Nat.lt_irrefl _)

theorem interned (h : w.Shares) (hle : w.supply.next ≤ supply.next)
    (hinterned : w.builder.Interned shape supply t b rest) :
    Shares ⟨b, rest, [], w.produced ++ [(shape, t)]⟩ := by
  have hlength : (w.produced ++ [(shape, t)]).length = w.produced.length + 1 :=
    List.length_append
  have htraffic := h.traffic
  cases hinterned with
  | created hon => exact nomatch h.internsTokens.symm.trans hon
  | found hon hlookup =>
      have hmem := mem_of_lookup hlookup
      refine ⟨hon, ?_, h.shapes, h.stamps, ?_, h.misses, ?_⟩
      · intro x hx
        obtain ⟨stamp, hlt, ht⟩ := h.plain x hx
        exact ⟨stamp, Nat.lt_of_lt_of_le hlt hle, ht⟩
      · intro x
        rw [List.mem_append, List.mem_singleton, h.produced x]
        exact ⟨fun hx => hx.elim id fun hx => hx ▸ hmem, .inl⟩
      · rw [hlength]
        dsimp only
        omega
  | entered hon hlookup =>
      refine ⟨hon, ?_, ?_, ?_, ?_, ?_, ?_⟩
      · refine List.forall_mem_cons.mpr ⟨⟨supply.next, Nat.lt_succ_self _, rfl⟩, ?_⟩
        intro x hx
        obtain ⟨stamp, hlt, ht⟩ := h.plain x hx
        exact ⟨stamp, Nat.lt_succ_of_lt (Nat.lt_of_lt_of_le hlt hle), ht⟩
      · exact List.nodup_cons.mpr ⟨not_mem_shapes hlookup, h.shapes⟩
      · exact List.nodup_cons.mpr ⟨h.not_mem_stamps hle, h.stamps⟩
      · intro x
        rw [List.mem_append, List.mem_singleton, List.mem_cons, h.produced x, or_comm]
      · exact congrArg (· + 1) h.misses
      · rw [hlength]
        dsimp only
        omega

theorem step (h : w.Shares) (htraffic : w.Traffic w') : w'.Shares := by
  cases htraffic with
  | kept hkeeps hle hproduced => exact h.kept hkeeps hle hproduced
  | produced hle hinterned hkeeps hsupply hproduced =>
      exact (h.interned hle hinterned).kept hkeeps (Nat.le_of_eq (congrArg Supply.next hsupply.symm))
        hproduced

theorem run (h : w.Shares) (htraffic : Relation.ReflTransGen Traffic w w') : w'.Shares := by
  induction htraffic with
  | refl => exact h
  | tail _ hstep ih => exact ih.step hstep

theorem start (depthHint : Nat) (supply : Supply) (held : List Green) :
    (start true depthHint supply held).Shares :=
  ⟨rfl, List.forall_mem_nil _, .nil, .nil, fun _ => .rfl, rfl, rfl⟩

theorem same_iff (h : w.Shares) {x y : TokenShape × Green} (hx : x ∈ w.produced)
    (hy : y ∈ w.produced) : x.2.same y.2 = true ↔ x.1 = y.1 := by
  have hx := (h.produced x).mp hx
  have hy := (h.produced y).mp hy
  constructor
  · intro hsame
    rw [Green.same, Bool.and_eq_true, beq_iff_eq, beq_iff_eq] at hsame
    exact congrArg Prod.fst (List.inj_on_of_nodup_map h.stamps hx hy hsame.2)
  · intro hshape
    rw [List.inj_on_of_nodup_map h.shapes hx hy hshape]
    exact y.2.same_refl

theorem misses_eq (h : w.Shares) :
    w.builder.stats.misses = (w.produced.map Prod.fst).dedup.length := by
  have hperm : (w.produced.map Prod.fst).dedup.Perm (w.builder.cache.map Prod.fst) := by
    refine (List.perm_ext_iff_of_nodup (List.nodup_dedup _) h.shapes).mpr fun shape => ?_
    simp only [List.mem_dedup, List.mem_map, h.produced]
  rw [hperm.length_eq, List.length_map, h.misses]

end Shares

structure Fresh (w : Client) : Prop where
  internsTokens : w.builder.internsTokens = false
  stats : w.builder.stats = ⟨0, 0⟩
  plain : ∀ x ∈ w.produced, ∃ stamp, x.2 = .token stamp x.1 []

namespace Fresh

theorem step (h : w.Fresh) (htraffic : w.Traffic w') : w'.Fresh := by
  cases htraffic with
  | kept hkeeps hle hproduced =>
      exact ⟨hkeeps.internsTokens.trans h.internsTokens, hkeeps.stats.trans h.stats,
        hproduced ▸ h.plain⟩
  | produced hle hinterned hkeeps hsupply hproduced =>
      cases hinterned with
      | found hon hlookup => exact nomatch hon.symm.trans h.internsTokens
      | entered hon hlookup => exact nomatch hon.symm.trans h.internsTokens
      | created hon =>
          refine ⟨hkeeps.internsTokens.trans hon, hkeeps.stats.trans h.stats, ?_⟩
          rw [hproduced]
          exact List.forall_mem_append.mpr
            ⟨h.plain, List.forall_mem_singleton.mpr ⟨_, rfl⟩⟩

theorem run (h : w.Fresh) (htraffic : Relation.ReflTransGen Traffic w w') : w'.Fresh := by
  induction htraffic with
  | refl => exact h
  | tail _ hstep ih => exact ih.step hstep

end Fresh

def Refused (shape : TokenShape) : Prop :=
  shape.kind.isToken = false ∨
    (shape.missing = true ∧ (shape.leading, shape.text, shape.trailing) ≠ (0, 0, 0)) ∨
    maxSize < shape.width

theorem refused_iff : Refused shape ↔ ∃ e, checkToken shape = .error e := by
  rw [checkToken]
  split
  · rename_i hkind
    rw [Bool.not_eq_true'] at hkind
    exact iff_of_true (.inl hkind) ⟨_, rfl⟩
  · rename_i hkind
    split
    · rename_i hlengths
      rw [Bool.and_eq_true, decide_eq_true_iff] at hlengths
      exact iff_of_true (.inr (.inl hlengths)) ⟨_, rfl⟩
    · rename_i hlengths
      rw [Bool.and_eq_true, decide_eq_true_iff] at hlengths
      split
      · rename_i hwidth
        exact iff_of_true (.inr (.inr hwidth)) ⟨_, rfl⟩
      · rename_i hwidth
        refine iff_of_false ?_ ?_
        · rintro (h | h | h)
          · exact hkind (by rw [h, Bool.not_false])
          · exact hlengths h
          · exact hwidth h
        · rintro ⟨e, he⟩
          cases he

theorem serve_createToken (w : Client) (shape : TokenShape) :
    ((∃ e, (w.serve (.createToken shape)).1 = .error e) ↔ Refused shape) ∧
      (Refused shape → (w.serve (.createToken shape)).2 = w) := by
  rw [serve, createToken]
  rcases w.builder.createToken_cases shape w.supply with
    ⟨e, hcheck, hrun⟩ | ⟨hcheck, t, b, rest, -, hrun⟩ <;> rw [hrun]
  · exact ⟨⟨fun _ => refused_iff.mpr ⟨e, hcheck⟩, fun _ => ⟨e, rfl⟩⟩, fun _ => rfl⟩
  · have haccepted : ¬ Refused shape := by
      rw [refused_iff, hcheck]
      rintro ⟨e, he⟩
      cases he
    refine ⟨⟨?_, fun h => absurd h haccepted⟩, fun h => absurd h haccepted⟩
    rintro ⟨e, he⟩
    cases he

structure Counted (w : Client) : Prop where
  plain : ∀ x ∈ w.produced, ∃ stamp, x.2 = .token stamp x.1 []
  same : ∀ x ∈ w.produced, ∀ y ∈ w.produced, x.2.same y.2 = true ↔ x.1 = y.1
  misses : w.builder.stats.misses = (w.produced.map Prod.fst).dedup.length
  total : w.builder.stats.hits + w.builder.stats.misses = w.produced.length

theorem Shares.counted (h : w.Shares) : w.Counted := by
  refine ⟨?_, fun x hx y hy => h.same_iff hx hy, h.misses_eq, h.traffic⟩
  intro x hx
  obtain ⟨stamp, -, ht⟩ := h.plain x ((h.produced x).mp hx)
  exact ⟨stamp, ht⟩

theorem twin_start (depthHint depthHint' : Nat) (supply supply' : Supply) (held : List Green) :
    (start true depthHint supply held).Twin (start false depthHint' supply' held) :=
  ⟨⟨rfl, .nil, honest_new _ _, honest_new _ _⟩, Twins.refl held, .nil⟩

theorem interning_unseen (depthHint depthHint' : Nat) (supply supply' : Supply)
    (held : List Green) (requests : List Request) :
    let on := (start true depthHint supply held).serveAll requests
    let off := (start false depthHint' supply' held).serveAll requests
    List.Forall₂ (Answer.Rel fun g g' => g.alike g' = true ∧ g.unstamped = g'.unstamped)
        on.1 off.1 ∧
      List.Forall₂ TwinAt on.2.produced off.2.produced ∧
      on.2.builder.drop = off.2.builder.drop ∧ on.2.Counted ∧ off.2.Fresh ∧
      ∀ shape, ((∃ e, (on.2.serve (.createToken shape)).1 = .error e) ↔ Refused shape) ∧
        (Refused shape → (on.2.serve (.createToken shape)).2 = on.2) := by
  have htwin := twin_start depthHint depthHint' supply supply' held
  have hself : (start false depthHint' supply' held).Twin (start false depthHint' supply' held) :=
    ⟨(honest_new false depthHint').twin_self, Twins.refl held, .nil⟩
  obtain ⟨hanswers, hend, htraffic⟩ := htwin.serveAll requests
  obtain ⟨-, -, htraffic'⟩ := hself.serveAll requests
  have hfresh : (start false depthHint' supply' held).Fresh := ⟨rfl, rfl, List.forall_mem_nil _⟩
  refine ⟨hanswers.imp fun _ _ h => h.mono fun _ _ hg => ⟨hg.alike, hg⟩, hend.produced, ?_,
    ((Shares.start depthHint supply held).run htraffic).counted, hfresh.run htraffic',
    serve_createToken _⟩
  rw [drop, drop, hend.builder.opened]

end Client

end Builder

end LosslessSyntax
