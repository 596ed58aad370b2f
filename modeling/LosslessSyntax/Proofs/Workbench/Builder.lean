import LosslessSyntax.Proofs.Builder.Event
import LosslessSyntax.Proofs.Green.Sound

namespace LosslessSyntax

namespace Builder

/-- One call on a builder that does not fail: the builder and the supply that it leaves, and the
elements that it hands out. The caller pushes and assembles elements that it holds, and keeps the
documented bound on token lengths. -/
inductive Call (held : List Green) (b : Builder) (supply : Supply) :
    Builder → List Green → Supply → Prop
  | token {kind : Kind} {leading text trailing : Nat} {g : Green} {b' : Builder} {rest : Supply} :
      leading + text + trailing ≤ maxSize →
      b.token kind leading text trailing supply = .ok ((g, b'), rest) →
      Call held b supply b' [g] rest
  | missing {kind : Kind} {g : Green} {b' : Builder} {rest : Supply} :
      b.missing kind supply = .ok ((g, b'), rest) → Call held b supply b' [g] rest
  | createToken {shape : TokenShape} {g : Green} {b' : Builder} {rest : Supply} :
      b.createToken shape supply = .ok ((.ok g, b'), rest) → Call held b supply b' [g] rest
  | refuseToken {shape : TokenShape} {e : Failure} {b' : Builder} {rest : Supply} :
      b.createToken shape supply = .ok ((.error e, b'), rest) → Call held b supply b' [] rest
  | node {kind : Kind} {cs : List Green} {g : Green} {rest : Supply} :
      (∀ c ∈ cs, c ∈ held) → b.node kind cs supply = .ok (g, rest) →
      Call held b supply b [g] rest
  | checkedNode {kind : Kind} {cs : List Green} {g : Green} {rest : Supply} :
      (∀ c ∈ cs, c ∈ held) → b.checkedNode kind cs supply = .ok (g, rest) →
      Call held b supply b [g] rest
  | startNode (kind : Kind) : Call held b supply (b.startNode kind) [] supply
  | push {g : Green} : g ∈ held → Call held b supply (b.push g) [] supply
  | pushToken {kind : Kind} {leading text trailing : Nat} {b' : Builder} {rest : Supply} :
      leading + text + trailing ≤ maxSize →
      b.pushToken kind leading text trailing supply = .ok (b', rest) →
      Call held b supply b' [] rest
  | pushMissing {kind : Kind} {b' : Builder} {rest : Supply} :
      b.pushMissing kind supply = .ok (b', rest) → Call held b supply b' [] rest
  | finishNode {b' : Builder} {rest : Supply} :
      b.finishNode supply = .ok (b', rest) → Call held b supply b' [] rest
  | finish {g : Green} {b' : Builder} :
      b.finish = (.ok g, b') → Call held b supply b' [g] supply
  | giveUp {e : Failure} {b' : Builder} :
      b.finish = (.error e, b') → Call held b supply b' [] supply

structure Sound (supply : Supply) (b : Builder) : Prop where
  cache : ∀ entry ∈ b.cache, entry.2.Sound supply
  pending : ∀ g ∈ b.pending.toList, g.Sound supply

structure Served (supply : Supply) (b : Builder) (out : List Green) (rest : Supply) : Prop where
  builder : b.Sound rest
  elements : ∀ g ∈ out, g.Sound rest
  next_le : supply.next ≤ rest.next

variable {b b' : Builder} {g : Green} {shape : TokenShape} {supply rest : Supply} {kind : Kind}
  {leading text trailing : Nat} {cs : List Green}

theorem sound_new (supply : Supply) (internsTokens : Bool) (depthHint : Nat) :
    (new internsTokens depthHint).Sound supply :=
  ⟨fun _ h => absurd h List.not_mem_nil, fun _ h => absurd h List.not_mem_nil⟩

theorem Sound.mono (hb : b.Sound supply) (hle : supply.next ≤ rest.next) : b.Sound rest :=
  ⟨fun entry h => (hb.cache entry h).mono hle, fun g h => (hb.pending g h).mono hle⟩

theorem Sound.served (hb : b.Sound supply) : b.Served supply [] supply :=
  ⟨hb, List.forall_mem_nil _, Nat.le_refl _⟩

theorem Sound.hands (hb : b.Sound supply) (hg : g.Made supply rest) : b.Served supply [g] rest :=
  ⟨hb.mono hg.next_le, List.forall_mem_singleton.mpr hg.sound, hg.next_le⟩

theorem mem_of_lookup {entries : List (TokenShape × Green)}
    (h : entries.lookup shape = some g) : (shape, g) ∈ entries := by
  obtain ⟨as, bs, rfl, -⟩ := List.lookup_eq_some_iff.mp h
  exact List.mem_append_right as List.mem_cons_self

theorem Sound.push (hb : b.Sound supply) (hg : g.Sound supply) : (b.push g).Sound supply := by
  refine ⟨hb.cache, ?_⟩
  intro c hc
  rw [Builder.push, Array.toList_push, List.mem_append, List.mem_singleton] at hc
  rcases hc with hc | rfl
  · exact hb.pending c hc
  · exact hg

theorem Served.push (h : b.Served supply [g] rest) : (b.push g).Served supply [] rest :=
  ⟨h.builder.push (h.elements g List.mem_cons_self), List.forall_mem_nil _, h.next_le⟩

theorem Sound.intern (hb : b.Sound supply) (hs : shape.Fits)
    (h : b.intern shape supply = .ok ((g, b'), rest)) : b'.Served supply [g] rest := by
  rw [Builder.intern] at h
  split at h
  · cases hlookup : b.cache.lookup shape with
    | some cached =>
        simp only [hlookup] at h
        obtain ⟨heq, rfl⟩ := Mint.pure_eq_ok_iff.mp h
        obtain ⟨rfl, rfl⟩ := Prod.mk.inj heq
        have hg := hb.cache _ (mem_of_lookup hlookup)
        exact ⟨⟨hb.cache, hb.pending⟩, List.forall_mem_singleton.mpr hg, Nat.le_refl _⟩
    | none =>
        simp only [hlookup] at h
        obtain ⟨fresh, next, hfresh, h⟩ := Mint.bind_eq_ok_iff.mp h
        obtain ⟨heq, rfl⟩ := Mint.pure_eq_ok_iff.mp h
        obtain ⟨rfl, rfl⟩ := Prod.mk.inj heq
        have hg := Green.made_of_ofShape hs hfresh
        have hb' := hb.mono hg.next_le
        exact ⟨⟨List.forall_mem_cons.mpr ⟨hg.sound, hb'.cache⟩, hb'.pending⟩,
          List.forall_mem_singleton.mpr hg.sound, hg.next_le⟩
  · obtain ⟨fresh, next, hfresh, h⟩ := Mint.bind_eq_ok_iff.mp h
    obtain ⟨heq, rfl⟩ := Mint.pure_eq_ok_iff.mp h
    obtain ⟨rfl, rfl⟩ := Prod.mk.inj heq
    exact hb.hands (Green.made_of_ofShape hs hfresh)

theorem requireTokenKind_eq_ok {u : Unit} (h : requireTokenKind kind supply = .ok (u, rest)) :
    supply = rest := by
  rw [requireTokenKind] at h
  split at h
  · exact (Mint.pure_eq_ok_iff.mp h).2
  · cases h

theorem Sound.token (hb : b.Sound supply) (hle : leading + text + trailing ≤ maxSize)
    (h : b.token kind leading text trailing supply = .ok ((g, b'), rest)) :
    b'.Served supply [g] rest := by
  obtain ⟨u, next, hkind, h⟩ := Mint.bind_eq_ok_iff.mp h
  obtain rfl := requireTokenKind_eq_ok hkind
  exact hb.intern (TokenShape.fits_of_le hle) h

theorem Sound.missing (hb : b.Sound supply) (h : b.missing kind supply = .ok ((g, b'), rest)) :
    b'.Served supply [g] rest := by
  obtain ⟨u, next, hkind, h⟩ := Mint.bind_eq_ok_iff.mp h
  obtain rfl := requireTokenKind_eq_ok hkind
  exact hb.intern (TokenShape.fits_absent kind) h

theorem fits_of_checkToken {u : Unit} (h : checkToken shape = .ok u) : shape.Fits := by
  rw [checkToken] at h
  split at h
  · exact nomatch h
  · split at h
    · exact nomatch h
    · rename_i hmissing
      split at h
      · exact nomatch h
      · rename_i hwidth
        refine ⟨Nat.not_lt.mp hwidth, ?_⟩
        intro hm
        rw [hm, Bool.true_and, decide_eq_true_iff, Decidable.not_not] at hmissing
        obtain ⟨hl, ht⟩ := Prod.mk.inj hmissing
        obtain ⟨ht, hr⟩ := Prod.mk.inj ht
        rw [TokenShape.width, hl, ht, hr]

theorem Sound.createToken (hb : b.Sound supply)
    (h : b.createToken shape supply = .ok ((.ok g, b'), rest)) : b'.Served supply [g] rest := by
  rcases createToken_eq_ok h with ⟨⟨e, he⟩, -⟩ | ⟨hcheck, t, ht, hrun⟩
  · exact nomatch he
  · obtain rfl := Except.ok.inj ht
    exact hb.intern (fits_of_checkToken hcheck) hrun

theorem createToken_refused {e : Failure}
    (h : b.createToken shape supply = .ok ((.error e, b'), rest)) : b' = b ∧ rest = supply := by
  rcases createToken_eq_ok h with ⟨-, hkept⟩ | ⟨-, t, ht, -⟩
  · exact hkept
  · exact nomatch ht

theorem made_of_checkedNode (hcs : ∀ c ∈ cs, c.Sound supply)
    (h : b.checkedNode kind cs supply = .ok (g, rest)) : g.Made supply rest := by
  rw [checkedNode] at h
  split at h
  · exact nomatch h
  · obtain ⟨u, next, hcheck, h⟩ := Mint.bind_eq_ok_iff.mp h
    obtain ⟨-, rfl⟩ := Mint.ofExcept_eq_ok_iff.mp hcheck
    exact Green.made_of_assemble hcs h

theorem Sound.finishNode (hb : b.Sound supply) (h : b.finishNode supply = .ok (b', rest)) :
    b'.Served supply [] rest := by
  rw [Builder.finishNode] at h
  cases hopened : b.opened with
  | nil =>
      simp only [hopened] at h
      cases h
  | cons top opened =>
      simp only [hopened] at h
      obtain ⟨node, next, hnode, h⟩ := Mint.bind_eq_ok_iff.mp h
      obtain ⟨rfl, rfl⟩ := Mint.pure_eq_ok_iff.mp h
      have hcs : ∀ c ∈ b.pending.toList.drop top.firstChild, c.Sound supply := by
        intro c hc
        exact hb.pending c (List.mem_of_mem_drop hc)
      have hmade := Green.made_of_assemble hcs hnode
      have hb' := hb.mono hmade.next_le
      refine ⟨⟨hb'.cache, ?_⟩, List.forall_mem_nil _, hmade.next_le⟩
      intro c hc
      simp only [Array.toList_push, List.mem_append, List.mem_singleton] at hc
      rcases hc with hc | rfl
      · refine hb'.pending c (List.mem_of_mem_take (i := top.firstChild) ?_)
        rwa [← Array.toList_shrink, Array.shrink_eq_take]
      · exact hmade.sound

theorem mem_of_soleRoot {opened : List OpenNode} (h : soleRoot opened cs = .ok g) : g ∈ cs := by
  unfold soleRoot at h
  split at h
  · exact nomatch h
  · exact nomatch h
  · split at h
    · cases h
      exact List.mem_cons_self
    · exact nomatch h
  · exact nomatch h

theorem Sound.call {held out : List Green} (hb : b.Sound supply)
    (hheld : ∀ c ∈ held, c.Sound supply) (h : Call held b supply b' out rest) :
    b'.Served supply out rest := by
  cases h with
  | token hle h => exact hb.token hle h
  | missing h => exact hb.missing h
  | createToken h => exact hb.createToken h
  | refuseToken h =>
      obtain ⟨rfl, rfl⟩ := createToken_refused h
      exact hb.served
  | node hcs h =>
      exact hb.hands (Green.made_of_ofFittingChildren (fun c hc => hheld c (hcs c hc)) h)
  | checkedNode hcs h => exact hb.hands (made_of_checkedNode (fun c hc => hheld c (hcs c hc)) h)
  | startNode kind => exact ⟨⟨hb.cache, hb.pending⟩, List.forall_mem_nil _, Nat.le_refl _⟩
  | push hg => exact (hb.push (hheld _ hg)).served
  | pushToken hle h =>
      obtain ⟨⟨g, b''⟩, next, htoken, h⟩ := Mint.bind_eq_ok_iff.mp h
      obtain ⟨rfl, rfl⟩ := Mint.pure_eq_ok_iff.mp h
      exact (hb.token hle htoken).push
  | pushMissing h =>
      obtain ⟨⟨g, b''⟩, next, htoken, h⟩ := Mint.bind_eq_ok_iff.mp h
      obtain ⟨rfl, rfl⟩ := Mint.pure_eq_ok_iff.mp h
      exact (hb.missing htoken).push
  | finishNode h => exact hb.finishNode h
  | finish h =>
      obtain ⟨hroot, rfl⟩ := Prod.mk.inj h
      have hg := hb.pending _ (mem_of_soleRoot hroot)
      exact ⟨⟨hb.cache, List.forall_mem_nil _⟩, List.forall_mem_singleton.mpr hg, Nat.le_refl _⟩
  | giveUp h =>
      obtain ⟨-, rfl⟩ := Prod.mk.inj h
      exact ⟨⟨hb.cache, List.forall_mem_nil _⟩, List.forall_mem_nil _, Nat.le_refl _⟩

end Builder

end LosslessSyntax
