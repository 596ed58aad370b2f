import LosslessSyntax.Builder
import LosslessSyntax.Proofs.Green.Mint
import LosslessSyntax.Proofs.Green.WellFormed

namespace LosslessSyntax

namespace Builder

/-- Elements are passed by what `α` names them with. -/
inductive Event (α : Type) where
  | startNode (kind : Kind)
  | pushToken (kind : Kind) (leading text trailing : Nat)
  | pushMissing (kind : Kind)
  | push (element : α)
  | finishNode
  | finish

def Event.shape? {α : Type} : Event α → Option TokenShape
  | .pushToken kind leading text trailing => some ⟨kind, leading, text, trailing, false⟩
  | .pushMissing kind => some (.absent kind)
  | _ => none

structure Reply where
  answer : Except Failure (Option Green)
  builder : Builder
  supply : Supply

def settle (b : Builder) (supply : Supply) : Except Failure (Builder × Supply) → Reply
  | .ok (b', rest) => ⟨.ok none, b', rest⟩
  | .error e => ⟨.error e, b, supply⟩

def closeNode (b : Builder) (supply : Supply) : Reply :=
  match b.opened with
  | [] => ⟨.error (.illegalShape .error .nothingOpen), b, supply⟩
  | top :: opened =>
      let children := b.pending.toList.drop top.firstChild
      let rest := { b with opened, pending := b.pending.take top.firstChild }
      match Green.ofChildren top.kind children supply with
      | .ok (node, next) => ⟨.ok none, rest.push node, next⟩
      | .error (.rejected e) =>
          ⟨.error (.rejected e),
            { rest with opened := top :: rest.opened, pending := rest.pending ++ children }, supply⟩
      | .error (.aborted fault) => ⟨.error (.aborted fault), rest, supply⟩

def perform (b : Builder) (supply : Supply) : Event Green → Reply
  | .startNode kind => ⟨.ok none, b.startNode kind, supply⟩
  | .pushToken kind leading text trailing =>
      b.settle supply (b.pushToken kind leading text trailing supply)
  | .pushMissing kind => b.settle supply (b.pushMissing kind supply)
  | .push g => ⟨.ok none, b.push g, supply⟩
  | .finishNode => b.closeNode supply
  | .finish => ⟨b.finish.1.map some, b.finish.2, supply⟩

def performAll (b : Builder) (supply : Supply) :
    List (Event Green) → List (Except Failure (Option Green)) × Builder × Supply
  | [] => ([], b, supply)
  | e :: es =>
      let reply := b.perform supply e
      let (answers, last) := performAll reply.builder reply.supply es
      (reply.answer :: answers, last)

variable {b b' b'' : Builder} {shape : TokenShape} {supply rest : Supply} {kind : Kind}
  {g t : Green} {gs hs : List Green} {e : Event Green} {leading text trailing : Nat}

theorem toList_take (elements : Array Green) (n : Nat) :
    (elements.take n).toList = elements.toList.take n := by
  rw [← Array.shrink_eq_take, Array.toList_shrink]

theorem take_append_drop (elements : Array Green) (n : Nat) :
    elements.take n ++ elements.toList.drop n = elements := by
  apply Array.toList_inj.mp
  rw [Array.toList_appendList, toList_take, List.take_append_drop]

theorem closeNode_eq_settle
    (h : ∀ fault, b.finishNode supply ≠ .error (.aborted fault)) :
    b.closeNode supply = b.settle supply (b.finishNode supply) := by
  rw [closeNode, finishNode] at *
  cases hopened : b.opened with
  | nil => rfl
  | cons top opened =>
      simp only [hopened] at h ⊢
      cases hnode : Green.ofChildren top.kind (b.pending.toList.drop top.firstChild) supply with
      | ok r =>
          rw [Mint.bind_ok hnode]
          rfl
      | error e =>
          rw [Mint.bind_error hnode] at h ⊢
          cases e with
          | aborted fault => exact absurd rfl (h fault)
          | rejected e => simp only [take_append_drop, ← hopened, settle]

theorem finishNode_of_nil (h : b.opened = []) :
    b.finishNode supply = .error (.illegalShape .error .nothingOpen) := by
  rw [finishNode, h]
  rfl

theorem finishNode_of_cons {top : OpenNode} {below : List OpenNode} (h : b.opened = top :: below)
    (hcs : ∀ c ∈ b.pending.toList.drop top.firstChild, c.WellFormed) (supply : Supply) :
    b.finishNode supply =
      if Green.widths (b.pending.toList.drop top.firstChild) ≤ maxSize then
        .ok ({ b with
          opened := below
          pending := (b.pending.take top.firstChild).push
            (.node supply.next top.kind
              (Green.summarize (b.pending.toList.drop top.firstChild) [])
              (b.pending.toList.drop top.firstChild) []) }, ⟨supply.next + 1⟩)
      else .error (.illegalShape top.kind .widthOverflow) := by
  have hnode := Green.assemble_eq top.kind hcs [] supply
  rw [finishNode, h]
  split at hnode
  · rename_i hle
    rw [if_pos hle]
    exact Mint.bind_ok hnode
  · rename_i hlt
    rw [if_neg hlt]
    exact Mint.bind_error hnode

inductive Interned (b : Builder) (shape : TokenShape) (supply : Supply) :
    Green → Builder → Supply → Prop
  | found {t : Green} :
      b.internsTokens = true → b.cache.lookup shape = some t →
      Interned b shape supply t { b with stats := ⟨b.stats.hits + 1, b.stats.misses⟩ } supply
  | entered :
      b.internsTokens = true → b.cache.lookup shape = none →
      Interned b shape supply (.token supply.next shape [])
        { b with
          cache := (shape, .token supply.next shape []) :: b.cache
          stats := ⟨b.stats.hits, b.stats.misses + 1⟩ }
        ⟨supply.next + 1⟩
  | created :
      b.internsTokens = false →
      Interned b shape supply (.token supply.next shape []) b ⟨supply.next + 1⟩

theorem intern_eq_ok (b : Builder) (shape : TokenShape) (supply : Supply) :
    ∃ t b' rest, b.intern shape supply = .ok ((t, b'), rest) ∧
      b.Interned shape supply t b' rest := by
  rw [intern]
  by_cases hon : b.internsTokens = true
  · rw [if_pos hon]
    cases hlookup : b.cache.lookup shape with
    | some t => exact ⟨_, _, _, rfl, .found hon hlookup⟩
    | none => exact ⟨_, _, _, rfl, .entered hon hlookup⟩
  · rw [if_neg hon]
    exact ⟨_, _, _, rfl, .created (Bool.eq_false_iff.mpr hon)⟩

theorem createToken_cases (b : Builder) (shape : TokenShape) (supply : Supply) :
    (∃ e, checkToken shape = .error e ∧
        b.createToken shape supply = .ok ((.error e, b), supply)) ∨
      (checkToken shape = .ok () ∧ ∃ t b' rest, b.intern shape supply = .ok ((t, b'), rest) ∧
        b.createToken shape supply = .ok ((.ok t, b'), rest)) := by
  rw [createToken]
  cases hcheck : checkToken shape with
  | error e => exact .inl ⟨e, rfl, rfl⟩
  | ok u =>
      obtain ⟨t, b', rest, hrun, -⟩ := intern_eq_ok b shape supply
      exact .inr ⟨rfl, t, b', rest, hrun, Mint.bind_ok hrun⟩

theorem createToken_eq_ok {answer : Except Failure Green}
    (h : b.createToken shape supply = .ok ((answer, b'), rest)) :
    ((∃ e, answer = .error e) ∧ b' = b ∧ rest = supply) ∨
      (checkToken shape = .ok () ∧ ∃ t, answer = .ok t ∧
        b.intern shape supply = .ok ((t, b'), rest)) := by
  rcases b.createToken_cases shape supply with ⟨e, -, hrun⟩ | ⟨hcheck, t, c, next, hintern, hrun⟩
  · cases h.symm.trans hrun
    exact .inl ⟨⟨e, rfl⟩, rfl, rfl⟩
  · cases h.symm.trans hrun
    exact .inr ⟨hcheck, t, rfl, hintern⟩

def Honest (b : Builder) : Prop :=
  ∀ shape t, b.cache.lookup shape = some t → ∃ stamp, t = .token stamp shape []

theorem honest_new (internsTokens : Bool) (depthHint : Nat) :
    (new internsTokens depthHint).Honest := by
  intro shape t h
  exact nomatch h

structure Gains (b : Builder) (gs : List Green) (b' : Builder) : Prop where
  honest : b'.Honest
  opened : b'.opened = b.opened
  pending : b'.pending.toList = b.pending.toList ++ gs

theorem Gains.refl (h : b.Honest) : b.Gains [] b := ⟨h, rfl, (List.append_nil _).symm⟩

theorem Gains.trans (h : b.Gains gs b') (h' : b'.Gains hs b'') : b.Gains (gs ++ hs) b'' := by
  refine ⟨h'.honest, h'.opened.trans h.opened, ?_⟩
  rw [h'.pending, h.pending, List.append_assoc]

theorem Honest.push (h : b.Honest) (g : Green) : b.Gains [g] (b.push g) :=
  ⟨h, rfl, Array.toList_push⟩

theorem Interned.gains (h : b.Interned shape supply t b' rest) (hb : b.Honest) :
    (∃ stamp, t = .token stamp shape []) ∧ b.Gains [] b' := by
  cases h with
  | found hon hlookup => exact ⟨hb shape t hlookup, hb, rfl, (List.append_nil _).symm⟩
  | created hon => exact ⟨⟨_, rfl⟩, .refl hb⟩
  | entered hon hlookup =>
      refine ⟨⟨_, rfl⟩, ?_, rfl, (List.append_nil _).symm⟩
      intro key u hu
      rw [List.lookup_cons] at hu
      split at hu
      · rename_i heq
        obtain rfl := eq_of_beq heq
        exact ⟨_, (Option.some.inj hu).symm⟩
      · exact hb key u hu

theorem requireTokenKind_of_isToken (h : kind.isToken = true) :
    requireTokenKind kind supply = .ok ((), supply) := by
  rw [requireTokenKind, if_pos h]
  rfl

def pushShape (b : Builder) (shape : TokenShape) : Mint Builder := do
  requireTokenKind shape.kind
  let (token, b) ← b.intern shape
  pure (b.push token)

theorem pushToken_eq (b : Builder) (kind : Kind) (leading text trailing : Nat) :
    b.pushToken kind leading text trailing = b.pushShape ⟨kind, leading, text, trailing, false⟩ := by
  rw [pushToken, token, bind_assoc]
  rfl

theorem pushMissing_eq (b : Builder) (kind : Kind) :
    b.pushMissing kind = b.pushShape (TokenShape.absent kind) := by
  rw [pushMissing, missing, bind_assoc]
  rfl

theorem Honest.pushShape (hb : b.Honest) (shape : TokenShape) (h : shape.kind.isToken = true)
    (supply : Supply) :
    ∃ stamp b' rest, b.pushShape shape supply = .ok (b', rest) ∧
      b.Gains [.token stamp shape []] b' := by
  obtain ⟨t, b', rest, hintern, hinterned⟩ := intern_eq_ok b shape supply
  obtain ⟨⟨stamp, rfl⟩, hgains⟩ := hinterned.gains hb
  refine ⟨stamp, b'.push (.token stamp shape []), rest, ?_, hgains.trans (hgains.honest.push _)⟩
  rw [Builder.pushShape, Mint.bind_ok (requireTokenKind_of_isToken h), Mint.bind_ok hintern]
  rfl

theorem Honest.of_cache_eq (h : b.Honest) (hcache : b'.cache = b.cache) : b'.Honest := by
  intro shape t ht
  exact h shape t (hcache ▸ ht)

theorem Honest.intern (h : b.Honest) (hrun : b.intern shape supply = .ok ((g, b'), rest)) :
    b'.Honest := by
  obtain ⟨t, c, next, hok, hinterned⟩ := intern_eq_ok b shape supply
  cases hrun.symm.trans hok
  exact (hinterned.gains h).2.honest

structure Keeps (b c : Builder) : Prop where
  internsTokens : c.internsTokens = b.internsTokens
  cache : c.cache = b.cache
  stats : c.stats = b.stats

theorem Keeps.refl (b : Builder) : b.Keeps b := ⟨rfl, rfl, rfl⟩

theorem keeps_closeNode (b : Builder) (supply : Supply) :
    b.Keeps (b.closeNode supply).builder := by
  rw [closeNode]
  split
  · exact .refl b
  · dsimp only
    split <;> exact ⟨rfl, rfl, rfl⟩

theorem perform_eq_settle (b : Builder) (supply : Supply) (h : e.shape? = some shape) :
    b.perform supply e = b.settle supply (b.pushShape shape supply) := by
  cases e with
  | pushToken kind leading text trailing =>
      cases h
      rw [perform, pushToken_eq]
  | pushMissing kind =>
      cases h
      rw [perform, pushMissing_eq]
  | startNode kind => cases h
  | push g => cases h
  | finishNode => cases h
  | finish => cases h

theorem keeps_perform (b : Builder) (supply : Supply) (h : e.shape? = none) :
    b.Keeps (b.perform supply e).builder := by
  cases e with
  | startNode kind => exact ⟨rfl, rfl, rfl⟩
  | pushToken kind leading text trailing => cases h
  | pushMissing kind => cases h
  | push g => exact ⟨rfl, rfl, rfl⟩
  | finishNode => exact b.keeps_closeNode supply
  | finish => exact ⟨rfl, rfl, rfl⟩

theorem settle_pushShape_cases (b : Builder) (shape : TokenShape) (supply : Supply) :
    (∃ t b' rest, b.Interned shape supply t b' rest ∧
        b.settle supply (b.pushShape shape supply) = ⟨.ok none, b'.push t, rest⟩) ∨
      ∃ f, b.settle supply (b.pushShape shape supply) = ⟨.error f, b, supply⟩ := by
  cases hkind : shape.kind.isToken with
  | true =>
      obtain ⟨t, b', rest, hok, hinterned⟩ := intern_eq_ok b shape supply
      refine .inl ⟨t, b', rest, hinterned, ?_⟩
      rw [pushShape, Mint.bind_ok (requireTokenKind_of_isToken hkind), Mint.bind_ok hok]
      rfl
  | false =>
      have hfail : requireTokenKind shape.kind supply =
          .error (.aborted (.notTokenKind shape.kind)) := by
        rw [requireTokenKind, hkind]
        rfl
      refine .inr ⟨.aborted (.notTokenKind shape.kind), ?_⟩
      rw [pushShape, Mint.bind_error hfail, settle]

theorem Honest.perform (h : b.Honest) (supply : Supply) (e : Event Green) :
    (b.perform supply e).builder.Honest := by
  cases hs : e.shape? with
  | none => exact h.of_cache_eq (b.keeps_perform supply hs).cache
  | some shape =>
      rw [perform_eq_settle b supply hs]
      rcases b.settle_pushShape_cases shape supply with
        ⟨t, b', rest, hinterned, hrun⟩ | ⟨f, hrun⟩ <;> rw [hrun]
      · exact ((hinterned.gains h).2.honest.push t).honest
      · exact h

end Builder

end LosslessSyntax
