import LosslessSyntax.Proofs.Builder.Twin
import LosslessSyntax.Proofs.Edit.Twin
import Mathlib.Logic.Relation

namespace LosslessSyntax

open Green

namespace Builder

inductive Request where
  | token (kind : Kind) (leading text trailing : Nat)
  | missing (kind : Kind)
  | createToken (shape : TokenShape)
  | node (kind : Kind) (children : List Nat)
  | checkedNode (kind : Kind) (children : List Nat)
  | event (e : Event Nat)
  | part (element index : Nat)
  | attach (element : Nat) (d : Diagnostic)
  | edit (element : Nat) (edits : List (Path × Nat))

structure Client where
  builder : Builder
  supply : Supply
  held : List Green
  produced : List (TokenShape × Green)

def Event.onto (held : List Green) : Event Nat → Option (Event Green)
  | .startNode kind => some (.startNode kind)
  | .pushToken kind leading text trailing => some (.pushToken kind leading text trailing)
  | .pushMissing kind => some (.pushMissing kind)
  | .push i => held[i]?.map .push
  | .finishNode => some .finishNode
  | .finish => some .finish

def Reply.pushed (reply : Reply) : Option TokenShape → List (TokenShape × Green)
  | none => []
  | some shape =>
      match reply.answer with
      | .ok _ => reply.builder.pending.toList.getLast?.toList.map ((shape, ·))
      | .error _ => []

def edited (g : Green) (edits : List Edit) : Mint Green := do
  let s ← Session.ofRoot g
  fun supply => (Nav.answer (Session.apply edits supply) s).map fun r => (r.1.root, r.2)

namespace Client

def start (internsTokens : Bool) (depthHint : Nat) (supply : Supply) (held : List Green) : Client :=
  ⟨.new internsTokens depthHint, supply, held, []⟩

def gain (w : Client) (shape : TokenShape) (t : Green) (b : Builder) (rest : Supply) :
    Answer × Client :=
  (.ok (some t), ⟨b, rest, w.held ++ [t], w.produced ++ [(shape, t)]⟩)

def takeToken (w : Client) (shape : TokenShape) (m : Mint (Green × Builder)) : Answer × Client :=
  match m w.supply with
  | .ok ((t, b), rest) => w.gain shape t b rest
  | .error e => (.error e, w)

def createToken (w : Client) (shape : TokenShape) : Answer × Client :=
  match w.builder.createToken shape w.supply with
  | .ok ((.ok t, b), rest) => w.gain shape t b rest
  | .ok ((.error e, b), rest) => (.error e, { w with builder := b, supply := rest })
  | .error e => (.error e, w)

def takeElement (w : Client) (m : Mint Green) : Answer × Client :=
  match m w.supply with
  | .ok (g, rest) => (.ok (some g), { w with supply := rest, held := w.held ++ [g] })
  | .error e => (.error e, w)

def takeFrom (w : Client) (i : Nat) (f : Green → Mint Green) : Answer × Client :=
  match w.held[i]? with
  | some g => w.takeElement (f g)
  | none => (.ok none, w)

def stream (w : Client) (e : Event Green) : Answer × Client :=
  let reply := w.builder.perform w.supply e
  (reply.answer,
    { builder := reply.builder
      supply := reply.supply
      held := w.held ++ Answer.elements reply.answer
      produced := w.produced ++ reply.pushed e.shape? })

def named (w : Client) (elements : List Nat) : List Green := elements.filterMap (w.held[·]?)

def namedEdits (w : Client) (edits : List (Path × Nat)) : List Edit :=
  edits.filterMap fun x => w.held[x.2]?.map (Edit.atPath x.1)

def serve (w : Client) : Request → Answer × Client
  | .token kind leading text trailing =>
      w.takeToken ⟨kind, leading, text, trailing, false⟩
        (w.builder.token kind leading text trailing)
  | .missing kind => w.takeToken (.absent kind) (w.builder.missing kind)
  | .createToken shape => w.createToken shape
  | .node kind children => w.takeElement (w.builder.node kind (w.named children))
  | .checkedNode kind children => w.takeElement (w.builder.checkedNode kind (w.named children))
  | .event e =>
      match e.onto w.held with
      | some e => w.stream e
      | none => (.ok none, w)
  | .part i index => w.takeFrom i fun g => Mint.ofExcept (g.childAt index)
  | .attach i d => w.takeFrom i fun g => g.attach d
  | .edit i edits =>
      w.takeFrom i fun g => if g.isNode then edited g (w.namedEdits edits) else pure g

def serveAll (w : Client) : List Request → List Answer × Client
  | [] => ([], w)
  | r :: rs =>
      let (answer, next) := w.serve r
      let (answers, last) := next.serveAll rs
      (answer :: answers, last)

structure Twin (w v : Client) : Prop where
  builder : w.builder.Twin v.builder
  held : Twins w.held v.held
  produced : List.Forall₂ TwinAt w.produced v.produced

inductive Traffic (w w' : Client) : Prop
  | produced {shape : TokenShape} {next rest : Supply} {t : Green} {b : Builder} :
      w.supply.next ≤ next.next → w.builder.Interned shape next t b rest →
      b.Keeps w'.builder → w'.supply = rest → w'.produced = w.produced ++ [(shape, t)] →
      Traffic w w'
  | kept :
      w.builder.Keeps w'.builder → w.supply.next ≤ w'.supply.next → w'.produced = w.produced →
      Traffic w w'

structure Served (w : Client) (r r' : Answer × Client) : Prop where
  answer : Answer.Rel Green.Twin r.1 r'.1
  client : r.2.Twin r'.2
  traffic : w.Traffic r.2

end Client

variable {w v : Client} {supply : Supply} {m m' : Mint Green} {e e' : Event Green} {g g' : Green}

theorem Reply.Twin.pushed {r r' : Reply} (h : Reply.Twin supply r r')
    (shape? : Option TokenShape) : List.Forall₂ TwinAt (r.pushed shape?) (r'.pushed shape?) := by
  obtain ⟨x, b, rest⟩ := r
  obtain ⟨y, c, rest'⟩ := r'
  obtain ⟨hanswer, hbuilder, -⟩ := h
  cases shape? with
  | none => exact .nil
  | some shape =>
      have hlast : Option.Rel Green.Twin b.pending.toList.getLast? c.pending.toList.getLast? := by
        rw [List.getLast?_eq_getElem?, List.getLast?_eq_getElem?, hbuilder.pending.length_eq]
        exact rel_getElem? hbuilder.pending _
      have hpushed : List.Forall₂ TwinAt (b.pending.toList.getLast?.toList.map ((shape, ·)))
          (c.pending.toList.getLast?.toList.map ((shape, ·))) := by
        rcases rel_cases hlast with ⟨hb, hc⟩ | ⟨t, t', hb, hc, ht⟩ <;> rw [hb, hc]
        · exact .nil
        · exact .cons ⟨rfl, ht⟩ .nil
      cases hanswer with
      | refused e => exact .nil
      | done => exact hpushed
      | handed hg => exact hpushed

theorem agree_edited (hg : g.Twin g') {es fs : List Edit} (h : List.Forall₂ Edit.Twin es fs) :
    Mint.Agree Green.Twin (edited g es) (edited g' fs) := by
  refine (Session.agree_ofRoot hg).bind fun s t hst => ?_
  intro supply supply'
  dsimp only
  rcases Session.agree_apply h supply supply' s t hst with
    ⟨e, s', t', hs, ht, -⟩ | ⟨r, r', s', t', hs, ht, ⟨hnew, hle⟩, -⟩
  · rw [Nav.answer_of_error hs, Nav.answer_of_error ht]
    exact .inl ⟨e, rfl, rfl⟩
  · rw [Nav.answer_of_ok hs, Nav.answer_of_ok ht]
    exact .inr ⟨_, _, _, _, rfl, rfl, hnew.root, hle⟩

namespace Client

namespace Twin

theorem served_refused (h : w.Twin v) (e : Failure) : Served w (.error e, w) (.error e, v) :=
  ⟨.refused e, h, .kept (.refl _) (Nat.le_refl _) rfl⟩

theorem served_done (h : w.Twin v) : Served w (.ok none, w) (.ok none, v) :=
  ⟨.done, h, .kept (.refl _) (Nat.le_refl _) rfl⟩

theorem served_gain (h : w.Twin v) (shape : TokenShape) {next next' rest rest' : Supply}
    {t t' : Green} {b b' : Builder} (hle : w.supply.next ≤ next.next)
    (hw : w.builder.intern shape next = .ok ((t, b), rest))
    (hv : v.builder.intern shape next' = .ok ((t', b'), rest')) :
    Served w (w.gain shape t b rest) (v.gain shape t' b' rest') := by
  obtain ⟨t, b, rest, hrun, hinterned⟩ := intern_eq_ok w.builder shape next
  obtain ⟨t', b', rest', hrun', hinterned'⟩ := intern_eq_ok v.builder shape next'
  cases hw.symm.trans hrun
  cases hv.symm.trans hrun'
  obtain ⟨⟨stamp, rfl⟩, hgains⟩ := hinterned.gains h.builder.left
  obtain ⟨⟨stamp', rfl⟩, hgains'⟩ := hinterned'.gains h.builder.right
  refine ⟨.handed rfl, ⟨h.builder.gains hgains hgains' .nil, ?_, ?_⟩,
    .produced hle hinterned (.refl _) rfl rfl⟩
  · exact List.rel_append h.held (.cons rfl .nil)
  · exact List.rel_append h.produced (.cons ⟨rfl, rfl⟩ .nil)

theorem served_takeToken (h : w.Twin v) {check : Mint Unit} (hcheck : Mint.Agree Eq check check)
    (shape : TokenShape) :
    Served w (w.takeToken shape do check; w.builder.intern shape)
      (v.takeToken shape do check; v.builder.intern shape) := by
  rw [takeToken, takeToken]
  rcases hcheck w.supply v.supply with ⟨e, hw, hv⟩ | ⟨u, u', next, next', hw, hv, -, hle⟩
  · rw [Mint.bind_error hw, Mint.bind_error hv]
    exact h.served_refused e
  · rw [Mint.bind_ok hw, Mint.bind_ok hv]
    obtain ⟨t, b, rest, hrun, -⟩ := intern_eq_ok w.builder shape next
    obtain ⟨t', b', rest', hrun', -⟩ := intern_eq_ok v.builder shape next'
    rw [hrun, hrun']
    exact h.served_gain shape hle hrun hrun'

theorem served_createToken (h : w.Twin v) (shape : TokenShape) :
    Served w (w.createToken shape) (v.createToken shape) := by
  rw [createToken, createToken]
  rcases w.builder.createToken_cases shape w.supply with
    ⟨e, hcheck, hw⟩ | ⟨hcheck, t, b, rest, hrun, hw⟩ <;>
  rcases v.builder.createToken_cases shape v.supply with
    ⟨e', hcheck', hv⟩ | ⟨hcheck', t', b', rest', hrun', hv⟩ <;>
  rw [hw, hv]
  · obtain rfl := Except.error.inj (hcheck.symm.trans hcheck')
    exact h.served_refused e
  · exact nomatch hcheck.symm.trans hcheck'
  · exact nomatch hcheck.symm.trans hcheck'
  · exact h.served_gain shape (Nat.le_refl _) hrun hrun'

theorem served_takeElement (h : w.Twin v) (hm : Mint.Agree Green.Twin m m') :
    Served w (w.takeElement m) (v.takeElement m') := by
  rw [takeElement, takeElement]
  rcases hm w.supply v.supply with ⟨e, hw, hv⟩ | ⟨g, g', rest, rest', hw, hv, hg, hle⟩ <;>
    rw [hw, hv]
  · exact h.served_refused e
  · have hheld := List.rel_append h.held (.cons hg .nil)
    exact ⟨.handed hg, ⟨h.builder, hheld, h.produced⟩, .kept (.refl _) hle rfl⟩

theorem served_takeFrom (h : w.Twin v) (i : Nat) {f f' : Green → Mint Green}
    (hf : ∀ g g', g.Twin g' → Mint.Agree Green.Twin (f g) (f' g')) :
    Served w (w.takeFrom i f) (v.takeFrom i f') := by
  rw [takeFrom, takeFrom]
  rcases rel_cases (rel_getElem? h.held i) with ⟨hw, hv⟩ | ⟨g, g', hw, hv, hg⟩ <;> rw [hw, hv]
  · exact h.served_done
  · exact h.served_takeElement (hf g g' hg)

theorem served_stream (h : w.Twin v) (he : Event.Twin e e') :
    Served w (w.stream e) (v.stream e') := by
  have hreply := h.builder.perform he w.supply v.supply
  have hshape : e'.shape? = e.shape? := by
    cases he <;> rfl
  have htwin : (w.stream e).2.Twin (v.stream e').2 := by
    refine ⟨hreply.builder, List.rel_append h.held hreply.answer.twins_elements, ?_⟩
    rw [stream, stream, hshape]
    exact List.rel_append h.produced (hreply.pushed e.shape?)
  refine ⟨hreply.answer, htwin, ?_⟩
  cases hs : e.shape? with
  | none =>
      refine .kept (keeps_perform _ _ hs) hreply.next_le ?_
      rw [stream, hs]
      exact List.append_nil _
  | some shape =>
      have hrun := perform_eq_settle w.builder w.supply hs
      rcases w.builder.settle_pushShape_cases shape w.supply with
        ⟨t, b, rest, hinterned, hsettle⟩ | ⟨f, hsettle⟩
      · rw [stream, hrun, hsettle, hs]
        refine .produced (Nat.le_refl _) hinterned ⟨rfl, rfl, rfl⟩ rfl ?_
        simp [Reply.pushed, Builder.push]
      · rw [stream, hrun, hsettle, hs]
        exact .kept (.refl _) (Nat.le_refl _) (List.append_nil _)

theorem named (h : w.Twin v) (elements : List Nat) : Twins (w.named elements) (v.named elements) := by
  refine List.rel_filterMap (R := Eq) ?_ (List.forall₂_eq_eq_eq ▸ rfl)
  rintro i - rfl
  exact rel_getElem? h.held i

theorem namedEdits (h : w.Twin v) (edits : List (Path × Nat)) :
    List.Forall₂ Edit.Twin (w.namedEdits edits) (v.namedEdits edits) := by
  refine List.rel_filterMap (R := Eq) ?_ (List.forall₂_eq_eq_eq ▸ rfl)
  rintro x - rfl
  dsimp only
  rcases rel_cases (rel_getElem? h.held x.2) with ⟨hw, hv⟩ | ⟨g, g', hw, hv, hg⟩ <;> rw [hw, hv]
  · exact .none
  · exact .some ⟨rfl, ⟨rfl, rfl⟩, hg⟩

theorem served (h : w.Twin v) (r : Request) : Served w (w.serve r) (v.serve r) := by
  cases r with
  | token kind leading text trailing => exact h.served_takeToken (agree_requireTokenKind kind) _
  | missing kind => exact h.served_takeToken (agree_requireTokenKind kind) _
  | createToken shape => exact h.served_createToken shape
  | node kind children =>
      exact h.served_takeElement ((h.named children).agree_ofFittingChildren kind)
  | checkedNode kind children =>
      exact h.served_takeElement (Builder.Twin.agree_checkedNode _ _ kind (h.named children))
  | event e =>
      rw [serve, serve]
      cases e with
      | startNode kind => exact h.served_stream (.same _)
      | pushToken kind leading text trailing => exact h.served_stream (.same _)
      | pushMissing kind => exact h.served_stream (.same _)
      | push i =>
          rw [Event.onto, Event.onto]
          rcases rel_cases (rel_getElem? h.held i) with ⟨hw, hv⟩ | ⟨g, g', hw, hv, hg⟩ <;>
            rw [hw, hv]
          · exact h.served_done
          · exact h.served_stream (.push hg)
      | finishNode => exact h.served_stream (.same _)
      | finish => exact h.served_stream (.same _)
  | part i index =>
      refine h.served_takeFrom i fun g g' hg => ?_
      rw [childAt, childAt, hg.kind_eq, hg.children.length_eq]
      rcases rel_cases (hg.child? index) with ⟨hc, hc'⟩ | ⟨c, c', hc, hc', hcc⟩ <;> rw [hc, hc']
      · exact .fail _
      · exact .pure hcc
  | attach i d => exact h.served_takeFrom i fun g g' hg => hg.agree_attach d
  | edit i edits =>
      refine h.served_takeFrom i fun g g' hg => ?_
      rw [hg.isNode_eq]
      split
      · exact agree_edited hg (h.namedEdits edits)
      · exact .pure hg

end Twin

theorem Twin.serveAll (h : w.Twin v) (rs : List Request) :
    List.Forall₂ (Answer.Rel Green.Twin) (w.serveAll rs).1 (v.serveAll rs).1 ∧
      (w.serveAll rs).2.Twin (v.serveAll rs).2 ∧
      Relation.ReflTransGen Traffic w (w.serveAll rs).2 := by
  induction rs generalizing w v with
  | nil => exact ⟨.nil, h, .refl⟩
  | cons r rs ih =>
      have hserved := h.served r
      obtain ⟨hanswers, htwin, htraffic⟩ := ih hserved.client
      exact ⟨.cons hserved.answer hanswers, htwin, .head hserved.traffic htraffic⟩

end Client

end Builder

end LosslessSyntax
