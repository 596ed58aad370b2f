import LosslessSyntax.Proofs.Builder.Event
import LosslessSyntax.Proofs.Edit.Substitution
import LosslessSyntax.Proofs.Green.Content

namespace LosslessSyntax

namespace Builder

inductive Reachable : Builder → Prop
  | new (internsTokens : Bool) (depthHint : Nat) : Reachable (new internsTokens depthHint)
  | event {b : Builder} (supply : Supply) (e : Event Green) :
      Reachable b → Reachable (b.perform supply e).builder
  | token {b b' : Builder} {kind : Kind} {leading text trailing : Nat} {g : Green}
      {supply rest : Supply} :
      Reachable b → b.token kind leading text trailing supply = .ok ((g, b'), rest) → Reachable b'
  | missing {b b' : Builder} {kind : Kind} {g : Green} {supply rest : Supply} :
      Reachable b → b.missing kind supply = .ok ((g, b'), rest) → Reachable b'
  | createToken {b b' : Builder} {shape : TokenShape} {answer : Except Failure Green}
      {supply rest : Supply} :
      Reachable b → b.createToken shape supply = .ok ((answer, b'), rest) → Reachable b'

def tokenEvent (shape : TokenShape) : Event Green :=
  if shape.missing then .pushMissing shape.kind
  else .pushToken shape.kind shape.leading shape.text shape.trailing

mutual

def replay (chosen : List Nat → Bool) : Green → List (Event Green)
  | .token stamp shape ds =>
      if chosen [] then [.push (.token stamp shape ds)] else [tokenEvent shape]
  | .node stamp kind summary cs ds =>
      if chosen [] then [.push (.node stamp kind summary cs ds)]
      else .startNode kind :: (replayAmong chosen 0 cs ++ [.finishNode])

def replayAmong (chosen : List Nat → Bool) (index : Nat) : List Green → List (Event Green)
  | [] => []
  | c :: cs => replay (fun q => chosen (index :: q)) c ++ replayAmong chosen (index + 1) cs

end

variable {b b' b'' : Builder} {shape : TokenShape} {supply rest last : Supply} {kind : Kind}
  {g t r : Green} {gs hs cs rs : List Green} {e : Event Green} {es fs : List (Event Green)}
  {chosen : List Nat → Bool} {index : Nat}

theorem Reachable.honest (h : b.Reachable) : b.Honest := by
  induction h with
  | new internsTokens depthHint => exact honest_new internsTokens depthHint
  | event supply e _ ih => exact ih.perform supply e
  | token _ hrun ih =>
      obtain ⟨u, next, -, hrun⟩ := Mint.bind_eq_ok_iff.mp hrun
      exact ih.intern hrun
  | missing _ hrun ih =>
      obtain ⟨u, next, -, hrun⟩ := Mint.bind_eq_ok_iff.mp hrun
      exact ih.intern hrun
  | createToken _ hrun ih =>
      rcases createToken_eq_ok hrun with ⟨-, rfl, -⟩ | ⟨-, t, -, hrun⟩
      · exact ih
      · exact ih.intern hrun

theorem performAll_append (b : Builder) (supply : Supply) (es fs : List (Event Green)) :
    b.performAll supply (es ++ fs) =
      let (answers, c, next) := b.performAll supply es
      let (more, last) := c.performAll next fs
      (answers ++ more, last) := by
  induction es generalizing b supply with
  | nil => rfl
  | cons e es ih =>
      rw [List.cons_append, performAll, ih]
      rfl

theorem Gains.closeNode (h : (b.startNode kind).Gains gs b') (hgs : ∀ g ∈ gs, g.WellFormed)
    (hle : Green.widths gs ≤ maxSize) (supply : Supply) :
    ∃ b'', b'.closeNode supply = ⟨.ok none, b'', ⟨supply.next + 1⟩⟩ ∧
      b.Gains [.node supply.next kind (Green.summarize gs []) gs []] b'' := by
  have hpending : b'.pending.toList = b.pending.toList ++ gs := h.pending
  have hdrop : b'.pending.toList.drop b.pending.size = gs := by
    rw [hpending, ← Array.length_toList, List.drop_left]
  have htake : (b'.pending.take b.pending.size).toList = b.pending.toList := by
    rw [toList_take, hpending, ← Array.length_toList, List.take_left]
  have hfinish := finishNode_of_cons h.opened (by rw [hdrop]; exact hgs) supply
  rw [hdrop, if_pos hle] at hfinish
  have hclose := closeNode_eq_settle fun fault hfault => nomatch hfault.symm.trans hfinish
  rw [hfinish] at hclose
  refine ⟨_, hclose, h.honest.of_cache_eq rfl, rfl, ?_⟩
  rw [Array.toList_push, htake]

structure Streams (b : Builder) (supply : Supply) (es : List (Event Green)) (gs : List Green)
    (b' : Builder) (rest : Supply) : Prop where
  run : b.performAll supply es = (es.map fun _ => .ok none, b', rest)
  gains : b.Gains gs b'

namespace Streams

theorem nil (h : b.Honest) (supply : Supply) : b.Streams supply [] [] b supply :=
  ⟨rfl, .refl h⟩

theorem single (h : b.perform supply e = ⟨.ok none, b', rest⟩) (hgains : b.Gains gs b') :
    b.Streams supply [e] gs b' rest := by
  refine ⟨?_, hgains⟩
  rw [performAll, h]
  rfl

theorem append (h : b.Streams supply es gs b' rest) (h' : b'.Streams rest fs hs b'' last) :
    b.Streams supply (es ++ fs) (gs ++ hs) b'' last := by
  refine ⟨?_, h.gains.trans h'.gains⟩
  rw [performAll_append, h.run, List.map_append]
  simp only [h'.run]

theorem node (h : (b.startNode kind).Streams supply es gs b' rest)
    (hgs : ∀ g ∈ gs, g.WellFormed) (hle : Green.widths gs ≤ maxSize) :
    ∃ b'', b.Streams supply (.startNode kind :: (es ++ [.finishNode]))
      [.node rest.next kind (Green.summarize gs []) gs []] b'' ⟨rest.next + 1⟩ := by
  obtain ⟨b'', hclose, hgains⟩ := h.gains.closeNode hgs hle rest
  refine ⟨b'', ?_, hgains⟩
  have hlast : b'.performAll rest [.finishNode] = ([.ok none], b'', ⟨rest.next + 1⟩) := by
    rw [performAll, perform, hclose]
    rfl
  have hrun := performAll_append (b.startNode kind) supply es [.finishNode]
  rw [h.run] at hrun
  simp only [hlast] at hrun
  rw [performAll, perform, hrun, List.map_cons, List.map_append]
  rfl

end Streams

structure Streamable (t : Green) : Prop where
  wellFormed : t.WellFormed
  plain : ∀ q m, t.descend? q = some m → m.diagnostics = []
  tokenKinds : ∀ q m, t.descend? q = some m → m.isToken = true → m.kind.isToken = true

theorem Streamable.leaf {stamp : Nat} (hwf : (Green.token stamp shape []).WellFormed)
    (hkind : shape.kind.isToken = true) : Streamable (.token stamp shape []) := by
  refine ⟨hwf, ?_, ?_⟩
  · intro q m hm
    cases q with
    | nil => exact Option.some.inj hm ▸ rfl
    | cons i q => exact nomatch hm
  · intro q m hm htoken
    cases q with
    | nil => exact Option.some.inj hm ▸ hkind
    | cons i q => exact nomatch hm

theorem Streamable.of_children {stamp : Nat} {summary : Summary}
    (hwf : (Green.node stamp kind summary cs []).WellFormed) (hcs : ∀ c ∈ cs, Streamable c) :
    Streamable (.node stamp kind summary cs []) := by
  refine ⟨hwf, ?_, ?_⟩
  · intro q m hm
    cases q with
    | nil => exact Option.some.inj hm ▸ rfl
    | cons i q =>
        obtain ⟨c, hc, hm⟩ := Green.descend?_cons_eq_some_iff.mp hm
        exact (hcs c (List.mem_of_getElem? hc)).plain q m hm
  · intro q m hm htoken
    cases q with
    | nil => exact nomatch Option.some.inj hm ▸ htoken
    | cons i q =>
        obtain ⟨c, hc, hm⟩ := Green.descend?_cons_eq_some_iff.mp hm
        exact (hcs c (List.mem_of_getElem? hc)).tokenKinds q m hm htoken

theorem Streamable.of_child? (h : Streamable t) (hc : t.child? index = some g) :
    Streamable g := by
  have hstep : ∀ q m, g.descend? q = some m → t.descend? (index :: q) = some m := by
    intro q m hm
    exact Green.descend?_cons_eq_some_iff.mpr ⟨g, hc, hm⟩
  exact ⟨h.wellFormed.of_child? hc, fun q m hm => h.plain _ m (hstep q m hm),
    fun q m hm => h.tokenKinds _ m (hstep q m hm)⟩

structure Rebuilt (chosen : List Nat → Bool) (t r : Green) : Prop where
  wellFormed : r.WellFormed
  unstamped : r.unstamped = t.unstamped
  kept : ∀ q, chosen q = true → r.descend? q = t.descend? q

structure RebuiltAmong (chosen : List Nat → Bool) (index : Nat) (cs rs : List Green) : Prop where
  wellFormed : ∀ r ∈ rs, r.WellFormed
  unstamped : Green.unstampedAll rs = Green.unstampedAll cs
  kept : ∀ i q, chosen ((index + i) :: q) = true →
    rs[i]?.bind (Green.descend? · q) = cs[i]?.bind (Green.descend? · q)

theorem RebuiltAmong.nil : RebuiltAmong chosen index [] [] :=
  ⟨List.forall_mem_nil _, rfl, fun _ _ _ => rfl⟩

theorem RebuiltAmong.cons (h : Rebuilt (fun q => chosen (index :: q)) g r)
    (hs : RebuiltAmong chosen (index + 1) cs rs) :
    RebuiltAmong chosen index (g :: cs) (r :: rs) := by
  refine ⟨List.forall_mem_cons.mpr ⟨h.wellFormed, hs.wellFormed⟩, ?_, ?_⟩
  · rw [Green.unstampedAll, Green.unstampedAll, h.unstamped, hs.unstamped]
  · intro i q hq
    cases i with
    | zero => exact h.kept q hq
    | succ i =>
        refine hs.kept i q ?_
        rwa [Nat.add_assoc, Nat.add_comm 1 i]

theorem widths_eq_of_unstamped (h : Green.unstampedAll rs = Green.unstampedAll cs) :
    Green.widths rs = Green.widths cs := by
  have hwidth := congrArg (fun gs => (Green.summarize gs []).width) h
  rwa [Green.summarize_unstampedAll, Green.summarize_unstampedAll] at hwidth

theorem RebuiltAmong.node {stamp : Nat} {summary : Summary} {ds : List Diagnostic}
    (h : RebuiltAmong chosen 0 cs rs) (hchosen : ¬ chosen [] = true)
    (ht : Streamable (.node stamp kind summary cs ds)) (stamp' : Nat) :
    Green.widths rs ≤ maxSize ∧
      Rebuilt chosen (.node stamp kind summary cs ds)
        (.node stamp' kind (Green.summarize rs []) rs []) := by
  have hds : ds = [] := ht.plain [] _ rfl
  have hwidths : Green.widths rs ≤ maxSize := by
    rw [widths_eq_of_unstamped h.unstamped]
    exact (ht.wellFormed.widths_children rfl).trans_le ht.wellFormed.width_le
  have hr : (Green.node stamp' kind (Green.summarize rs []) rs []).WellFormed :=
    .node h.wellFormed hwidths
  refine ⟨hwidths, hr, ?_, ?_⟩
  · exact Green.unstamped_eq_of_children ht.wellFormed hr rfl rfl rfl hds.symm h.unstamped
  · intro q hq
    cases q with
    | nil => exact absurd hq hchosen
    | cons i q => exact h.kept i q (by rwa [Nat.zero_add])

theorem eq_absent_of_missing (hwidth : shape.width = 0) (hmissing : shape.missing = true) :
    shape = .absent shape.kind := by
  obtain ⟨kind, leading, text, trailing, missing⟩ := shape
  obtain rfl : missing = true := hmissing
  have hsum : leading + text + trailing = 0 := hwidth
  obtain ⟨rfl, rfl, rfl⟩ : leading = 0 ∧ text = 0 ∧ trailing = 0 := by omega
  rfl

theorem perform_tokenEvent (b : Builder) (supply : Supply)
    (hmissing : shape.missing = true → shape.width = 0) :
    b.perform supply (tokenEvent shape) = b.settle supply (b.pushShape shape supply) := by
  rw [tokenEvent]
  split
  · rename_i h
    rw [perform, pushMissing_eq, ← eq_absent_of_missing (hmissing h) h]
  · rename_i h
    rw [perform, pushToken_eq, ← Bool.eq_false_iff.mpr h]

theorem Honest.streams_push (hb : b.Honest) (ht : Streamable t) (supply : Supply) :
    b.Streams supply [.push t] [t] (b.push t) supply ∧ Rebuilt chosen t t :=
  ⟨.single rfl (hb.push t), ht.wellFormed, rfl, fun _ _ => rfl⟩

theorem Honest.streams_token {stamp : Nat} {ds : List Diagnostic} (hb : b.Honest)
    (ht : Streamable (.token stamp shape ds)) (hchosen : ¬ chosen [] = true) (supply : Supply) :
    ∃ r b' rest, b.Streams supply [tokenEvent shape] [r] b' rest ∧
      Rebuilt chosen (.token stamp shape ds) r := by
  obtain rfl : ds = [] := ht.plain [] _ rfl
  obtain ⟨stamp', b', rest, hrun, hgains⟩ := hb.pushShape shape (ht.tokenKinds [] _ rfl rfl) supply
  cases ht.wellFormed with
  | token hw hm =>
      refine ⟨_, b', rest, .single ?_ hgains, .token hw hm, rfl, ?_⟩
      · rw [perform_tokenEvent b supply hm, hrun, settle]
      · intro q hq
        cases q with
        | nil => exact absurd hq hchosen
        | cons i q => rfl

theorem streams_replayAmong
    (ih : ∀ c ∈ cs, ∀ (chosen : List Nat → Bool) (b : Builder) (supply : Supply), Streamable c →
      b.Honest → ∃ r b' rest, b.Streams supply (replay chosen c) [r] b' rest ∧ Rebuilt chosen c r)
    (hcs : ∀ c ∈ cs, Streamable c) (chosen : List Nat → Bool) (index : Nat) (hb : b.Honest)
    (supply : Supply) :
    ∃ rs b' rest, b.Streams supply (replayAmong chosen index cs) rs b' rest ∧
      RebuiltAmong chosen index cs rs := by
  induction cs generalizing index b supply with
  | nil => exact ⟨[], b, supply, .nil hb supply, .nil⟩
  | cons c cs ihcs =>
      obtain ⟨r, b', rest, hhead, hr⟩ := ih c List.mem_cons_self (fun q => chosen (index :: q))
        b supply (hcs c List.mem_cons_self) hb
      obtain ⟨rs, b'', last, htail, hrs⟩ := ihcs (fun d hd => ih d (List.mem_cons_of_mem c hd))
        (fun d hd => hcs d (List.mem_cons_of_mem c hd)) (index + 1) hhead.gains.honest rest
      exact ⟨r :: rs, b'', last, hhead.append htail, .cons hr hrs⟩

theorem streams_replay (chosen : List Nat → Bool) (b : Builder) (supply : Supply)
    (ht : Streamable t) (hb : b.Honest) :
    ∃ r b' rest, b.Streams supply (replay chosen t) [r] b' rest ∧ Rebuilt chosen t r := by
  induction t generalizing chosen b supply with
  | token stamp shape ds =>
      rw [replay]
      split
      · exact ⟨_, _, _, hb.streams_push ht supply⟩
      · exact hb.streams_token ht ‹_› supply
  | node stamp kind summary cs ds ih =>
      rw [replay]
      split
      · exact ⟨_, _, _, hb.streams_push ht supply⟩
      · rename_i hchosen
        have hcs : ∀ c ∈ cs, Streamable c := by
          intro c hc
          obtain ⟨i, hi⟩ := List.getElem?_of_mem hc
          exact ht.of_child? hi
        obtain ⟨rs, b', rest, hrun, hrs⟩ := streams_replayAmong ih hcs chosen 0
          (b := b.startNode kind) (hb.of_cache_eq rfl) supply
        obtain ⟨hwidths, hrebuilt⟩ := hrs.node hchosen ht rest.next
        obtain ⟨b'', hnode⟩ := hrun.node hrs.wellFormed hwidths
        exact ⟨_, b'', _, hnode, hrebuilt⟩

theorem performAll_replay (chosen : List Nat → Bool) (supply : Supply) (hb : b.Reachable)
    (hopened : b.opened = []) (hpending : b.pending = #[]) (ht : Streamable t)
    (hnode : t.isNode = true) :
    ∃ root, root.isNode = true ∧ Green.alike root t = true ∧ root.unstamped = t.unstamped ∧
      (b.performAll supply (replay chosen t ++ [.finish])).1 =
        (replay chosen t).map (fun _ => .ok none) ++ [.ok (some root)] ∧
      ∀ q, chosen q = true → root.descend? q = t.descend? q := by
  obtain ⟨root, b', rest, hstreams, hrebuilt⟩ := streams_replay chosen b supply ht hb.honest
  have hisNode : root.isNode = true := by
    have hcontent := congrArg Green.isNode hrebuilt.unstamped
    cases t with
    | token stamp shape ds => exact nomatch hnode
    | node stamp kind summary cs ds =>
        cases root with
        | token stamp' shape' ds' => exact nomatch hcontent
        | node stamp' kind' summary' cs' ds' => rfl
  have hfinish : b'.finish.1 = .ok root := by
    rw [finish, hstreams.gains.opened, hopened, hstreams.gains.pending, hpending]
    exact if_pos hisNode
  refine ⟨root, hisNode, Green.alike_of_unstamped_eq hrebuilt.unstamped, hrebuilt.unstamped, ?_,
    hrebuilt.kept⟩
  rw [performAll_append, hstreams.run]
  change _ ++ [b'.finish.1.map some] = _
  rw [hfinish]
  rfl

end Builder

namespace Sample

def idle : Builder :=
  ((Builder.new true 128).performAll ⟨7⟩ [.pushToken .identifierToken 0 1 0, .finish]).2.1

theorem token_streamable (stamp : Nat) {kind : Kind} {text : Nat} (hkind : kind.isToken = true)
    (htext : text ≤ maxSize) : Builder.Streamable (token stamp kind text) :=
  .leaf (token_wellFormed stamp kind htext) hkind

theorem assignment_streamable : Builder.Streamable assignment := by
  refine .of_children assignment_wellFormed ?_
  intro c hc
  have hwf := assignment_wellFormed.of_mem_children hc
  simp only [List.mem_cons, List.not_mem_nil, or_false] at hc
  rcases hc with rfl | rfl | rfl | rfl
  · exact .of_children hwf (List.forall_mem_singleton.mpr (token_streamable _ rfl (by decide)))
  · exact token_streamable _ rfl (by decide)
  · exact .of_children hwf (List.forall_mem_singleton.mpr (token_streamable _ rfl (by decide)))
  · exact token_streamable _ rfl (by decide)

theorem assignment_replayed : idle.Reachable ∧ Builder.Streamable assignment ∧
    ∃ root, root.isNode = true ∧ Green.alike root assignment = true ∧
      root.unstamped = assignment.unstamped ∧
      (idle.performAll ⟨8⟩ (Builder.replay (· == [2]) assignment ++ [.finish])).1 =
        (Builder.replay (· == [2]) assignment).map (fun _ => .ok none) ++ [.ok (some root)] ∧
      ∀ q, (q == [2]) = true → root.descend? q = assignment.descend? q := by
  have hidle : idle.Reachable :=
    .event ⟨8⟩ .finish (.event ⟨7⟩ (.pushToken .identifierToken 0 1 0) (.new true 128))
  exact ⟨hidle, assignment_streamable, Builder.performAll_replay (· == [2]) ⟨8⟩ hidle rfl rfl
    assignment_streamable rfl⟩

end Sample

end LosslessSyntax
