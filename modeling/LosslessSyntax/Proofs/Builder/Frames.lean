import LosslessSyntax.Proofs.Builder.Event
import LosslessSyntax.Proofs.Green.Exact
import LosslessSyntax.Proofs.Green.Sound

namespace LosslessSyntax

namespace Builder

structure Frame where
  kind : Kind
  children : List Green

/-- The innermost frame comes first; `base` is what was pushed while no node was open. -/
structure Frames where
  base : List Green
  frames : List Frame

namespace Frames

def pendingOn (base : List Green) : List Frame → List Green
  | [] => base
  | f :: below => pendingOn base below ++ f.children

def openedOn (base : List Green) : List Frame → List OpenNode
  | [] => []
  | f :: below => ⟨f.kind, (pendingOn base below).length⟩ :: openedOn base below

def pending (fs : Frames) : List Green := pendingOn fs.base fs.frames

def opened (fs : Frames) : List OpenNode := openedOn fs.base fs.frames

def empty : Frames := ⟨[], []⟩

def start (fs : Frames) (kind : Kind) : Frames := ⟨fs.base, ⟨kind, []⟩ :: fs.frames⟩

def push (fs : Frames) (g : Green) : Frames :=
  match fs.frames with
  | [] => ⟨fs.base ++ [g], []⟩
  | f :: below => ⟨fs.base, ⟨f.kind, f.children ++ [g]⟩ :: below⟩

theorem pending_push (fs : Frames) (g : Green) : (fs.push g).pending = fs.pending ++ [g] := by
  obtain ⟨base, _ | ⟨f, below⟩⟩ := fs
  · rfl
  · exact (List.append_assoc _ _ _).symm

theorem opened_push (fs : Frames) (g : Green) : (fs.push g).opened = fs.opened := by
  obtain ⟨base, _ | ⟨f, below⟩⟩ := fs <;> rfl

end Frames

def Frame.node (f : Frame) (stamp : Nat) : Green :=
  .node stamp f.kind (Green.summarize f.children []) f.children []

def Frame.width (f : Frame) : Nat := Green.tokenWidths (Green.shapesAmong f.children)

namespace Frames

/-- What a call does to the stack and how it is answered. The stamp of a new element is left open. -/
inductive Step : Frames → Event Green → Except Failure (Option Green) → Frames → Prop
  | startNode (fs : Frames) (kind : Kind) : Step fs (.startNode kind) (.ok none) (fs.start kind)
  | pushToken (fs : Frames) (kind : Kind) (leading text trailing stamp : Nat) :
      Step fs (.pushToken kind leading text trailing) (.ok none)
        (fs.push (.token stamp ⟨kind, leading, text, trailing, false⟩ []))
  | pushMissing (fs : Frames) (kind : Kind) (stamp : Nat) :
      Step fs (.pushMissing kind) (.ok none) (fs.push (.token stamp (TokenShape.absent kind) []))
  | push (fs : Frames) (g : Green) : Step fs (.push g) (.ok none) (fs.push g)
  | finishNode {base : List Green} {f : Frame} {below : List Frame} (stamp : Nat) :
      f.width ≤ maxSize →
      Step ⟨base, f :: below⟩ .finishNode (.ok none) (Frames.push ⟨base, below⟩ (f.node stamp))
  | tooWide {base : List Green} {f : Frame} {below : List Frame} :
      maxSize < f.width →
      Step ⟨base, f :: below⟩ .finishNode (.error (.illegalShape f.kind .widthOverflow))
        ⟨base, f :: below⟩
  | nothingOpen (base : List Green) :
      Step ⟨base, []⟩ .finishNode (.error (.illegalShape .error .nothingOpen)) ⟨base, []⟩
  | finish {root : Green} :
      root.isNode = true → Step ⟨[root], []⟩ .finish (.ok (some root)) .empty
  | neverFinished (base : List Green) (f : Frame) (below : List Frame) :
      Step ⟨base, f :: below⟩ .finish (.error (.illegalShape f.kind .neverFinished)) .empty
  | noRoot : Step ⟨[], []⟩ .finish (.error (.illegalShape .error .noRoot)) .empty
  | rootIsToken {root : Green} :
      root.isNode = false →
      Step ⟨[root], []⟩ .finish (.error (.illegalShape root.kind .rootIsToken)) .empty
  | secondRoot (root extra : Green) (more : List Green) :
      Step ⟨root :: extra :: more, []⟩ .finish (.error (.illegalShape extra.kind .secondRoot))
        .empty

inductive Run : Frames → List (Event Green) → List (Except Failure (Option Green)) → Frames → Prop
  | nil (fs : Frames) : Run fs [] [] fs
  | cons {fs gs hs : Frames} {e : Event Green} {es : List (Event Green)}
      {answer : Except Failure (Option Green)} {answers : List (Except Failure (Option Green))} :
      Step fs e answer gs → Run gs es answers hs → Run fs (e :: es) (answer :: answers) hs

structure Flattens (fs : Frames) (b : Builder) : Prop where
  honest : b.Honest
  wellFormed : ∀ g ∈ fs.pending, g.WellFormed
  opened : b.opened = fs.opened
  pending : b.pending.toList = fs.pending

end Frames

def Event.Fits : Event Green → Prop
  | .pushToken kind leading text trailing =>
      kind.isToken = true ∧ leading + text + trailing ≤ maxSize
  | .pushMissing kind => kind.isToken = true
  | .push g => g.WellFormed
  | _ => True

namespace Frames

variable {fs : Frames} {b b' : Builder} {g : Green} {supply : Supply} {base : List Green}
  {f : Frame} {below : List Frame} {kind : Kind}

theorem flattens_empty (hb : b.Honest) (hopened : b.opened = []) (hpending : b.pending = #[]) :
    empty.Flattens b :=
  ⟨hb, List.forall_mem_nil _, hopened, by rw [hpending]; rfl⟩

namespace Flattens

theorem gains (h : fs.Flattens b) (hg : g.WellFormed) (hgains : b.Gains [g] b') :
    (fs.push g).Flattens b' := by
  refine ⟨hgains.honest, ?_, ?_, ?_⟩
  · rw [pending_push]
    exact List.forall_mem_append.mpr ⟨h.wellFormed, List.forall_mem_singleton.mpr hg⟩
  · rw [hgains.opened, h.opened, opened_push]
  · rw [hgains.pending, h.pending, pending_push]

theorem startNode (h : fs.Flattens b) (kind : Kind) : (fs.start kind).Flattens (b.startNode kind) := by
  have hflat : (fs.start kind).pending = fs.pending := List.append_nil _
  refine ⟨h.honest, hflat ▸ h.wellFormed, ?_, hflat ▸ h.pending⟩
  rw [Builder.startNode, h.opened, ← Array.length_toList, h.pending]
  rfl

theorem split (h : Flattens ⟨base, f :: below⟩ b) :
    (b.pending.toList.drop (pendingOn base below).length = f.children) ∧
      (b.pending.take (pendingOn base below).length).toList = pendingOn base below := by
  have hpending : b.pending.toList = pendingOn base below ++ f.children := h.pending
  rw [toList_take, hpending, List.drop_left, List.take_left]
  exact ⟨rfl, rfl⟩

theorem parts (h : Flattens ⟨base, f :: below⟩ b) :
    (∀ g ∈ pendingOn base below, g.WellFormed) ∧ ∀ c ∈ f.children, c.WellFormed :=
  List.forall_mem_append.mp h.wellFormed

theorem finishNode_eq (h : Flattens ⟨base, f :: below⟩ b) (supply : Supply) :
    (f.width ≤ maxSize ∧ ∃ b', b.finishNode supply = .ok (b', ⟨supply.next + 1⟩) ∧
        (Frames.push ⟨base, below⟩ (f.node supply.next)).Flattens b') ∨
      (maxSize < f.width ∧
        b.finishNode supply = .error (.illegalShape f.kind .widthOverflow)) := by
  obtain ⟨hdrop, htake⟩ := h.split
  obtain ⟨hbelow, hcs⟩ := h.parts
  have hrun := finishNode_of_cons h.opened (by rw [hdrop]; exact hcs) supply
  rw [hdrop, Green.widths_eq_tokenWidths hcs] at hrun
  split at hrun
  · rename_i hle
    refine .inl ⟨hle, _, hrun, ?_⟩
    have hwf : (f.node supply.next).WellFormed :=
      .node hcs (by rw [Green.widths_eq_tokenWidths hcs]; exact hle)
    refine ⟨h.honest, ?_, ?_, ?_⟩
    · rw [pending_push]
      exact List.forall_mem_append.mpr ⟨hbelow, List.forall_mem_singleton.mpr hwf⟩
    · rw [opened_push]
      rfl
    · rw [pending_push, Array.toList_push, htake]
      rfl
  · rename_i hlt
    exact .inr ⟨Nat.not_le.mp hlt, hrun⟩

theorem closeNode_eq (h : fs.Flattens b) (supply : Supply) :
    b.closeNode supply = b.settle supply (b.finishNode supply) := by
  refine closeNode_eq_settle ?_
  intro fault hfault
  obtain ⟨base, _ | ⟨f, below⟩⟩ := fs
  · exact nomatch hfault.symm.trans (finishNode_of_nil h.opened)
  · rcases h.finishNode_eq supply with ⟨-, b', hrun, -⟩ | ⟨-, hrun⟩
    · exact nomatch hfault.symm.trans hrun
    · exact nomatch hfault.symm.trans hrun

theorem finish_eq (h : fs.Flattens b) :
    ∃ answer, b.finish = (answer, { b with opened := [], pending := #[] }) ∧
      Step fs .finish (answer.map some) .empty := by
  refine ⟨_, rfl, ?_⟩
  rw [h.opened, h.pending]
  obtain ⟨base, _ | ⟨f, below⟩⟩ := fs
  · rcases base with _ | ⟨root, _ | ⟨extra, more⟩⟩
    · exact .noRoot
    · change Step ⟨[root], []⟩ .finish (Except.map some (if root.isNode then .ok root else
        .error (.illegalShape root.kind .rootIsToken))) .empty
      cases hnode : root.isNode with
      | true => exact .finish hnode
      | false => exact .rootIsToken hnode
    · exact .secondRoot root extra more
  · exact .neverFinished base f below

theorem step {e : Event Green} (h : fs.Flattens b) (he : e.Fits) (supply : Supply) :
    ∃ gs, Step fs e (b.perform supply e).answer gs ∧ gs.Flattens (b.perform supply e).builder := by
  cases e with
  | startNode kind => exact ⟨_, .startNode fs kind, h.startNode kind⟩
  | pushToken kind leading text trailing =>
      obtain ⟨stamp, b', rest, hrun, hgains⟩ :=
        h.honest.pushShape ⟨kind, leading, text, trailing, false⟩ he.1 supply
      have hfits : (TokenShape.mk kind leading text trailing false).Fits :=
        TokenShape.fits_of_le he.2
      rw [perform, pushToken_eq, hrun]
      exact ⟨_, .pushToken fs kind leading text trailing stamp,
        h.gains (.token hfits.width_le hfits.missing) hgains⟩
  | pushMissing kind =>
      obtain ⟨stamp, b', rest, hrun, hgains⟩ :=
        h.honest.pushShape (TokenShape.absent kind) he supply
      have hfits := TokenShape.fits_absent kind
      rw [perform, pushMissing_eq, hrun]
      exact ⟨_, .pushMissing fs kind stamp, h.gains (.token hfits.width_le hfits.missing) hgains⟩
  | push g => exact ⟨_, .push fs g, h.gains he (h.honest.push g)⟩
  | finishNode =>
      rw [perform, h.closeNode_eq]
      obtain ⟨base, _ | ⟨f, below⟩⟩ := fs
      · rw [finishNode_of_nil h.opened]
        exact ⟨_, .nothingOpen base, h⟩
      · rcases h.finishNode_eq supply with ⟨hle, b', hrun, hb'⟩ | ⟨hlt, hrun⟩
        · rw [hrun]
          exact ⟨_, .finishNode supply.next hle, hb'⟩
        · rw [hrun]
          exact ⟨_, .tooWide hlt, h⟩
  | finish =>
      obtain ⟨answer, hrun, hstep⟩ := h.finish_eq
      rw [perform, hrun]
      exact ⟨_, hstep, flattens_empty h.honest rfl rfl⟩

theorem run {events : List (Event Green)} (h : fs.Flattens b) (hall : ∀ e ∈ events, e.Fits)
    (supply : Supply) : ∃ gs, Run fs events (b.performAll supply events).1 gs ∧
      gs.Flattens (b.performAll supply events).2.1 := by
  induction events generalizing fs b supply with
  | nil => exact ⟨fs, .nil fs, h⟩
  | cons e es ih =>
      obtain ⟨he, hes⟩ := List.forall_mem_cons.mp hall
      obtain ⟨gs, hstep, hgs⟩ := h.step he supply
      obtain ⟨hs, hrun, hhs⟩ := ih hgs hes (b.perform supply e).supply
      exact ⟨hs, .cons hstep hrun, hhs⟩

end Flattens

theorem mark_le {frames : List Frame} {o : OpenNode} (ho : o ∈ openedOn base frames) :
    o.firstChild ≤ (pendingOn base frames).length := by
  induction frames with
  | nil => exact absurd ho List.not_mem_nil
  | cons f below ih =>
      rw [pendingOn, List.length_append]
      rcases List.mem_cons.mp ho with rfl | ho
      · exact Nat.le_add_right _ _
      · exact Nat.le_add_right_of_le (ih ho)

theorem pairwise_openedOn (base : List Green) (frames : List Frame) :
    (openedOn base frames).Pairwise fun upper lower => lower.firstChild ≤ upper.firstChild := by
  induction frames with
  | nil => exact .nil
  | cons f below ih => exact .cons (fun o ho => mark_le ho) ih

structure Framed (fs : Frames) (b : Builder) : Prop where
  opened : b.opened = fs.opened
  pending : b.pending.toList = fs.pending
  marks_le : ∀ o ∈ b.opened, o.firstChild ≤ b.pending.size
  marks_sorted : b.opened.Pairwise fun upper lower => lower.firstChild ≤ upper.firstChild
  refused : ∀ supply, (∃ e, (b.closeNode supply).answer = .error e) ↔
    fs.frames = [] ∨ ∃ f below, fs.frames = f :: below ∧ maxSize < f.width
  kept : ∀ supply e, (b.closeNode supply).answer = .error e → (b.closeNode supply).builder = b
  closed : ∀ supply, b.closeNode supply = b.settle supply (b.finishNode supply)
  finished : ∀ root, b.finish.1 = .ok root ↔ fs = ⟨[root], []⟩ ∧ root.isNode = true
  reset : b.finish.2 = { b with opened := [], pending := #[] }
  dropped : b.drop = .ok () ↔ fs.frames = []

namespace Flattens

theorem refused_iff (h : fs.Flattens b) (supply : Supply) :
    (∃ e, b.finishNode supply = .error e) ↔
      fs.frames = [] ∨ ∃ f below, fs.frames = f :: below ∧ maxSize < f.width := by
  obtain ⟨base, _ | ⟨f, below⟩⟩ := fs
  · exact ⟨fun _ => .inl rfl, fun _ => ⟨_, finishNode_of_nil h.opened⟩⟩
  · rcases h.finishNode_eq supply with ⟨hle, b', hrun, -⟩ | ⟨hlt, hrun⟩
    · rw [hrun]
      refine ⟨fun ⟨_, h⟩ => (nomatch h), ?_⟩
      rintro (h | ⟨f', below', heq, hlt⟩)
      · exact nomatch h
      · obtain ⟨rfl, -⟩ := List.cons.inj heq
        exact absurd hle (Nat.not_le.mpr hlt)
    · exact ⟨fun _ => .inr ⟨f, below, rfl, hlt⟩, fun _ => ⟨_, hrun⟩⟩

theorem finish_eq_ok_iff (h : fs.Flattens b) (root : Green) :
    b.finish.1 = .ok root ↔ fs = ⟨[root], []⟩ ∧ root.isNode = true := by
  obtain ⟨answer, hrun, hstep⟩ := h.finish_eq
  rw [hrun]
  constructor
  · rintro rfl
    cases hstep with
    | finish hnode => exact ⟨rfl, hnode⟩
  · rintro ⟨rfl, hnode⟩
    have hanswer := congrArg Prod.fst hrun
    rw [finish, h.opened, h.pending] at hanswer
    exact hanswer.symm.trans (if_pos hnode)

theorem framed (h : fs.Flattens b) : fs.Framed b := by
  have hclose := h.closeNode_eq
  refine ⟨h.opened, h.pending, ?_, ?_, ?_, ?_, hclose, h.finish_eq_ok_iff, rfl, ?_⟩
  · intro o ho
    rw [h.opened] at ho
    rw [← Array.length_toList, h.pending]
    exact mark_le ho
  · rw [h.opened]
    exact pairwise_openedOn fs.base fs.frames
  · intro supply
    rw [hclose, ← h.refused_iff supply]
    cases b.finishNode supply with
    | ok r => exact ⟨fun ⟨_, h⟩ => (nomatch h), fun ⟨_, h⟩ => (nomatch h)⟩
    | error e => exact ⟨fun _ => ⟨e, rfl⟩, fun _ => ⟨e, rfl⟩⟩
  · intro supply e he
    rw [hclose] at he ⊢
    cases hrun : b.finishNode supply with
    | ok r =>
        rw [hrun] at he
        exact nomatch he
    | error e => rfl
  · rw [drop, h.opened]
    obtain ⟨base, _ | ⟨f, below⟩⟩ := fs
    · exact ⟨fun _ => rfl, fun _ => rfl⟩
    · exact ⟨fun h => (nomatch h), fun h => (nomatch h)⟩

end Flattens

end Frames

theorem performAll_framed (internsTokens : Bool) (depthHint : Nat) (supply : Supply)
    {events : List (Event Green)} (h : ∀ e ∈ events, e.Fits) :
    ∃ fs, Frames.Run .empty events ((new internsTokens depthHint).performAll supply events).1 fs ∧
      fs.Framed ((new internsTokens depthHint).performAll supply events).2.1 := by
  have hempty := Frames.flattens_empty (honest_new internsTokens depthHint) rfl rfl
  obtain ⟨fs, hrun, hflattens⟩ := hempty.run h supply
  exact ⟨fs, hrun, hflattens.framed⟩

end Builder

namespace Sample

def overflowing : List (Builder.Event Green) :=
  [.startNode .modulePart, .startNode .list, .pushToken .identifierToken 0 maxSize 0,
    .pushMissing .commaToken, .pushToken .commaToken 0 1 0, .finishNode]

theorem overflowing_framed : (∀ e ∈ overflowing, e.Fits) ∧
    ∃ fs, Builder.Frames.Run .empty overflowing
        ((Builder.new true 128).performAll ⟨0⟩ overflowing).1 fs ∧
      fs.Framed ((Builder.new true 128).performAll ⟨0⟩ overflowing).2.1 := by
  have hfits : ∀ e ∈ overflowing, e.Fits := by
    intro e he
    simp only [overflowing, List.mem_cons, List.not_mem_nil, or_false] at he
    rcases he with rfl | rfl | rfl | rfl | rfl | rfl
    · trivial
    · trivial
    · exact ⟨rfl, by decide⟩
    · rfl
    · exact ⟨rfl, by decide⟩
    · trivial
  exact ⟨hfits, Builder.performAll_framed true 128 ⟨0⟩ hfits⟩

end Sample

end LosslessSyntax
