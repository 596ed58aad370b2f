import LosslessSyntax.Document
import LosslessSyntax.Proofs.Session.Reached
import LosslessSyntax.Proofs.Workbench.Builder

namespace LosslessSyntax

structure Workbench where
  supply : Supply
  elements : List Green
  builders : List Builder
  sessions : List Session
  documents : List Document

inductive Green.Creation (held : List Green) (supply : Supply) : Green → Supply → Prop
  | token {kind : Kind} {leading text trailing : Nat} {g : Green} {rest : Supply} :
      leading + text + trailing ≤ maxSize →
      Green.ofShape ⟨kind, leading, text, trailing, false⟩ supply = .ok (g, rest) →
      Creation held supply g rest
  | missing {kind : Kind} {g : Green} {rest : Supply} :
      Green.ofShape (TokenShape.absent kind) supply = .ok (g, rest) → Creation held supply g rest
  | node {kind : Kind} {cs : List Green} {g : Green} {rest : Supply} :
      (∀ c ∈ cs, c ∈ held) → Green.ofChildren kind cs supply = .ok (g, rest) →
      Creation held supply g rest
  | fittingNode {kind : Kind} {cs : List Green} {g : Green} {rest : Supply} :
      (∀ c ∈ cs, c ∈ held) → Green.ofFittingChildren kind cs supply = .ok (g, rest) →
      Creation held supply g rest
  | replaceChild {parent replacement : Green} {index : Nat} {g : Green} {rest : Supply} :
      parent ∈ held → replacement ∈ held →
      parent.replaceChild index replacement supply = .ok (g, rest) → Creation held supply g rest
  | attach {element : Green} {d : Diagnostic} {g : Green} {rest : Supply} :
      element ∈ held → element.attach d supply = .ok (g, rest) → Creation held supply g rest

namespace Workbench

def empty (supply : Supply) : Workbench := ⟨supply, [], [], [], []⟩

def draw (w : Workbench) (rest : Supply) : Workbench := { w with supply := rest }

def hold (w : Workbench) (gs : List Green) : Workbench :=
  { w with elements := gs ++ w.elements }

def putBuilder (w : Workbench) (i : Nat) (b : Builder) : Workbench :=
  { w with builders := w.builders.set i b }

def putSession (w : Workbench) (i : Nat) (s : Session) : Workbench :=
  { w with sessions := w.sessions.set i s }

def putDocument (w : Workbench) (i : Nat) (d : Document) : Workbench :=
  { w with documents := w.documents.set i d }

def addSession (w : Workbench) (s : Session) : Workbench := { w with sessions := s :: w.sessions }

inductive Step (w : Workbench) : Workbench → Prop
  | create {g : Green} {rest : Supply} :
      g.Creation w.elements w.supply rest → Step w ((w.draw rest).hold [g])
  | part {g c : Green} : g ∈ w.elements → c ∈ g.children → Step w (w.hold [c])
  | newBuilder (internsTokens : Bool) (depthHint : Nat) :
      Step w { w with builders := Builder.new internsTokens depthHint :: w.builders }
  | callBuilder {i : Nat} {b b' : Builder} {out : List Green} {rest : Supply} :
      w.builders[i]? = some b → b.Call w.elements w.supply b' out rest →
      Step w (((w.draw rest).putBuilder i b').hold out)
  | openSession {g : Green} {s : Session} {rest : Supply} :
      g ∈ w.elements → g.isNode = true → Session.ofRoot g w.supply = .ok (s, rest) →
      Step w ((w.draw rest).addSession s)
  | move {i : Nat} {s t : Session} :
      w.sessions[i]? = some s → s.Move (· ∈ w.elements) t → Step w (w.putSession i t)
  | handle {i id : Nat} {s : Session} {p : Placement} :
      w.sessions[i]? = some s → s.placements[id]? = some p → Step w (w.hold [p.green])
  | apply {i : Nat} {s t new : Session} {edits : List Edit} {rest : Supply} :
      w.sessions[i]? = some s → (∀ e ∈ edits, e.replacement ∈ w.elements) →
      Session.apply edits w.supply s = .ok (new, rest) t →
      Step w ((((w.draw rest).putSession i t).addSession new).hold [new.root])
  | refuse {i : Nat} {s t : Session} {edits : List Edit} {f : Failure} :
      w.sessions[i]? = some s → (∀ e ∈ edits, e.replacement ∈ w.elements) →
      Session.apply edits w.supply s = .error f t → Step w (w.putSession i t)
  | newDocument {g : Green} :
      g ∈ w.elements → g.isNode = true →
      Step w { w with documents := Document.ofRoot g :: w.documents }
  | viewDocument {i : Nat} {d : Document} {s : Session} {rest : Supply} :
      w.documents[i]? = some d → d.session w.supply = .ok (s, rest) →
      Step w (((w.draw rest).addSession s).hold [d.root])
  | modify {i : Nat} {d d' : Document} {s : Session} {edits : List (Path × Green)}
      {rest : Supply} :
      w.documents[i]? = some d → (∀ e ∈ edits, e.2 ∈ w.elements) →
      Document.modify edits w.supply d = .ok (s, rest) d' →
      Step w ((((w.draw rest).putDocument i d').addSession s).hold [d'.root])

inductive Reachable : Workbench → Prop
  | empty (supply : Supply) : Reachable (empty supply)
  | step {w w' : Workbench} : Reachable w → Step w w' → Reachable w'

end Workbench

end LosslessSyntax
