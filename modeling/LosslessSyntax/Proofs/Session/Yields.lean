import LosslessSyntax.Proofs.Session.Explore

namespace LosslessSyntax

namespace Session

structure Grounded (s : Session) : Prop where
  coherent : s.Coherent
  wellFormed : s.root.WellFormed

/-- The arena has no room for the whole tree beside what was placed apart from it. -/
def Crowded (s : Session) : Prop := Arena.capacity < s.root.size + s.strays

variable {s t : Session}

theorem Reached.grounded (h : s.Reached) : s.Grounded := ⟨h.coherent, h.root_wellFormed⟩

theorem Grounded.explored (h : s.Grounded) (hst : Explored s t) : t.Grounded :=
  ⟨hst.coherent, hst.grown.root ▸ h.wellFormed⟩

theorem Grounded.held {q : List Nat} {id : Nat} {m : Green} (hs : s.Grounded) (h : s.At q id)
    (hm : s.root.descend? q = some m) :
    ∃ p, s.placements[id]? = some p ∧ p.green = m ∧ p.offset = s.root.offsetAt q := by
  obtain ⟨p, hp, hg, ho⟩ := h.holds hs.coherent hs.wellFormed
  exact ⟨p, hp, Option.some.inj (hg.symm.trans hm), ho⟩

theorem Grounded.confined (h : s.Grounded) (hroom : ¬ s.Crowded) : Confined s.root.paths s := by
  refine ⟨h.coherent, h.wellFormed, fun q hq => placed_subset h.coherent h.wellFormed hq, ?_⟩
  rw [Green.length_paths, Nat.add_comm]
  exact Nat.not_lt.mp hroom

theorem Grounded.crowded_of_full (h : s.Grounded) {q : List Nat} (hq : (s.root.descend? q).isSome)
    (hnew : q ∉ s.placed) (hfull : Arena.capacity ≤ s.placements.size) : s.Crowded := by
  by_contra hroom
  have hlt := (h.confined hroom).size_lt (Green.mem_paths_iff.mpr hq) hnew
  exact absurd hlt (Nat.not_lt.mpr hfull)

theorem Explored.crowded_iff (hst : Explored s t) : t.Crowded ↔ s.Crowded := by
  rw [Crowded, Crowded, hst.grown.root, hst.strays_eq]

section Entries

variable {x y : Option Green.Entry} {found found' : Option Nat} {xs ys : List Green.Entry}
  {ids ids' : List Nat} {id : Nat}

def Places (s : Session) (ids : List Nat) (xs : List Green.Entry) : Prop :=
  List.Forall₂ (fun id x => s.At x.1 id) ids xs

def Found (s : Session) (x : Option Green.Entry) (found : Option Nat) : Prop :=
  Option.Rel (fun x id => s.At x.1 id) x found

theorem Places.mono (h : s.Places ids xs) (hst : Extends s t) : t.Places ids xs :=
  h.imp fun _ _ hat => hat.mono hst

theorem Places.append (h : s.Places ids xs) (h' : s.Places ids' ys) :
    s.Places (ids ++ ids') (xs ++ ys) :=
  List.rel_append h h'

theorem Places.found_getElem? (h : s.Places ids xs) (i : Nat) : s.Found xs[i]? ids[i]? := by
  induction h generalizing i with
  | nil => exact .none
  | cons hid _ ih =>
      cases i with
      | zero => exact .some hid
      | succ i => exact ih i

theorem Places.found_head? (h : s.Places ids xs) : s.Found xs.head? ids.head? := by
  rw [List.head?_eq_getElem?, List.head?_eq_getElem?]
  exact h.found_getElem? 0

theorem Places.found_getLast? (h : s.Places ids xs) : s.Found xs.getLast? ids.getLast? := by
  rw [List.getLast?_eq_getElem?, List.getLast?_eq_getElem?, List.Forall₂.length_eq h]
  exact h.found_getElem? _

theorem Found.mono (h : s.Found x found) (hst : Extends s t) : t.Found x found := by
  cases h with
  | none => exact .none
  | some h => exact .some (h.mono hst)

theorem Found.or_some (h : s.Found x (some id)) : s.Found (x.or y) (some id) := by
  cases h with
  | some h => exact .some h

theorem Found.or_none (h : s.Found x none) (h' : s.Found y found) : s.Found (x.or y) found := by
  cases h with
  | none => exact h'

theorem Found.unique (hs : s.Coherent) (h : s.Found x found) (h' : s.Found x found') :
    found = found' := by
  cases h with
  | none =>
      cases h'
      rfl
  | some h =>
      cases h' with
      | some h' => rw [h.id_unique hs h']

theorem Places.unique (hs : s.Coherent) (h : s.Places ids xs) (h' : s.Places ids' xs) :
    ids = ids' := by
  induction h generalizing ids' with
  | nil =>
      cases h'
      rfl
  | cons hid _ ih =>
      cases h' with
      | cons hid' hrest => rw [hid.id_unique hs hid', ih hrest]

end Entries

section Answers

variable {α : Type} {action : Nav (Option Nat)} {x : Option Green.Entry} {found : Option Nat}

def Answers (s : Session) (action : Nav α) (answer : α) : Prop :=
  ∃ t, action s = .ok answer t ∧ Explored s t

def AnswersAt (s : Session) (action : Nav (Option Nat)) (x : Option Green.Entry) : Prop :=
  ∃ found t, action s = .ok found t ∧ Explored s t ∧ t.Found x found

theorem AnswersAt.answers (h : s.AnswersAt action x) (hfound : s.Found x found) :
    s.Answers action found := by
  obtain ⟨found', t, he, hst, hfound'⟩ := h
  exact ⟨t, (hfound.mono hst.grown).unique hst.coherent hfound' ▸ he, hst⟩

end Answers

end Session

namespace Nav

open Session

variable {α β : Type} {s t : Session} {m : Nav α} {f : α → Nav β} {P Q : Session → α → Prop}
  {R : Session → β → Prop} {q : List Nat} {id i : Nat} {g c : Green}

inductive Yields (s : Session) (m : Nav α) (Q : Session → α → Prop) : Prop
  | answer {a : α} {t : Session} : m s = .ok a t → Explored s t → Q t a → Yields s m Q
  | full {t : Session} : s.Crowded → m s = .error (.aborted .arenaFull) t → Yields s m Q

namespace Yields

theorem pure {a : α} (hs : s.Grounded) (h : Q s a) : Yields s (pure a) Q :=
  .answer rfl (.refl hs.coherent) h

theorem mono (h : Yields s m P) (hPQ : ∀ a t, Explored s t → P t a → Q t a) : Yields s m Q := by
  cases h with
  | answer he hst ha => exact .answer he hst (hPQ _ _ hst ha)
  | full hfull he => exact .full hfull he

theorem bind (h : Yields s m P) (hf : ∀ a t, Explored s t → P t a → Yields t (f a) R) :
    Yields s (m >>= f) R := by
  cases h with
  | full hfull he => exact .full hfull (bind_error he)
  | answer he hst ha =>
      cases hf _ _ hst ha with
      | answer he' htu hb => exact .answer ((bind_ok he).trans he') (hst.trans htu) hb
      | full hfull he' => exact .full (hst.crowded_iff.mp hfull) ((bind_ok he).trans he')

theorem of_ok {a : α} (he : m s = .ok a s) (h : Yields s (f a) R) : Yields s (m >>= f) R := by
  cases h with
  | answer he' hst hb => exact .answer ((bind_ok he).trans he') hst hb
  | full hfull he' => exact .full hfull ((bind_ok he).trans he')

theorem placesChild (hs : s.Grounded) (h : s.At q id) (hg : s.root.descend? q = some g)
    (hc : g.child? i = some c) :
    Yields s (Session.child id i) fun t found => ∃ cid, found = some cid ∧
      t.At (q ++ [i]) cid ∧ ∀ r ∈ t.placed, r ∈ s.placed ∨ r = q ++ [i] := by
  rcases child_cases hs.coherent hs.wellFormed h hg i with
    ⟨hnone, -⟩ | ⟨-, -, ⟨cid, t, he, hst, hat, hplaced⟩ | ⟨hfull, hnew, he⟩⟩
  · exact nomatch hc.symm.trans hnone
  · exact .answer he hst ⟨cid, rfl, hat, hplaced⟩
  · refine .full (hs.crowded_of_full ?_ hnew hfull) he
    rw [Green.descend?_concat hg, hc]
    rfl

theorem findChild (hs : s.Grounded) (h : s.At q id) (hg : s.root.descend? q = some g) (i : Nat) :
    Yields s (Session.child id i) fun t found =>
      t.Found ((g.child? i).map fun c => (q ++ [i], c)) found := by
  rcases child_cases hs.coherent hs.wellFormed h hg i with ⟨hnone, he⟩ | ⟨c, hc, -⟩
  · rw [hnone]
    exact .answer he (.refl hs.coherent) .none
  · rw [hc]
    refine (placesChild hs h hg hc).mono fun found t _ hfound => ?_
    obtain ⟨cid, rfl, hat, -⟩ := hfound
    exact .some hat

theorem child {f : Option Nat → Nav β} (hs : s.Grounded) (h : s.At q id)
    (hg : s.root.descend? q = some g) (hc : g.child? i = some c)
    (hf : ∀ cid t, Explored s t → t.At (q ++ [i]) cid → Yields t (f (some cid)) R) :
    Yields s (Session.child id i >>= f) R := by
  refine (findChild hs h hg i).bind fun found t hst hfound => ?_
  rw [hc, Option.map_some] at hfound
  cases hfound with
  | some hat => exact hf _ t hst hat

theorem ok (h : Yields s m Q) (hroom : ¬ s.Crowded) :
    ∃ a t, m s = .ok a t ∧ Explored s t ∧ Q t a := by
  cases h with
  | answer he hst ha => exact ⟨_, _, he, hst, ha⟩
  | full hfull _ => exact absurd hfull hroom

end Yields

end Nav

end LosslessSyntax
