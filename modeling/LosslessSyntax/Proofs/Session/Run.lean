import LosslessSyntax.Session.Basic

namespace LosslessSyntax

namespace Nav

variable {α β : Type} {m : Nav α} {f : α → Nav β} {s t : Session} {a : α} {e : Failure}

theorem bind_ok (h : m s = .ok a t) : (m >>= f) s = f a t := by
  change EStateM.bind m f s = _
  rw [EStateM.bind, h]

theorem bind_error (h : m s = .error e t) : (m >>= f) s = .error e t := by
  change EStateM.bind m f s = _
  rw [EStateM.bind, h]

theorem bind_eq_ok_iff {b : β} :
    (m >>= f) s = .ok b t ↔ ∃ a u, m s = .ok a u ∧ f a u = .ok b t := by
  constructor
  · intro h
    cases hm : m s with
    | ok a u => exact ⟨a, u, rfl, (bind_ok hm).symm.trans h⟩
    | error e u => exact nomatch (bind_error hm).symm.trans h
  · rintro ⟨a, u, hm, hf⟩
    exact (bind_ok hm).trans hf

theorem placement_eq {id : Nat} {p : Placement} (h : s.placements[id]? = some p) :
    placement id s = .ok p s := by
  rw [placement, h]

theorem placement_eq_error {id : Nat} (h : s.placements[id]? = none) :
    placement id s = .error (.aborted (.unknownPlacement id)) s := by
  rw [placement, h]

def after (m : Nav α) (s : Session) : Session :=
  match m s with
  | .ok _ t => t
  | .error _ t => t

theorem after_of_ok (h : m s = .ok a t) : after m s = t := by
  rw [after, h]

theorem after_of_error (h : m s = .error e t) : after m s = t := by
  rw [after, h]

theorem answer_of_ok (h : m s = .ok a t) : answer m s = .ok a := by
  rw [answer, h]

theorem answer_of_error (h : m s = .error e t) : answer m s = .error e := by
  rw [answer, h]

theorem ok_of_answer_eq_ok (h : answer m s = .ok a) : ∃ t, m s = .ok a t := by
  cases hm : m s with
  | ok b t =>
      obtain rfl := Except.ok.inj ((answer_of_ok hm).symm.trans h)
      exact ⟨t, rfl⟩
  | error e t => exact nomatch (answer_of_error hm).symm.trans h

theorem answer_ofExcept (r : Except Failure α) (s : Session) : answer (ofExcept r) s = r := by
  cases r <;> rfl

theorem after_ofExcept (r : Except Failure α) (s : Session) : after (ofExcept r) s = s := by
  cases r <;> rfl

end Nav

namespace Session

def withPlacement (s : Session) (p : Placement) : Session :=
  { s with placements := s.placements.push p }

theorem allot_eq (p : Placement) (s : Session) :
    allot p s =
      if Arena.admits s.placements.size then .ok s.placements.size (s.withPlacement p)
      else .error (.aborted .arenaFull) s := rfl

def withChild (s : Session) (green : Green) (offset parent index : Nat) : Session :=
  { s with
    placements := (s.placements.push (Placement.make green offset (some parent) index)).modify
      parent fun p => { p with memo := p.memo.setIfInBounds index (some s.placements.size) } }

variable {s : Session} {parent index : Nat} {p : Placement}

theorem child_of_outside (hp : s.placements[parent]? = some p) (hm : p.memo[index]? = none) :
    child parent index s = .ok none s := by
  rw [child, Nav.bind_ok (Nav.placement_eq hp), hm]
  rfl

theorem child_of_memo {id : Nat} (hp : s.placements[parent]? = some p)
    (hm : p.memo[index]? = some (some id)) : child parent index s = .ok (some id) s := by
  rw [child, Nav.bind_ok (Nav.placement_eq hp), hm]
  rfl

theorem child_of_slot_none (hp : s.placements[parent]? = some p)
    (hm : p.memo[index]? = some none) (hc : p.green.slot? index = none) :
    child parent index s = .ok none s := by
  rw [child, Nav.bind_ok (Nav.placement_eq hp)]
  simp only [hm, hc]
  rfl

theorem child_of_slot {start : Nat} {green : Green} (hp : s.placements[parent]? = some p)
    (hm : p.memo[index]? = some none) (hc : p.green.slot? index = some (start, green)) :
    child parent index s =
      if maxSize < p.offset + start then .error (.aborted .sizeOverflow) s
      else if Arena.admits s.placements.size then
        .ok (some s.placements.size) (s.withChild green (p.offset + start) parent index)
      else .error (.aborted .arenaFull) s := by
  rw [child, Nav.bind_ok (Nav.placement_eq hp)]
  simp only [hm, hc]
  by_cases hle : p.offset + start ≤ maxSize
  · have hsum : Checked.sum p.offset start = .ok (p.offset + start) :=
      Checked.sum_eq_ok_iff.mpr ⟨rfl, hle⟩
    have hallot := allot_eq (Placement.make green (p.offset + start) (some parent) index) s
    rw [if_neg (Nat.not_lt.mpr hle), hsum]
    change (allot _ >>= _) s = _
    by_cases ha : Arena.admits s.placements.size = true
    · rw [if_pos ha] at hallot ⊢
      exact Nav.bind_ok hallot
    · rw [if_neg ha] at hallot ⊢
      exact Nav.bind_error hallot
  · have hsum : Checked.sum p.offset start = .error (.aborted .sizeOverflow) := by
      rw [Checked.sum, addSizes?, if_neg hle]
    rw [if_pos (Nat.not_le.mp hle), hsum]
    rfl

end Session

end LosslessSyntax
