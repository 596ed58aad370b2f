import LosslessSyntax.Edit
import LosslessSyntax.Proofs.Edit.Splice
import LosslessSyntax.Proofs.Green.Twin
import LosslessSyntax.Proofs.Session.Run

namespace LosslessSyntax

open Green

structure Placement.Twin (p q : Placement) : Prop where
  green : p.green.Twin q.green
  offset : p.offset = q.offset
  parent : p.parent = q.parent
  index : p.index = q.index
  memo : p.memo = q.memo

structure Session.Twin (s t : Session) : Prop where
  root : s.root.Twin t.root
  size : s.placements.size = t.placements.size
  placements : ∀ id : Nat, Option.Rel Placement.Twin s.placements[id]? t.placements[id]?

namespace Nav

variable {α β γ δ : Type}

def AgreeAt (R : α → β → Prop) (m : Nav α) (m' : Nav β) (s t : Session) : Prop :=
  (∃ e s' t', m s = .error e s' ∧ m' t = .error e t' ∧ s'.Twin t') ∨
    ∃ a b s' t', m s = .ok a s' ∧ m' t = .ok b t' ∧ R a b ∧ s'.Twin t'

def Agree (R : α → β → Prop) (m : Nav α) (m' : Nav β) : Prop :=
  ∀ s t : Session, s.Twin t → AgreeAt R m m' s t

theorem AgreeAt.bind {R : α → β → Prop} {T : γ → δ → Prop} {m : Nav α} {m' : Nav β}
    {f : α → Nav γ} {f' : β → Nav δ} {s t : Session} (h : AgreeAt R m m' s t)
    (hf : ∀ a b s' t', m s = .ok a s' → m' t = .ok b t' → R a b → s'.Twin t' →
      AgreeAt T (f a) (f' b) s' t') : AgreeAt T (m >>= f) (m' >>= f') s t := by
  rcases h with ⟨e, s', t', hm, hm', hst'⟩ | ⟨a, b, s', t', hm, hm', hR, hst'⟩
  · exact .inl ⟨e, s', t', bind_error hm, bind_error hm', hst'⟩
  · rw [AgreeAt, bind_ok hm, bind_ok hm']
    exact hf a b s' t' hm hm' hR hst'

theorem AgreeAt.map {m m' : Nav α} {s t : Session} (h : AgreeAt Eq m m' s t) (f : α → β) :
    AgreeAt Eq (do return f (← m)) (do return f (← m')) s t := by
  refine h.bind ?_
  rintro a _ s' t' - - rfl hst
  exact .inr ⟨f a, f a, s', t', rfl, rfl, rfl, hst⟩

theorem AgreeAt.getBind {R : α → β → Prop} {f : Session → Nav α} {f' : Session → Nav β}
    {s t : Session} (h : AgreeAt R (f s) (f' t) s t) : AgreeAt R (get >>= f) (get >>= f') s t := h

theorem AgreeAt.placementBind {R : α → β → Prop} {f : Placement → Nav α} {f' : Placement → Nav β}
    {s t : Session} {id : Nat} (hst : s.Twin t)
    (hf : ∀ p q : Placement, p.Twin q → AgreeAt R (f p) (f' q) s t) :
    AgreeAt R (placement id >>= f) (placement id >>= f') s t := by
  rcases rel_cases (hst.placements id) with ⟨hp, hq⟩ | ⟨p, q, hp, hq, hpq⟩
  · have hfail := bind_error (f := f) (placement_eq_error hp)
    have hfail' := bind_error (f := f') (placement_eq_error hq)
    exact .inl ⟨_, s, t, hfail, hfail', hst⟩
  · rw [AgreeAt, bind_ok (placement_eq hp), bind_ok (placement_eq hq)]
    exact hf p q hpq

namespace Agree

variable {R : α → β → Prop} {T : γ → δ → Prop} {m : Nav α} {m' : Nav β}

theorem pure {a : α} {b : β} (h : R a b) : Agree R (pure a) (pure b) :=
  fun s t hst => .inr ⟨a, b, s, t, rfl, rfl, h, hst⟩

theorem fail (e : Failure) : Agree R (fail e) (fail e) :=
  fun s t hst => .inl ⟨e, s, t, rfl, rfl, hst⟩

theorem ofExcept (x : Except Failure α) : Agree Eq (ofExcept x) (ofExcept x) := by
  cases x with
  | error e => exact fail e
  | ok a => exact pure rfl

theorem ofMint {m : Mint α} {m' : Mint β} (h : Mint.Agree R m m') (supply supply' : Supply) :
    Agree (fun r r' => R r.1 r'.1 ∧ supply.next ≤ r.2.next) (Nav.ofExcept (m supply))
      (Nav.ofExcept (m' supply')) := by
  rcases h supply supply' with ⟨e, hm, hm'⟩ | ⟨a, b, rest, rest', hm, hm', hR, hle⟩
  · rw [hm, hm']
    exact fail e
  · rw [hm, hm']
    exact pure ⟨hR, hle⟩

theorem bind {f : α → Nav γ} {f' : β → Nav δ} (h : Agree R m m')
    (hf : ∀ a b, R a b → Agree T (f a) (f' b)) : Agree T (m >>= f) (m' >>= f') :=
  fun s t hst => (h s t hst).bind fun a b s' t' _ _ hR hst' => hf a b hR s' t' hst'

theorem bindEq {m m' : Nav α} {f : α → Nav γ} {f' : α → Nav δ} (h : Agree Eq m m')
    (hf : ∀ a, Agree T (f a) (f' a)) : Agree T (m >>= f) (m' >>= f') :=
  h.bind fun a _ hab => hab ▸ hf a

theorem placement (id : Nat) : Agree Placement.Twin (placement id) (placement id) := by
  intro s t hst
  rw [AgreeAt, Nav.placement, Nav.placement]
  rcases rel_cases (hst.placements id) with ⟨hp, hq⟩ | ⟨p, q, hp, hq, hpq⟩ <;> rw [hp, hq]
  · exact .inl ⟨_, _, _, rfl, rfl, hst⟩
  · exact .inr ⟨_, _, _, _, rfl, rfl, hpq, hst⟩

end Agree

end Nav

namespace Green

variable {a b : Green}

theorem Twin.twin_make (h : a.Twin b) (offset : Nat) (parent : Option Nat) (index : Nat) :
    (Placement.make a offset parent index).Twin (Placement.make b offset parent index) := by
  refine ⟨h, rfl, rfl, rfl, ?_⟩
  rw [Placement.make, Placement.make, h.children.length_eq]

theorem Twin.slot? (h : a.Twin b) (i : Nat) :
    Option.Rel TwinAt (a.slot? i) (b.slot? i) := by
  rw [Green.slot?, Green.slot?, childStart?, childStart?, h.starts_eq]
  cases b.starts[i]? with
  | none => exact .none
  | some start =>
      rcases rel_cases (h.child? i) with ⟨hc, hd⟩ | ⟨c, d, hc, hd, hcd⟩ <;> rw [hc, hd]
      · exact .none
      · exact .some ⟨rfl, hcd⟩

end Green

namespace Session

variable {s t : Session} {p q : Placement}

theorem Twin.withPlacement (h : s.Twin t) (hpq : p.Twin q) :
    (s.withPlacement p).Twin (t.withPlacement q) := by
  refine ⟨h.root, ?_, ?_⟩
  · rw [Session.withPlacement, Session.withPlacement, Array.size_push, Array.size_push, h.size]
  · intro id
    rw [Session.withPlacement, Session.withPlacement, Array.getElem?_push, Array.getElem?_push,
      h.size]
    split
    · exact .some hpq
    · exact h.placements id

theorem agree_allot (h : p.Twin q) : Nav.Agree Eq (allot p) (allot q) := by
  intro s t hst
  rw [Nav.AgreeAt, allot_eq, allot_eq, hst.size]
  split
  · exact .inr ⟨_, _, _, _, rfl, rfl, rfl, hst.withPlacement h⟩
  · exact .inl ⟨_, _, _, rfl, rfl, hst⟩

theorem agree_remember (parent index id : Nat) :
    Nav.Agree (fun _ _ => True) (remember parent index id) (remember parent index id) := by
  intro s t hst
  refine .inr ⟨(), (), _, _, rfl, rfl, trivial, hst.root, ?_, ?_⟩
  · rw [Array.size_modify, Array.size_modify, hst.size]
  · intro other
    rw [Array.getElem?_modify, Array.getElem?_modify]
    split
    · rcases rel_cases (hst.placements other) with ⟨hp, hq⟩ | ⟨p, q, hp, hq, hpq⟩ <;> rw [hp, hq]
      · exact .none
      · have hmemo := congrArg (·.setIfInBounds index (some id)) hpq.memo
        exact .some ⟨hpq.green, hpq.offset, hpq.parent, hpq.index, hmemo⟩
    · exact hst.placements other

theorem agree_child (parent index : Nat) :
    Nav.Agree Eq (child parent index) (child parent index) := by
  refine (Nav.Agree.placement parent).bind fun p q hpq => ?_
  rw [hpq.memo, hpq.offset]
  rcases q.memo[index]? with _ | _ | id
  · exact .pure rfl
  · dsimp only
    rcases rel_cases (hpq.green.slot? index) with
      ⟨hx, hy⟩ | ⟨⟨start, c⟩, ⟨start', d⟩, hx, hy, hstart, hcd⟩ <;> rw [hx, hy]
    · exact .pure rfl
    · obtain rfl : start = start' := hstart
      refine (Nav.Agree.ofExcept _).bindEq fun offset => ?_
      refine (agree_allot (hcd.twin_make offset (some parent) index)).bindEq fun id => ?_
      exact (agree_remember parent index id).bind fun _ _ _ => .pure rfl
  · exact .pure rfl

theorem agree_descendFrom (path : Path) (depth id : Nat) (is : List Nat) :
    Nav.Agree Eq (descendFrom path depth id is) (descendFrom path depth id is) := by
  induction is generalizing depth id with
  | nil => exact .pure rfl
  | cons i is ih =>
      refine (agree_child id i).bindEq fun found => ?_
      cases found with
      | none => exact .fail _
      | some c => exact ih (depth + 1) c

end Session

structure Target.Twin (t u : Target) : Prop where
  path : t.path = u.path
  range : t.range = u.range
  replacement : t.replacement.Twin u.replacement

structure Edit.Twin (e f : Edit) : Prop where
  path : e.path = f.path
  expected : e.expected = none ∧ f.expected = none
  replacement : e.replacement.Twin f.replacement

namespace Edit

variable {e f : Edit} {es fs : List Edit}

theorem Twin.agree_resolve (h : e.Twin f) : Nav.Agree Target.Twin e.resolve f.resolve := by
  obtain ⟨path, expected, replacement⟩ := e
  obtain ⟨path', expected', replacement'⟩ := f
  obtain ⟨rfl, ⟨rfl, rfl⟩, hreplacement⟩ := h
  refine (Session.agree_descendFrom path 0 Session.rootId path.indices).bindEq fun id => ?_
  refine (Nav.Agree.placement id).bind fun p q hpq => ?_
  have hrange : p.textRange = q.textRange := by
    rw [Placement.textRange, Placement.textRange, hpq.green.checkedWidth_eq, hpq.offset]
  dsimp only
  rw [hrange]
  refine (Nav.Agree.ofExcept _).bindEq fun range => ?_
  exact .pure ⟨rfl, rfl, hreplacement⟩

theorem agree_resolveAll (h : List.Forall₂ Twin es fs) :
    Nav.Agree (List.Forall₂ Target.Twin) (resolveAll es) (resolveAll fs) := by
  induction h with
  | nil => exact .pure .nil
  | cons h _ ih =>
      exact h.agree_resolve.bind fun t u htu => ih.bind fun ts us hrest => .pure (.cons htu hrest)

end Edit

namespace Target

variable {t u : Target} {ts us : List Target} {depth : Nat} {a b : Green}

theorem twins_insert (h : t.Twin u) (hs : List.Forall₂ Twin ts us) :
    List.Forall₂ Twin (insert t ts) (insert u us) := by
  induction hs with
  | nil => exact .cons h .nil
  | cons hhead hs ih =>
      rw [insert, insert, h.path, hhead.path]
      split
      · exact .cons hhead ih
      · exact .cons h (.cons hhead hs)

theorem twins_sort (hs : List.Forall₂ Twin ts us) : List.Forall₂ Twin (sort ts) (sort us) := by
  induction hs with
  | nil => exact .nil
  | cons h _ ih => exact twins_insert h ih

theorem rel_conflict? (hs : List.Forall₂ Twin ts us) :
    Option.Rel (fun x y => x.1.range = y.1.range ∧ x.2.range = y.2.range) (conflict? ts)
      (conflict? us) := by
  induction hs with
  | nil => exact .none
  | cons h hs ih =>
      cases hs with
      | nil => exact .none
      | cons hnext hs =>
          rw [conflict?, conflict?, conflicts, conflicts, h.path, h.range, hnext.path, hnext.range]
          split
          · exact .some ⟨h.range, hnext.range⟩
          · exact ih

theorem Twin.agree_step (h : t.Twin u) (depth : Nat) :
    Mint.Agree (fun i j => i.val = j.val) (t.step depth) (u.step depth) := by
  obtain hi | ⟨i, hi⟩ := Option.eq_none_or_eq_some t.path.indices[depth]?
  · rw [step_eq_fail hi, step_eq_fail (h.path ▸ hi)]
    exact .fail _
  · rw [step_eq_pure hi, step_eq_pure (h.path ▸ hi)]
    exact .pure rfl

structure Chunk.Twin (c : Chunk depth t ts) (d : Chunk depth u us) : Prop where
  index : c.index = d.index
  group : List.Forall₂ Target.Twin c.group d.group
  rest : List.Forall₂ Target.Twin c.rest d.rest

theorem agree_chunk (h : t.Twin u) (hs : List.Forall₂ Twin ts us) :
    Mint.Agree Chunk.Twin (chunk depth t ts) (chunk depth u us) := by
  induction hs generalizing t u with
  | nil => exact (h.agree_step depth).bind fun _ _ hij => .pure ⟨hij, .nil, .nil⟩
  | cons hnext hs ih =>
      rw [chunk, chunk]
      refine (h.agree_step depth).bind ?_
      rintro ⟨i, hi⟩ ⟨_, hi'⟩ rfl
      refine (hnext.agree_step depth).bind ?_
      rintro ⟨j, hj⟩ ⟨_, hj'⟩ rfl
      dsimp only
      split
      · exact (ih hnext).bind fun c d hcd => .pure ⟨rfl, .cons hnext hcd.group, hcd.rest⟩
      · exact .pure ⟨rfl, .nil, .cons hnext hs⟩

mutual

theorem agree_splice {a b : Green} {ts us : List Target} (hab : a.Twin b) (depth : Nat)
    (hs : List.Forall₂ Twin ts us) :
    Mint.Agree Green.Twin (splice a depth ts) (splice b depth us) := by
  rw [splice, splice, hab.kind_eq, hab.diagnostics_eq]
  exact (agree_spliceGroups hab depth hab.children hs).bind fun cs ds hcs => hcs.agree_assemble _ _
termination_by 2 * stepsLeft depth ts + 1

theorem agree_spliceGroups {a b : Green} {cs ds : List Green} {ts us : List Target}
    (hab : a.Twin b) (depth : Nat) (hcs : Twins cs ds) (hs : List.Forall₂ Twin ts us) :
    Mint.Agree Twins (spliceGroups a depth cs ts) (spliceGroups b depth ds us) := by
  match ts, us, hs with
  | [], [], .nil =>
      rw [spliceGroups, spliceGroups]
      exact .pure hcs
  | t :: ts, u :: us, .cons h hs =>
      rw [spliceGroups, spliceGroups]
      refine (agree_chunk h hs).bind fun c d hcd => ?_
      rw [hcd.index, hab.kind_eq, hcs.length_eq, h.path]
      rcases rel_cases (rel_getElem? hcs d.index) with ⟨hx, hy⟩ | ⟨x, y, hx, hy, hxy⟩ <;>
        rw [hx, hy]
      · exact .fail _
      · dsimp only
        rw [hxy.isNode_eq]
        refine Mint.Agree.bind (R := Green.Twin) ?_ fun x' y' hxy' =>
          agree_spliceGroups hab depth (forall₂_set hcs d.index hxy') hcd.rest
        split
        · exact .pure h.replacement
        · split
          · exact agree_splice hxy (depth + 1) (.cons h hcd.group)
          · exact .fail _
termination_by 2 * stepsLeft depth ts
decreasing_by
  · have hlt := c.stepsLeft_group_lt
    omega
  · have hlt := c.stepsLeft_rest_lt
    omega

end

theorem agree_replaceAll (hab : a.Twin b) (hs : List.Forall₂ Twin ts us) :
    Mint.Agree Green.Twin (replaceAll a ts) (replaceAll b us) := by
  cases hs with
  | nil => exact .pure hab
  | cons h hs =>
      rw [replaceAll, replaceAll, h.path, h.replacement.isNode_eq, h.replacement.kind_eq]
      split
      · split
        · exact .pure h.replacement
        · exact .fail _
      · exact agree_splice hab 0 (.cons h hs)

end Target

namespace Session

variable {s t : Session} {a b : Green} {es fs : List Edit}

theorem agree_ofRoot (h : a.Twin b) : Mint.Agree Twin (ofRoot a) (ofRoot b) := by
  refine Mint.Agree.stamp.bind fun _ _ _ => .pure ⟨h, rfl, ?_⟩
  intro id
  cases id with
  | zero => exact .some (h.twin_make 0 none 0)
  | succ id => exact .none

theorem agree_validate (h : List.Forall₂ Edit.Twin es fs) :
    Nav.Agree (List.Forall₂ Target.Twin) (validate es) (validate fs) := by
  refine (Edit.agree_resolveAll h).bind fun ts us hs => ?_
  have hsorted := Target.twins_sort hs
  dsimp only
  rcases rel_cases (Target.rel_conflict? hsorted) with
    ⟨hx, hy⟩ | ⟨x, y, hx, hy, hfirst, hsecond⟩ <;> rw [hx, hy]
  · exact .pure hsorted
  · dsimp only
    rw [hfirst, hsecond]
    exact .fail _

theorem agree_apply (h : List.Forall₂ Edit.Twin es fs) (supply supply' : Supply) :
    Nav.Agree (fun r r' => r.1.Twin r'.1 ∧ supply.next ≤ r.2.next) (apply es supply)
      (apply fs supply') := by
  refine (agree_validate h).bind fun ts us hs => ?_
  intro s t hst
  refine .getBind ?_
  have hrebuilt := (Target.agree_replaceAll hst.root hs).bind fun _ _ hroot => agree_ofRoot hroot
  exact Nav.Agree.ofMint hrebuilt supply supply' s t hst

end Session

end LosslessSyntax
