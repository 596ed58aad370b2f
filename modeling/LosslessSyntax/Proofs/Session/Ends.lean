import LosslessSyntax.Proofs.Edit.Substitution
import LosslessSyntax.Proofs.Green.Ends
import LosslessSyntax.Proofs.Session.Yields
import LosslessSyntax.Session.ChildQueue

namespace LosslessSyntax

def Green.hasNode (m : Green) (i : Nat) : Bool := (m.child? i).any Green.isNode

namespace Ends

def children : Ends Nav Nat ChildQueue where
  next := ChildQueue.next
  nextBack := ChildQueue.nextBack
  drain := ChildQueue.drain ChildQueue.next
  drainBack := ChildQueue.drain ChildQueue.nextBack

def nodes : Ends Nav Nat ChildQueue where
  next := ChildQueue.nextNode
  nextBack := ChildQueue.nextNodeBack
  drain := ChildQueue.drain ChildQueue.nextNode
  drainBack := ChildQueue.drain ChildQueue.nextNodeBack

end Ends

namespace Session

open Nav (Yields)
open Ends (Orderly ofList deal)

variable {s t u : Session} {p is js : List Nat} {id i : Nat} {m : Green} {only : Prop}

structure Stands (s : Session) (p : List Nat) (id : Nat) (m : Green) : Prop where
  grounded : s.Grounded
  place : s.At p id
  element : s.root.descend? p = some m

theorem Stands.later (h : s.Stands p id m) (hst : Explored s t) : t.Stands p id m :=
  ⟨h.grounded.explored hst, h.place.mono hst.grown, hst.grown.root ▸ h.element⟩

def Adds (only : Prop) (s t : Session) (p is : List Nat) : Prop :=
  ∀ q ∈ t.placed, q ∈ s.placed ∨ ∃ i, (only → i ∈ is) ∧ q = p ++ [i]

theorem Adds.refl (is : List Nat) : Adds only s s p is := fun _ hq => .inl hq

theorem Adds.trans (h : Adds only s t p is) (h' : Adds only t u p js) :
    Adds only s u p (is ++ js) := by
  intro q hq
  rcases h' q hq with hq | ⟨i, hi, rfl⟩
  · rcases h q hq with hq | ⟨i, hi, rfl⟩
    · exact .inl hq
    · exact .inr ⟨i, fun honly => List.mem_append_left js (hi honly), rfl⟩
  · exact .inr ⟨i, fun honly => List.mem_append_right is (hi honly), rfl⟩

theorem Adds.weaken (h : Adds only s t p is) (js : List Nat) : Adds False s t p js := by
  intro q hq
  rcases h q hq with hq | ⟨i, -, rfl⟩
  · exact .inl hq
  · exact .inr ⟨i, False.elim, rfl⟩

def Given (s : Session) (p : List Nat) : List Nat → List Nat → Prop :=
  List.Forall₂ fun cid i => s.At (p ++ [i]) cid

theorem Given.mono {ids : List Nat} (h : s.Given p ids is) (hst : Extends s t) :
    t.Given p ids is :=
  List.Forall₂.imp (fun _ _ hat => hat.mono hst) h

theorem Given.map_eq {α : Type} {ids : List Nat} (h : s.Given p ids is) {f g : Nat → α}
    (hfg : ∀ cid i, s.At (p ++ [i]) cid → f cid = g i) : ids.map f = is.map g := by
  rw [← List.forall₂_eq_eq_eq, List.forall₂_map_left_iff, List.forall₂_map_right_iff]
  exact List.Forall₂.imp hfg h

theorem Given.exists_mem {ids : List Nat} (h : s.Given p ids is) (hi : i ∈ is) :
    ∃ cid ∈ ids, s.At (p ++ [i]) cid := by
  induction h with
  | nil => exact nomatch hi
  | @cons cid j ids is hat _ ih =>
      rcases List.mem_cons.mp hi with rfl | hi
      · exact ⟨cid, List.mem_cons_self, hat⟩
      · obtain ⟨other, hmem, hother⟩ := ih hi
        exact ⟨other, List.mem_cons_of_mem cid hmem, hother⟩

theorem Given.nodup {ids : List Nat} (h : s.Given p ids is) (hs : s.Coherent) (his : is.Nodup) :
    ids.Nodup := by
  have hpaths : ids.map s.path = is.map fun i => ⟨p ++ [i]⟩ :=
    h.map_eq fun cid i hat => hat.path_eq hs
  refine .of_map s.path (hpaths ▸ his.map fun i j hij => ?_)
  exact List.singleton_inj.mp (List.append_cancel_left (Path.mk.inj hij))

structure Served (only : Prop) (Left : ChildQueue → List Nat → Prop) (s t : Session)
    (p : List Nat) (r : List Nat × ChildQueue) (d : List Nat × List Nat) : Prop where
  given : t.Given p r.1 d.1
  left : Left r.2 d.2
  adds : Adds only s t p d.1

section Takes

variable {Left : ChildQueue → List Nat → Prop}
  {take : ChildQueue → Nav (Option Nat × ChildQueue)} {pick : List Nat → Option Nat × List Nat}
  {listed : List Nat → List Nat} {queue : ChildQueue} {xs : List Nat}

def Takes (p : List Nat) (id : Nat) (m : Green) (only : Prop)
    (Left : ChildQueue → List Nat → Prop) (take : ChildQueue → Nav (Option Nat × ChildQueue))
    (pick : List Nat → Option Nat × List Nat) : Prop :=
  ∀ {s queue xs}, Stands s p id m → Left queue xs → Yields s (take queue) fun t r =>
    Served only Left s t p (r.1.toList, r.2) ((pick xs).1.toList, (pick xs).2)

theorem Takes.takeAll (h : Takes p id m only Left take pick) (ho : Orderly pick listed)
    (hs : s.Stands p id m) (hleft : Left queue xs) {limit : Nat} (hlimit : xs.length ≤ limit) :
    Yields s (ChildQueue.takeAll take limit queue) fun t ids =>
      t.Given p ids (listed xs) ∧ Adds only s t p (listed xs) := by
  -- The limit stays at least what is left, so that it never cuts the list short.
  induction limit generalizing s queue xs with
  | zero =>
      obtain rfl := List.length_eq_zero_iff.mp (Nat.le_zero.mp hlimit)
      rw [ho.listed_nil]
      exact .pure hs.grounded ⟨.nil, .refl []⟩
  | succ limit ih =>
      refine (h hs hleft).bind fun r t hst hserved => ?_
      obtain ⟨found, rest⟩ := r
      by_cases hne : xs = []
      · subst hne
        rw [ho.nil] at hserved
        rw [ho.listed_nil]
        cases found with
        | none => exact .pure (hs.later hst).grounded ⟨.nil, hserved.adds⟩
        | some cid => exact nomatch hserved.given
      · obtain ⟨a, ys, hpick, hlisted, hlength⟩ := ho.cons xs hne
        rw [hpick] at hserved
        cases found with
        | none => exact nomatch hserved.given
        | some cid =>
            have hrest : ys.length ≤ limit := by omega
            refine (ih (hs.later hst) hserved.left hrest).bind fun ids u htu hids => ?_
            refine .pure ((hs.later hst).later htu).grounded ?_
            rw [hlisted]
            exact ⟨.cons ((List.forall₂_cons.mp hserved.given).1.mono htu.grown) hids.1,
              hserved.adds.trans hids.2⟩

structure Deals (p : List Nat) (id : Nat) (m : Green) (only : Prop)
    (Left : ChildQueue → List Nat → Prop) (e : Ends Nav Nat ChildQueue) : Prop where
  next : Takes p id m only Left e.next (ofList Nat).next
  nextBack : Takes p id m only Left e.nextBack (ofList Nat).nextBack
  drain : ∀ queue, e.drain queue = ChildQueue.takeAll e.next queue.size queue
  drainBack : ∀ queue, e.drainBack queue = ChildQueue.takeAll e.nextBack queue.size queue
  size : ∀ {queue xs}, Left queue xs → xs.length ≤ queue.size

namespace Deals

variable {e : Ends Nav Nat ChildQueue}

theorem pull (h : Deals p id m only Left e) (hs : s.Stands p id m) (hleft : Left queue xs)
    (move : Pull) : Yields s (e.pull queue move) fun t r =>
      Served only Left s t p r ((ofList Nat).pull xs move) := by
  cases move with
  | front => exact (h.next hs hleft).bind fun r t hst hr => .pure (hs.later hst).grounded hr
  | back => exact (h.nextBack hs hleft).bind fun r t hst hr => .pure (hs.later hst).grounded hr
  | drain =>
      have hall := Takes.takeAll h.next Ends.orderly_next hs hleft (h.size hleft)
      rw [← h.drain] at hall
      exact hall.bind fun ids t hst hids =>
        .pure (hs.later hst).grounded ⟨hids.1, hleft, hids.2⟩
  | drainBack =>
      have hall := Takes.takeAll h.nextBack Ends.orderly_nextBack hs hleft (h.size hleft)
      rw [← h.drainBack] at hall
      exact hall.bind fun ids t hst hids =>
        .pure (hs.later hst).grounded ⟨hids.1, hleft, hids.2⟩

theorem pullAll (h : Deals p id m only Left e) (hs : s.Stands p id m) (hleft : Left queue xs)
    (moves : List Pull) : Yields s (e.pullAll moves queue) fun t r =>
      List.Forall₂ (t.Given p) r.1 (deal moves xs).1 ∧ Left r.2 (deal moves xs).2 ∧
        Adds only s t p (deal moves xs).1.flatten := by
  induction moves generalizing s queue xs with
  | nil => exact .pure hs.grounded ⟨.nil, hleft, .refl []⟩
  | cons move moves ih =>
      rw [Ends.deal_cons]
      refine (h.pull hs hleft move).bind fun r t hst hr => ?_
      have ht := hs.later hst
      refine (ih ht hr.left).bind fun rest u htu hrest => ?_
      obtain ⟨hgiven, hleft', hadds⟩ := hrest
      exact .pure (ht.later htu).grounded
        ⟨.cons (hr.given.mono htu.grown) hgiven, hleft', hr.adds.trans hadds⟩

end Deals

end Takes

section Children

variable {queue : ChildQueue} {xs : List Nat} {len : Nat}

structure ChildrenLeft (id len : Nat) (queue : ChildQueue) (xs : List Nat) : Prop where
  parent : queue.parent = id
  bounded : queue.back ≤ len
  listed : xs = List.range' queue.front queue.size

theorem ChildrenLeft.nil (h : ChildrenLeft id len queue xs) (hend : queue.front = queue.back) :
    xs = [] := by
  rw [h.listed, ChildQueue.size, hend, Nat.sub_self]
  rfl

theorem ChildrenLeft.front (h : ChildrenLeft id len queue xs) (hne : queue.front ≠ queue.back) :
    ∃ ys, xs = queue.front :: ys ∧ ChildrenLeft id len (queue.dropFront hne) ys := by
  refine ⟨_, ?_, h.parent, h.bounded, rfl⟩
  have hsize : queue.size = queue.back - (queue.front + 1) + 1 := by
    have hle := queue.front_le_back
    rw [ChildQueue.size]
    omega
  rw [h.listed, hsize, List.range'_succ]
  rfl

theorem ChildrenLeft.back (h : ChildrenLeft id len queue xs) (hne : queue.front ≠ queue.back) :
    ∃ ys, xs = ys ++ [queue.back - 1] ∧ ChildrenLeft id len (queue.dropBack hne) ys := by
  have hlt := Nat.lt_of_le_of_ne queue.front_le_back hne
  have hbounded : queue.back - 1 ≤ len := Nat.le_trans (Nat.sub_le _ 1) h.bounded
  refine ⟨_, ?_, h.parent, hbounded, rfl⟩
  have hsize : queue.size = queue.back - 1 - queue.front + 1 := by
    rw [ChildQueue.size]
    omega
  have hlast : queue.front + (queue.back - 1 - queue.front) = queue.back - 1 := by omega
  rw [h.listed, hsize, List.range'_1_concat, hlast]
  rfl

theorem takes_next :
    Takes p id m True (ChildrenLeft id m.children.length) ChildQueue.next (ofList Nat).next := by
  intro s queue xs hs hleft
  rw [ChildQueue.next]
  split
  · next hend =>
    obtain rfl := hleft.nil hend
    exact .pure hs.grounded ⟨.nil, hleft, .refl []⟩
  · next hne =>
    obtain rfl := hleft.parent
    obtain ⟨ys, rfl, hrest⟩ := hleft.front hne
    have hlt := Nat.lt_of_le_of_ne queue.front_le_back hne
    have hi : queue.front < m.children.length := Nat.lt_of_lt_of_le hlt hleft.bounded
    have hc : m.child? queue.front = some _ := List.getElem?_eq_getElem hi
    refine (Yields.placesChild hs.grounded hs.place hs.element hc).bind fun found t hst hfound => ?_
    obtain ⟨cid, rfl, hat, hplaced⟩ := hfound
    refine .pure (hs.later hst).grounded ⟨.cons hat .nil, hrest, fun q hq => ?_⟩
    exact (hplaced q hq).imp_right fun hq => ⟨_, fun _ => List.mem_singleton_self _, hq⟩

theorem takes_nextBack :
    Takes p id m True (ChildrenLeft id m.children.length) ChildQueue.nextBack
      (ofList Nat).nextBack := by
  intro s queue xs hs hleft
  rw [ChildQueue.nextBack]
  split
  · next hend =>
    obtain rfl := hleft.nil hend
    exact .pure hs.grounded ⟨.nil, hleft, .refl []⟩
  · next hne =>
    obtain rfl := hleft.parent
    obtain ⟨ys, rfl, hrest⟩ := hleft.back hne
    rw [Ends.nextBack_concat]
    have hlt := Nat.lt_of_le_of_ne queue.front_le_back hne
    have hbounded := hleft.bounded
    have hi : queue.back - 1 < m.children.length := by omega
    have hc : m.child? (queue.back - 1) = some _ := List.getElem?_eq_getElem hi
    refine (Yields.placesChild hs.grounded hs.place hs.element hc).bind fun found t hst hfound => ?_
    obtain ⟨cid, rfl, hat, hplaced⟩ := hfound
    refine .pure (hs.later hst).grounded ⟨.cons hat .nil, hrest, fun q hq => ?_⟩
    exact (hplaced q hq).imp_right fun hq => ⟨_, fun _ => List.mem_singleton_self _, hq⟩

theorem ChildrenLeft.length (h : ChildrenLeft id len queue xs) : xs.length = queue.size := by
  rw [h.listed, List.length_range']

theorem deals_children :
    Deals p id m True (ChildrenLeft id m.children.length) Ends.children where
  next := takes_next
  nextBack := takes_nextBack
  drain _ := rfl
  drainBack _ := rfl
  size h := Nat.le_of_eq h.length

end Children

section Nodes

variable {queue : ChildQueue} {xs ys : List Nat}
  {take : ChildQueue → Nav (Option Nat × ChildQueue)} {pick : List Nat → Option Nat × List Nat}
  {listed : List Nat → List Nat}

def NodesLeft (id : Nat) (m : Green) (queue : ChildQueue) (xs : List Nat) : Prop :=
  ∃ ys, ChildrenLeft id m.children.length queue ys ∧ xs = ys.filter m.hasNode

theorem Stands.isNode_eq (h : s.Stands p id m) {cid : Nat} (hat : s.At (p ++ [i]) cid) :
    ∃ q, s.placements[cid]? = some q ∧ q.isNode = m.hasNode i := by
  obtain ⟨q, hq, hg, -⟩ := hat.holds h.grounded.coherent h.grounded.wellFormed
  have hc : m.child? i = some q.green := (Green.descend?_concat h.element i).symm.trans hg
  refine ⟨q, hq, ?_⟩
  rw [Green.hasNode, hc]
  rfl

theorem Takes.nextWhere
    (h : Takes p id m only (ChildrenLeft id m.children.length) take pick)
    (ho : Orderly pick listed) (hs : s.Stands p id m)
    (hleft : ChildrenLeft id m.children.length queue ys) {limit : Nat}
    (hlimit : ys.length ≤ limit) :
    Yields s (ChildQueue.nextWhere take Placement.isNode limit queue) fun t r =>
      Served False (NodesLeft id m) s t p (r.1.toList, r.2)
        ((pick (ys.filter m.hasNode)).1.toList, (pick (ys.filter m.hasNode)).2) := by
  induction limit generalizing s queue ys with
  | zero =>
      obtain rfl := List.length_eq_zero_iff.mp (Nat.le_zero.mp hlimit)
      rw [List.filter_nil, ho.nil]
      exact .pure hs.grounded ⟨.nil, ⟨[], hleft, rfl⟩, .refl []⟩
  | succ limit ih =>
      refine (h hs hleft).bind fun r t hst hserved => ?_
      obtain ⟨found, rest⟩ := r
      have ht := hs.later hst
      by_cases hne : ys = []
      · subst hne
        rw [ho.nil] at hserved
        rw [List.filter_nil, ho.nil]
        cases found with
        | none =>
            exact .pure ht.grounded ⟨.nil, ⟨[], hserved.left, rfl⟩, hserved.adds.weaken []⟩
        | some cid => exact nomatch hserved.given
      · obtain ⟨a, zs, hpick, -, hlength⟩ := ho.cons ys hne
        rw [hpick] at hserved
        cases found with
        | none => exact nomatch hserved.given
        | some cid =>
            have hat := (List.forall₂_cons.mp hserved.given).1
            obtain ⟨q, hq, hnode⟩ := ht.isNode_eq hat
            refine .of_ok (Nav.placement_eq hq) ?_
            rw [ho.filter m.hasNode ys a zs hpick, ← hnode]
            cases q.isNode with
            | true =>
                exact .pure ht.grounded
                  ⟨.cons hat .nil, ⟨zs, hserved.left, rfl⟩, hserved.adds.weaken _⟩
            | false =>
                -- The token is placed all the same: the placed children are not just the yielded ones.
                have hrest : zs.length ≤ limit := by omega
                refine (ih ht hserved.left hrest).mono fun r u htu hr => ?_
                exact ⟨hr.given, hr.left, (hserved.adds.weaken [a]).trans hr.adds |>.weaken _⟩

theorem takes_nextNode :
    Takes p id m False (NodesLeft id m) ChildQueue.nextNode (ofList Nat).next := by
  intro s queue xs hs hleft
  obtain ⟨ys, hleft, rfl⟩ := hleft
  exact Takes.nextWhere takes_next Ends.orderly_next hs hleft (Nat.le_of_eq hleft.length)

theorem takes_nextNodeBack :
    Takes p id m False (NodesLeft id m) ChildQueue.nextNodeBack (ofList Nat).nextBack := by
  intro s queue xs hs hleft
  obtain ⟨ys, hleft, rfl⟩ := hleft
  exact Takes.nextWhere takes_nextBack Ends.orderly_nextBack hs hleft (Nat.le_of_eq hleft.length)

theorem deals_nodes : Deals p id m False (NodesLeft id m) Ends.nodes where
  next := takes_nextNode
  nextBack := takes_nextNodeBack
  drain _ := rfl
  drainBack _ := rfl
  size := by
    rintro queue xs ⟨ys, hleft, rfl⟩
    exact Nat.le_trans (List.length_filter_le _ _) (Nat.le_of_eq hleft.length)

end Nodes

section Dealt

variable {queue : ChildQueue} {xs : List Nat} {moves : List Pull}

theorem pull_spent (hsize : queue.size = 0) (move : Pull) :
    Ends.children.pull queue move s = .ok ([], queue) s := by
  have hend : queue.front = queue.back :=
    Nat.le_antisymm queue.front_le_back (Nat.le_of_sub_eq_zero hsize)
  cases move with
  | front =>
      change (ChildQueue.next queue >>= _) s = _
      rw [ChildQueue.next, dif_pos hend]
      rfl
  | back =>
      change (ChildQueue.nextBack queue >>= _) s = _
      rw [ChildQueue.nextBack, dif_pos hend]
      rfl
  | drain =>
      change (ChildQueue.takeAll _ queue.size queue >>= _) s = _
      rw [hsize]
      rfl
  | drainBack =>
      change (ChildQueue.takeAll _ queue.size queue >>= _) s = _
      rw [hsize]
      rfl

theorem pullAll_spent (hsize : queue.size = 0) (moves : List Pull) :
    Ends.children.pullAll moves queue s = .ok (moves.map fun _ => [], queue) s := by
  induction moves with
  | nil => rfl
  | cons move moves ih =>
      rw [Ends.pullAll, Nav.bind_ok (pull_spent hsize move), Nav.bind_ok ih]
      rfl

structure Dealt (s t : Session) (p : List Nat) (m : Green) (moves : List Pull)
    (r : List (List Nat) × ChildQueue) : Prop where
  answers : List.Forall₂ (t.Given p) r.1 (deal moves (List.range m.children.length)).1
  size : r.2.size = (deal moves (List.range m.children.length)).2.length
  elements : r.1.map (List.map fun cid => t.placements[cid]?.map Placement.green) =
    (Ends.green.pullAll moves (GreenQueue.ofNode m)).1.map (List.map some)
  elements_size : (Ends.green.pullAll moves (GreenQueue.ofNode m)).2.size = r.2.size
  meet : ∃ k, k + r.2.size ≤ m.children.length ∧
    t.Given p (Ends.drawn .front moves r.1) (List.range k) ∧
    t.Given p (Ends.drawn .back moves r.1)
      (List.range' (k + r.2.size) (m.children.length - k - r.2.size)).reverse
  once : (Ends.drawn .front moves r.1 ++ Ends.drawn .back moves r.1).Nodup
  spent : r.2.size = 0 → ∀ more,
    Ends.children.pullAll more r.2 t = .ok (more.map fun _ => [], r.2) t
  placed : ∀ q, q ∈ t.placed ↔ q ∈ s.placed ∨ ∃ cid ∈ r.1.flatten, t.At q cid

variable {answers : List (List Nat)}

theorem map_child?_range (m : Green) :
    (List.range m.children.length).map m.child? = m.children.map some := by
  refine List.ext_getElem ?_ fun i h h' => ?_
  · rw [List.length_map, List.length_map, List.length_range]
  · rw [List.getElem_map, List.getElem_map, List.getElem_range]
    exact List.getElem?_eq_getElem _

theorem deal_range (m : Green) (moves : List Pull) :
    (deal moves (List.range m.children.length)).1.map (List.map m.child?) =
        (deal moves m.children).1.map (List.map some) ∧
      (deal moves (List.range m.children.length)).2.length = (deal moves m.children).2.length := by
  have hboth := congrArg (deal moves) (map_child?_range m)
  rw [Ends.deal_map, Ends.deal_map] at hboth
  have hleft := congrArg List.length (congrArg Prod.snd hboth)
  rw [List.length_map, List.length_map] at hleft
  exact ⟨congrArg Prod.fst hboth, hleft⟩

theorem Stands.elements_eq (h : s.Stands p id m)
    (hgiven : List.Forall₂ (s.Given p) answers (deal moves (List.range m.children.length)).1) :
    answers.map (List.map fun cid => s.placements[cid]?.map Placement.green) =
      (deal moves m.children).1.map (List.map some) := by
  rw [← (deal_range m moves).1, ← List.forall₂_eq_eq_eq, List.forall₂_map_left_iff,
    List.forall₂_map_right_iff]
  refine List.Forall₂.imp (fun ids is hids => hids.map_eq fun cid i hat => ?_) hgiven
  obtain ⟨q, hq, hg, -⟩ := hat.holds h.grounded.coherent h.grounded.wellFormed
  rw [hq, Option.map_some]
  exact hg.symm.trans (Green.descend?_concat h.element i)

theorem placed_iff (hs : s.Coherent) (ht : t.Coherent) (hst : Extends s t)
    (hgiven : t.Given p js is) (hadds : Adds True s t p is) {q : List Nat} :
    q ∈ t.placed ↔ q ∈ s.placed ∨ ∃ cid ∈ js, t.At q cid := by
  constructor
  · intro hq
    rcases hadds q hq with hq | ⟨i, hi, rfl⟩
    · exact .inl hq
    · exact .inr (hgiven.exists_mem (hi trivial))
  · rintro (hq | ⟨cid, -, hat⟩)
    · obtain ⟨old, hold⟩ := (mem_placed_iff hs).mp hq
      exact (mem_placed_iff ht).mpr ⟨old, hold.mono hst⟩
    · exact (mem_placed_iff ht).mpr ⟨cid, hat⟩

theorem ends_meet (ht : t.Coherent) {len : Nat}
    (hgiven : List.Forall₂ (t.Given p) answers (deal moves (List.range len)).1) :
    (∃ k, k + (deal moves (List.range len)).2.length ≤ len ∧
      t.Given p (Ends.drawn .front moves answers) (List.range k) ∧
      t.Given p (Ends.drawn .back moves answers)
        (List.range' (k + (deal moves (List.range len)).2.length)
          (len - k - (deal moves (List.range len)).2.length)).reverse) ∧
      (Ends.drawn .front moves answers ++ Ends.drawn .back moves answers).Nodup := by
  have hfront : t.Given p (Ends.drawn .front moves answers) _ := Ends.drawn_forall₂ hgiven
  have hback : t.Given p (Ends.drawn .back moves answers) _ := Ends.drawn_forall₂ hgiven
  refine ⟨?_, ?_⟩
  · obtain ⟨k, hk, hdrawn, hdrawn'⟩ := Ends.drawn_range moves len
    exact ⟨k, hk, hdrawn ▸ hfront, hdrawn' ▸ hback⟩
  · have hboth : t.Given p _ _ := List.rel_append hfront hback
    exact hboth.nodup ht (Ends.nodup_drawn List.nodup_range)

theorem Reached.children_dealt (hs : s.Reached) (h : s.At p id) (hm : s.root.descend? p = some m)
    (moves : List Pull) : ∃ queue, ChildQueue.ofNode id s = .ok queue s ∧
      queue.size = m.children.length ∧
      Yields s (Ends.children.pullAll moves queue) (fun t r => Dealt s t p m moves r) ∧
      Yields s (Ends.nodes.pullAll moves queue) fun t r => List.Forall₂ (t.Given p) r.1
        (deal moves ((List.range m.children.length).filter m.hasNode)).1 := by
  have hstands : s.Stands p id m := ⟨hs.grounded, h, hm⟩
  obtain ⟨n, hn, rfl, -⟩ := hs.grounded.held h hm
  have hleft : ChildrenLeft id n.green.children.length ⟨id, 0, n.green.children.length, Nat.zero_le _⟩
      (List.range n.green.children.length) :=
    ⟨rfl, Nat.le_refl _, List.range_eq_range'⟩
  refine ⟨⟨id, 0, n.green.children.length, Nat.zero_le _⟩, ?_, rfl, ?_, ?_⟩
  · rw [ChildQueue.ofNode, Nav.bind_ok (Nav.placement_eq hn)]
    rfl
  · refine (deals_children.pullAll hstands hleft moves).mono fun r t hst hr => ?_
    obtain ⟨hgiven, hrest, hadds⟩ := hr
    have hmeet := ends_meet hst.coherent hgiven
    rw [hrest.length] at hmeet
    exact {
      answers := hgiven
      size := hrest.length.symm
      elements := by
        rw [GreenQueue.ofNode, Ends.green_pullAll]
        exact (hstands.later hst).elements_eq hgiven
      elements_size := by
        rw [GreenQueue.ofNode, Ends.green_pullAll, ← hrest.length, (deal_range n.green moves).2]
        rfl
      meet := hmeet.1
      once := hmeet.2
      spent := fun hsize => pullAll_spent hsize
      placed := fun q => placed_iff hs.coherent hst.coherent hst.grown
        (List.rel_flatten hgiven) hadds }
  · refine (deals_nodes.pullAll hstands ⟨_, hleft, rfl⟩ moves).mono fun r t hst hr => hr.1

end Dealt

end Session

namespace Sample

theorem assignment_children_dealt : session.Reached ∧ session.At [] Session.rootId ∧
    ∃ queue, ChildQueue.ofNode Session.rootId session = .ok queue session ∧
      (∃ r t, Ends.children.pullAll [.back, .drain, .front, .front, .back, .front] queue session =
          .ok r t ∧ List.Forall₂ (t.Given []) r.1 [[3], [0, 1, 2], [0], [1], [2], []]) ∧
      ∃ r t, Ends.nodes.pullAll [.back, .drain, .front, .front, .back, .front] queue session =
        .ok r t ∧ List.Forall₂ (t.Given []) r.1 [[2], [0], [0], [], [], []] := by
  have ho : Session.ofRoot assignment ⟨7⟩ = .ok (session, ⟨8⟩) := rfl
  have hroom : ¬ session.Crowded := by
    rw [Session.Crowded, Session.strays_of_ofRoot ho]
    decide
  obtain ⟨queue, hqueue, -, hchildren, hnodes⟩ := session_reached.children_dealt .root rfl
    [.back, .drain, .front, .front, .back, .front]
  obtain ⟨r, t, hrun, -, hdealt⟩ := hchildren.ok hroom
  obtain ⟨r', t', hrun', -, hgiven⟩ := hnodes.ok hroom
  exact ⟨session_reached, .root, queue, hqueue, ⟨r, t, hrun, hdealt.answers⟩, r', t', hrun',
    hgiven⟩

end Sample

end LosslessSyntax
