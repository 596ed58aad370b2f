import LosslessSyntax.Proofs.Edit.Room

namespace LosslessSyntax

namespace Green

def replaceAlong : Green → List Nat → Green → Mint Green
  | _, [], r => pure r
  | g, i :: is, r => do
      let c ← Mint.ofExcept (g.childAt i)
      let c ← c.replaceAlong is r
      g.replaceChild i c

variable {g c m r : Green} {i : Nat} {q : List Nat}

theorem ofExcept_childAt (h : g.child? i = some c) :
    (Mint.ofExcept (g.childAt i) : Mint Green) = pure c := by
  rw [childAt, h]
  rfl

theorem replaceAlong_cons (h : g.child? i = some c) :
    g.replaceAlong (i :: q) r = c.replaceAlong q r >>= g.replaceChild i := by
  rw [replaceAlong, ofExcept_childAt h, pure_bind]

theorem replaceAlong_concat (hm : g.descend? q = some m) (hc : m.child? i = some c) :
    g.replaceAlong (q ++ [i]) r = m.replaceChild i r >>= (g.replaceAlong q ·) := by
  induction q generalizing g with
  | nil =>
      obtain rfl := Option.some.inj hm
      have hlast : ∀ x : Green, g.replaceAlong [] x = pure x := fun _ => rfl
      rw [List.nil_append, replaceAlong_cons hc, replaceAlong, pure_bind]
      simp only [hlast, bind_pure]
  | cons j q ih =>
      obtain ⟨d, hd, hm⟩ := descend?_cons_eq_some_iff.mp hm
      rw [List.cons_append, replaceAlong_cons hd, ih hm, bind_assoc]
      simp only [replaceAlong_cons hd]

theorem isNode_of_replaceAlong {g' : Green} {supply rest : Supply}
    (h : g.replaceAlong (i :: q) r supply = .ok (g', rest)) : g'.isNode = true := by
  obtain ⟨c, next, -, h⟩ := Mint.bind_eq_ok_iff.mp h
  obtain ⟨d, last, -, h⟩ := Mint.bind_eq_ok_iff.mp h
  obtain ⟨b, last', -, h⟩ := Mint.bind_eq_ok_iff.mp h
  obtain ⟨summary, rfl, -⟩ := assemble_eq_ok h
  rfl

theorem replaceChild_of_child? (hc : g.child? i = some c) (r : Green) :
    g.replaceChild i r = assemble g.kind (g.children.set i r) g.diagnostics := by
  rw [replaceChild, ofExcept_childAt hc, pure_bind]

end Green

namespace Splice

variable {g c r : Green} {cs : List Green} {xs : List Splice} {i index : Nat} {is : List Nat}

theorem rebuildAmong_untouched (h : ∀ j, index ≤ j → under j xs = []) :
    rebuildAmong index cs xs = pure cs := by
  induction cs generalizing index with
  | nil => rfl
  | cons c cs ih =>
      have hcs := ih fun j hj => h j (Nat.le_of_succ_le hj)
      rw [rebuildAmong_cons, h index (Nat.le_refl _), hcs]
      rfl

theorem under_singleton_self : under i [(i :: is, r)] = [(is, r)] := under_cons_self

theorem under_singleton_of_ne {j : Nat} (h : j ≠ i) : under i [(j :: is, r)] = [] :=
  under_cons_of_ne h

theorem rebuildAmong_singleton (hc : cs[i]? = some c) :
    rebuildAmong index cs [((index + i) :: is, r)] =
      renew c [(is, r)] >>= fun c => pure (cs.set i c) := by
  induction cs generalizing index i with
  | nil => exact nomatch hc
  | cons b cs ih =>
      rw [rebuildAmong_cons]
      cases i with
      | zero =>
          obtain rfl : b = c := Option.some.inj hc
          have hrest : rebuildAmong (index + 1) cs [((index + 0) :: is, r)] = pure cs :=
            rebuildAmong_untouched fun j hj => under_singleton_of_ne (by omega)
          rw [hrest, Nat.add_zero, under_singleton_self]
          rfl
      | succ i =>
          have hfirst : under index [((index + (i + 1)) :: is, r)] = [] :=
            under_singleton_of_ne (by omega)
          have hrest := @ih i (index + 1) hc
          rw [Nat.add_right_comm, Nat.add_assoc] at hrest
          have hkept : renew b [] = pure b := rfl
          rw [hfirst, hrest, hkept, pure_bind, bind_assoc]
          rfl

theorem renew_singleton (h : (g.descend? is).isSome) :
    renew g [(is, r)] = g.replaceAlong is r := by
  induction is generalizing g with
  | nil => rfl
  | cons i is ih =>
      obtain ⟨m, hm⟩ := Option.isSome_iff_exists.mp h
      obtain ⟨c, hc, hm⟩ := Green.descend?_cons_eq_some_iff.mp hm
      have hrec := @ih c (Option.isSome_iff_exists.mpr ⟨m, hm⟩)
      cases g with
      | token stamp shape ds => exact nomatch hc
      | node stamp kind summary cs ds =>
          have hamong : rebuildAmong 0 cs [(i :: is, r)] =
              renew c [(is, r)] >>= fun c => pure (cs.set i c) := by
            have hfirst := @rebuildAmong_singleton c r cs i 0 is hc
            rwa [Nat.zero_add] at hfirst
          rw [Green.replaceAlong_cons hc, ← hrec, renew, rebuild, hamong, bind_assoc]
          · simp only [pure_bind]
            exact bind_congr fun d => (Green.replaceChild_of_child? hc d).symm
          all_goals simp

end Splice

namespace Session

def climb : List (Nat × Placement) → Green → Mint Green
  | (_, p) :: (id, above) :: rest, g => do
      let g ← above.green.replaceChild p.index g
      climb ((id, above) :: rest) g
  | _, g => pure g

def openRoot (g : Green) : Mint Session :=
  if g.isNode then ofRoot g else Mint.fail (.illegalShape g.kind .rootReplacedByToken)

def replaceUpward (path : Path) (replacement : Green) (supply : Supply) :
    Nav (Session × Supply) := do
  let id ← resolve path
  let s ← get
  Nav.ofExcept ((do openRoot (← climb (s.lineage id) replacement)).run supply)

variable {s : Session} {q : List Nat} {id : Nat}

theorem lineage_eq_cons {p : Placement} (hp : s.placements[id]? = some p) :
    ∃ above, s.lineage id = (id, p) :: above := by
  rw [lineage, hp]
  exact ⟨_, rfl⟩

theorem climb_lineage (hs : s.Coherent) (hroot : s.root.WellFormed) (h : s.At q id) (r : Green) :
    climb (s.lineage id) r = s.root.replaceAlong q r := by
  induction h generalizing r with
  | root =>
      obtain ⟨p, hp, -, -, hparent⟩ := hs.root
      rw [lineage_of_no_parent hp hparent]
      rfl
  | @child q a id p ha hp hparent ih =>
      obtain ⟨above, habove, hm, -⟩ := ha.holds hs hroot
      obtain ⟨p', hp', hc, -⟩ := (At.child ha hp hparent).holds hs hroot
      rw [Green.descend?_concat hm] at hc
      obtain ⟨rest, hrest⟩ := lineage_eq_cons habove
      rw [lineage_of_parent hs hp hparent, Green.replaceAlong_concat hm hc, hrest, climb, ← hrest]
      simp only [ih]

theorem openRoot_replaceAlong {root r : Green} (path : Path)
    (h : (root.descend? path.indices).isSome) (supply : Supply) :
    (root.replaceAlong path.indices r >>= openRoot) supply =
      (Target.replaceAll root [(Edit.atPath path r).target root] supply).bind
        fun x => ofRoot x.1 x.2 := by
  have hsorted : [(Edit.atPath path r).target root] =
      (Edit.sorted [.atPath path r]).map (Edit.target root) := rfl
  rw [hsorted]
  cases hpath : path.isRoot with
  | true =>
      rw [Edit.replaceAll_root hpath, Edit.isRoot_iff.mp hpath]
      change openRoot r supply = _
      rw [openRoot, Edit.atPath]
      cases r.isNode <;> rfl
  | false =>
      have hsplices : Edit.splices [.atPath path r] = [(path.indices, r)] := rfl
      have hstands : (Edit.atPath path r).Stands root := by
        obtain ⟨m, hm⟩ := Option.isSome_iff_exists.mp h
        exact ⟨m, hm, fun x hx => nomatch hx⟩
      rw [Edit.replaceAll_splices (List.forall_mem_singleton.mpr hstands)
          (List.pairwise_singleton _ _) (List.cons_ne_nil _ _) (List.forall_mem_singleton.mpr hpath),
        hsplices, Splice.renew_singleton h]
      cases hrun : root.replaceAlong path.indices r supply with
      | error e => exact Mint.bind_error hrun
      | ok x =>
          have hnode : x.1.isNode = true := by
            obtain ⟨i, is, his⟩ := List.exists_cons_of_ne_nil fun hnil =>
              Bool.eq_false_iff.mp hpath (Edit.isRoot_iff.mpr hnil)
            rw [his] at hrun
            exact Green.isNode_of_replaceAlong hrun
          rw [Mint.bind_ok hrun, openRoot, if_pos hnode]
          rfl

theorem answer_apply_atPath (hs : s.Reached) (path : Path) (r : Green) (supply : Supply) :
    Nav.answer (apply [.atPath path r] supply) s = Nav.answer (replaceUpward path r supply) s := by
  cases hrun : resolve path s with
  | error e t =>
      have he : (Edit.atPath path r).resolve s = .error e t := Nav.bind_error hrun
      have hall : Edit.resolveAll [.atPath path r] s = .error e t := Nav.bind_error he
      have hv : validate [.atPath path r] s = .error e t := Nav.bind_error hall
      have happly : apply [.atPath path r] supply s = .error e t := Nav.bind_error hv
      have hup : replaceUpward path r supply s = .error e t := Nav.bind_error hrun
      rw [Nav.answer_of_error happly, Nav.answer_of_error hup]
  | ok id t =>
      obtain ⟨hst, hat⟩ := explored_of_resolve hs hrun
      have hroot : t.root.WellFormed := hst.grown.root ▸ hs.root_wellFormed
      obtain ⟨p, -, hm, -⟩ := hat.holds hst.coherent hroot
      have hid := holds_of_at hst.coherent hroot hat hm
      have hsome := Option.isSome_iff_exists.mpr ⟨_, hm⟩
      rw [hst.grown.root] at hm hid hsome
      have he := Edit.resolve_of_holds (e := .atPath path r) hs.root_wellFormed hm hrun hid
        fun _ h => nomatch h
      have hall : Edit.resolveAll [.atPath path r] s =
          .ok [(Edit.atPath path r).target s.root] t := by
        rw [Edit.resolveAll, Nav.bind_ok he]
        rfl
      have hup : replaceUpward path r supply s =
          Nav.ofExcept ((climb (t.lineage id) r >>= openRoot) supply) t := Nav.bind_ok hrun
      rw [answer_apply_of_no_conflict hall rfl, Nav.answer, hup,
        climb_lineage hst.coherent hroot hat, hst.grown.root, openRoot_replaceAlong path hsome]
      exact (Nav.answer_ofExcept _ t).symm

end Session

end LosslessSyntax
