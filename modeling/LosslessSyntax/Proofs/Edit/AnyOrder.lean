import LosslessSyntax.Proofs.Edit.Climb
import LosslessSyntax.Proofs.Green.Content

namespace LosslessSyntax

namespace Green

namespace Recast

variable {a b c : Green}

theorem symm (h : a.Recast b) : b.Recast a :=
  ⟨h.isNode', h.isNode, h.kind.symm, h.diagnostics.symm, h.length.symm⟩

theorem trans (h : a.Recast b) (h' : b.Recast c) : a.Recast c :=
  ⟨h.isNode, h'.isNode', h'.kind.trans h.kind, h'.diagnostics.trans h.diagnostics,
    h'.length.trans h.length⟩

end Recast

def Matches (a b : Green) (q : List Nat) : Prop :=
  b.descend? q = a.descend? q ∨
    ∃ m m', a.descend? q = some m ∧ b.descend? q = some m' ∧ m.Recast m'

theorem Matches.of_cons {a b c d : Green} {i : Nat} {q : List Nat} (h : Matches a b (i :: q))
    (hc : a.child? i = some c) (hd : b.child? i = some d) : Matches c d q := by
  rw [Matches, descend?_cons, descend?_cons, hc, hd] at h
  exact h

theorem unstamped_eq_of_matches {a b : Green} (ha : a.WellFormed) (hb : b.WellFormed)
    (h : ∀ q, Matches a b q) : b.unstamped = a.unstamped := by
  induction a generalizing b with
  | token stamp shape ds =>
      rcases h [] with heq | ⟨m, m', hm, -, hrecast⟩
      · rw [Option.some.inj heq]
      · obtain rfl := Option.some.inj hm
        exact nomatch hrecast.isNode
  | node stamp kind summary cs ds ih =>
      rcases h [] with heq | ⟨m, m', hm, hm', hrecast⟩
      · rw [Option.some.inj heq]
      · obtain rfl := Option.some.inj hm
        obtain rfl := Option.some.inj hm'
        refine unstamped_eq_of_children ha hb rfl hrecast.isNode' hrecast.kind
          hrecast.diagnostics ?_
        rw [unstampedAll_eq_map, unstampedAll_eq_map]
        refine List.ext_getElem (by rw [List.length_map, List.length_map, hrecast.length]) ?_
        intro i hi hi'
        rw [List.length_map] at hi hi'
        have hc : (node stamp kind summary cs ds).child? i = some cs[i] :=
          List.getElem?_eq_getElem hi'
        have hd : b.child? i = some b.children[i] := List.getElem?_eq_getElem hi
        rw [List.getElem_map, List.getElem_map]
        exact ih _ (List.getElem_mem hi') (ha.of_child? hc) (hb.of_child? hd)
          fun q => (h (i :: q)).of_cons hc hd

end Green

namespace Edit

variable {root a b : Green} {done edits others : List Edit} {e : Edit} {q : List Nat}

theorem path_cases (edits : List Edit) (q : List Nat) :
    (∃ e ∈ edits, ∃ js, q = e.path.indices ++ js) ∨ Above edits q ∨
      ∀ e ∈ edits, Path.Apart e.path.indices q := by
  rcases Splice.path_cases (splices edits) q with ⟨x, hx, js, rfl⟩ | hq | hq
  · obtain ⟨e, he, rfl⟩ := mem_splices_iff.mp hx
    exact .inl ⟨e, he, js, rfl⟩
  · exact .inr (.inl (above_splices_iff.mp hq))
  · exact .inr (.inr fun e he => hq _ (splice_mem_splices he))

theorem above_perm (hp : others.Perm edits) : Above others q ↔ Above edits q :=
  ⟨fun ⟨e, he, hq⟩ => ⟨e, hp.mem_iff.mp he, hq⟩, fun ⟨e, he, hq⟩ => ⟨e, hp.mem_iff.mpr he, hq⟩⟩

structure Edited (old : Green) (edits : List Edit) (new : Green) : Prop where
  wellFormed : new.WellFormed
  replaced : ∀ e ∈ edits, ∀ js, new.descend? (e.path.indices ++ js) = e.replacement.descend? js
  rebuilt : ∀ q, Above edits q →
    ∃ m m', old.descend? q = some m ∧ new.descend? q = some m' ∧ m.Recast m'
  shared : ∀ q, (∀ e ∈ edits, Path.Apart e.path.indices q) → new.descend? q = old.descend? q

structure Agrees (edits : List Edit) (a b : Green) : Prop where
  content : b.unstamped = a.unstamped
  alike : b.alike a = true
  same : ∀ q, ¬ Above edits q → b.descend? q = a.descend? q

namespace Edited

theorem refl (h : root.WellFormed) : Edited root [] root :=
  ⟨h, fun _ he => absurd he List.not_mem_nil, fun _ ⟨_, he, _⟩ => absurd he List.not_mem_nil,
    fun _ _ => rfl⟩

theorem perm (h : Edited root edits a) (hp : others.Perm edits) : Edited root others a := by
  refine ⟨h.wellFormed, ?_, ?_, ?_⟩
  · intro e he
    exact h.replaced e (hp.mem_iff.mp he)
  · intro q hq
    exact h.rebuilt q ((above_perm hp).mp hq)
  · intro q hq
    exact h.shared q fun e he => hq e (hp.mem_iff.mpr he)

theorem agrees (ha : Edited root edits a) (hb : Edited root edits b) : Agrees edits a b := by
  have hsame : ∀ q, ¬ Above edits q → b.descend? q = a.descend? q := by
    intro q hq
    rcases path_cases edits q with ⟨e, he, js, rfl⟩ | habove | hapart
    · rw [ha.replaced e he, hb.replaced e he]
    · exact absurd habove hq
    · rw [ha.shared q hapart, hb.shared q hapart]
  have hcontent : b.unstamped = a.unstamped := by
    refine Green.unstamped_eq_of_matches ha.wellFormed hb.wellFormed ?_
    intro q
    by_cases hq : Above edits q
    · obtain ⟨m, c, hm, hc, hrecast⟩ := ha.rebuilt q hq
      obtain ⟨m', d, hm', hd, hrecast'⟩ := hb.rebuilt q hq
      obtain rfl := Option.some.inj (hm.symm.trans hm')
      exact .inr ⟨c, d, hc, hd, hrecast.symm.trans hrecast'⟩
    · exact .inl (hsame q hq)
  exact ⟨hcontent, Green.alike_of_unstamped_eq hcontent, hsame⟩

theorem concat (h : Edited root done a) (h' : Edited a [e] b)
    (hapart : ∀ x ∈ done, Apart x e) : Edited root (done ++ [e]) b := by
  have hbelow : ∀ x ∈ done, ∀ js, ∀ y ∈ [e],
      Path.Apart y.path.indices (x.path.indices ++ js) := by
    intro x hx js y hy
    obtain rfl := List.mem_singleton.mp hy
    refine ⟨?_, ?_⟩
    · intro hp
      rcases List.prefix_or_prefix_of_prefix hp (List.prefix_append _ js) with hle | hle
      · exact (hapart x hx).2 hle
      · exact (hapart x hx).1 hle
    · intro hp
      exact (hapart x hx).1 ((List.prefix_append _ js).trans hp)
  have rebuilt_last : ∀ q, Above [e] q →
      ∃ m m', root.descend? q = some m ∧ b.descend? q = some m' ∧ m.Recast m' := by
    intro q hq
    obtain ⟨m, m', hm, hm', hrecast⟩ := h'.rebuilt q hq
    obtain ⟨y, hy, hqe, -⟩ := hq
    obtain rfl := List.mem_singleton.mp hy
    rcases path_cases done q with ⟨x, hx, js, rfl⟩ | hdone | hdone
    · exact absurd ((List.prefix_append _ js).trans hqe) (hapart x hx).1
    · obtain ⟨n, m'', hn, hm'', hfirst⟩ := h.rebuilt q hdone
      obtain rfl := Option.some.inj (hm.symm.trans hm'')
      exact ⟨n, m', hn, hm', hfirst.trans hrecast⟩
    · exact ⟨m, m', (h.shared q hdone).symm.trans hm, hm', hrecast⟩
  refine ⟨h'.wellFormed, ?_, ?_, ?_⟩
  · intro x hx js
    rcases List.mem_append.mp hx with hx | hx
    · rw [h'.shared _ (hbelow x hx js), h.replaced x hx]
    · exact h'.replaced x hx js
  · rintro q ⟨x, hmem, hq, hne⟩
    rcases List.mem_append.mp hmem with hx | hx
    · rcases path_cases [e] q with ⟨y, hy, js, rfl⟩ | hlast | hlast
      · obtain rfl := List.mem_singleton.mp hy
        exact absurd ((List.prefix_append _ js).trans hq) (hapart x hx).2
      · exact rebuilt_last q hlast
      · rw [h'.shared q hlast]
        exact h.rebuilt q ⟨x, hx, hq, hne⟩
    · exact rebuilt_last q ⟨x, hx, hq, hne⟩
  · intro q hq
    have hdone : ∀ x ∈ done, Path.Apart x.path.indices q :=
      fun x hx => hq x (List.mem_append_left _ hx)
    have hlast : ∀ x ∈ [e], Path.Apart x.path.indices q :=
      fun x hx => hq x (List.mem_append_right _ hx)
    rw [h'.shared q hlast, h.shared q hdone]

end Edited

theorem Stands.of_edited (he : e.Stands root) (h : Edited root done a)
    (hapart : ∀ x ∈ done, Apart x e) : e.Stands a := by
  obtain ⟨m, hm, hexp⟩ := he
  exact ⟨m, (h.shared _ hapart).trans hm, hexp⟩

theorem growth_concat (root : Green) (done : List Edit) (e : Edit) :
    growth root (done ++ [e]) = growth root done + gain root e := by
  rw [growth, List.map_append, List.sum_append, List.map_singleton, List.sum_singleton, growth]

theorem gain_of_edited (h : Edited root done a) (hapart : ∀ x ∈ done, Apart x e) :
    growth a [e] = gain root e := by
  have hwidth : a.widthAt e.path.indices = root.widthAt e.path.indices := by
    rw [Green.widthAt, h.shared _ hapart, Green.widthAt]
  rw [growth, List.map_singleton, List.sum_singleton, gain, gain, Splice.gain, Splice.gain, splice,
    hwidth]

structure Ready (root : Green) (edits : List Edit) (qs : List (List Nat)) : Prop where
  wellFormed : ∀ e ∈ edits, e.replacement.WellFormed
  stands : ∀ e ∈ edits, e.Stands root
  apart : edits.Pairwise Apart
  roots : ∀ e ∈ edits, e.path.isRoot = true → e.replacement.isNode = true
  leads : Session.Leads qs edits
  nil_mem : [] ∈ qs
  room : qs.length ≤ Arena.capacity

theorem Ready.sublist {qs : List (List Nat)} (h : Ready root edits qs)
    (hsub : others.Sublist edits) : Ready root others qs :=
  ⟨fun e he => h.wellFormed e (hsub.mem he), fun e he => h.stands e (hsub.mem he),
    h.apart.sublist hsub, fun e he => h.roots e (hsub.mem he), fun e he => h.leads e (hsub.mem he),
    h.nil_mem, h.room⟩

theorem Ready.perm {qs : List (List Nat)} (h : Ready root edits qs) (hp : others.Perm edits) :
    Ready root others qs :=
  ⟨fun e he => h.wellFormed e (hp.mem_iff.mp he), fun e he => h.stands e (hp.mem_iff.mp he),
    (hp.pairwise_iff Apart.symm).mpr h.apart, fun e he => h.roots e (hp.mem_iff.mp he),
    fun e he => h.leads e (hp.mem_iff.mp he), h.nil_mem, h.room⟩

end Edit

namespace Session

open Edit

variable {s t u new : Session} {root : Green} {qs : List (List Nat)} {edits others done : List Edit}
  {e : Edit} {supply rest : Supply}

theorem edited_of_apply (hs : s.Reached) (hr : ∀ e ∈ edits, e.replacement.WellFormed)
    (h : Nav.answer (apply edits supply) s = .ok (new, rest)) : Edited s.root edits new.root := by
  have hsub := substitution_of_apply hs h
  refine ⟨?_, hsub.replaced, ?_, hsub.shared⟩
  · cases completed_of_apply hs hr h with
    | accepted hwf _ _ _ ho => exact (coherent_of_ofRoot ho).2 ▸ hwf
  · intro q hq
    obtain ⟨m, m', hm, hm', hrecast, -⟩ := hsub.rebuilt q hq
    exact ⟨m, m', hm, hm', hrecast⟩

theorem ready_of_apply (hs : s.Reached) (hr : ∀ e ∈ edits, e.replacement.WellFormed)
    (h : Nav.answer (apply edits supply) s = .ok (new, rest)) :
    Ready s.root edits (Nav.after (apply edits supply) s).placed := by
  obtain ⟨hst, hleads⟩ := explored_of_apply hs h
  have hroom := (hs.after (Nav.Moving.apply edits supply)).size_le
  have hsplit := (Nav.after (apply edits supply) s).length_placed_add_strays
  have hnil := (mem_placed_iff hst.coherent).mpr ⟨rootId, .root⟩
  rcases answer_apply_cases hs edits supply with ⟨hstands, hapart, -⟩ |
    ⟨pre, f, post, err, -, -, -, ha⟩ | ⟨-, f, g, -, ha⟩ | ⟨-, ha⟩
  · cases completed_of_apply hs hr h with
    | accepted _ _ _ hroots _ => exact ⟨hr, hstands, hapart, hroots, hleads, hnil, by omega⟩
  · exact nomatch h.symm.trans ha
  · exact nomatch h.symm.trans ha
  · exact nomatch h.symm.trans ha

def applyInTurn : Session → List Edit → Supply → Except Failure (Session × Supply)
  | s, [], supply => .ok (s, supply)
  | s, e :: es, supply =>
      (Nav.answer (apply [e] supply) s).bind fun r => applyInTurn r.1 es r.2

structure Underway (root : Green) (done : List Edit) (qs : List (List Nat)) (s : Session) :
    Prop where
  reached : s.Reached
  confined : Confined qs s
  edited : Edited root done s.root
  width_eq : (s.root.width : Int) = root.width + growth root done

structure Spills (root : Green) (done : List Edit) (e : Edit) (now : Session) (f : Failure) :
    Prop where
  blamed : ∃ q m, Above [e] q ∧ now.root.descend? q = some m ∧
    f = .illegalShape m.kind .widthOverflow
  tooWide : maxSize < root.width + growth root (done ++ [e])

theorem Underway.step (h : Underway root done qs s) (hready : Ready root (done ++ [e]) qs)
    (supply : Supply) :
    (∃ new rest, Nav.answer (apply [e] supply) s = .ok (new, rest) ∧
        Underway root (done ++ [e]) qs new) ∨
      ∃ f, Nav.answer (apply [e] supply) s = .error f ∧ Spills root done e s f := by
  have hmem : e ∈ done ++ [e] := List.mem_append_right done List.mem_cons_self
  have hapart : ∀ x ∈ done, Apart x e := fun x hx =>
    (List.pairwise_append.mp hready.apart).2.2 x hx e List.mem_cons_self
  have hwf : ∀ x ∈ [e], x.replacement.WellFormed :=
    List.forall_mem_singleton.mpr (hready.wellFormed e hmem)
  have hstands : ∀ x ∈ [e], x.Stands s.root :=
    List.forall_mem_singleton.mpr ((hready.stands e hmem).of_edited h.edited hapart)
  have hleads : Leads qs [e] := List.forall_mem_singleton.mpr (hready.leads e hmem)
  have hwidth : (s.root.width : Int) + growth s.root [e] = root.width + growth root (done ++ [e]) := by
    rw [h.width_eq, gain_of_edited h.edited hapart, growth_concat, Int.add_assoc]
  have hout := h.confined.completed h.reached.root_isNode hstands
    (List.pairwise_singleton _ _) hleads hwf supply
  cases hrun : Nav.answer (apply [e] supply) s with
  | ok r =>
      rw [hrun] at hout
      have hedited := edited_of_apply h.reached hwf hrun
      cases hout with
      | @accepted g next rest new hg hn hgrown _ ho =>
          refine .inl ⟨new, rest, rfl, .opened hg hn ho,
            .of_opened ho hg hready.nil_mem hready.room, h.edited.concat hedited hapart, ?_⟩
          rw [(coherent_of_ofRoot ho).2, hgrown, hwidth]
  | error f =>
      rw [hrun] at hout
      cases hout with
      | rootToken hx hroot hnode =>
          obtain rfl := List.mem_singleton.mp hx
          exact nomatch hnode.symm.trans (hready.roots _ hmem hroot)
      | tooWide hq hm _ hwide =>
          exact .inr ⟨_, rfl, ⟨_, _, hq, hm, rfl⟩, hwidth ▸ hwide⟩

/-- The first of the steps to spill is not the last of them. -/
def SpillsOnTheWay (s : Session) (edits : List Edit) (supply : Supply) (f : Failure) : Prop :=
  ∃ pre e post now rest, edits = pre ++ e :: post ∧ post ≠ [] ∧
    applyInTurn s pre supply = .ok (now, rest) ∧ Spills s.root pre e now f

theorem Underway.run (h : Underway root done qs s) (hready : Ready root (done ++ edits) qs)
    (supply : Supply) :
    (∃ new rest, applyInTurn s edits supply = .ok (new, rest) ∧
        Underway root (done ++ edits) qs new) ∨
      ∃ pre e post now rest f, edits = pre ++ e :: post ∧
        applyInTurn s pre supply = .ok (now, rest) ∧ Spills root (done ++ pre) e now f ∧
        applyInTurn s edits supply = .error f := by
  induction edits generalizing s done supply with
  | nil => exact .inl ⟨s, supply, rfl, (List.append_nil done).symm ▸ h⟩
  | cons e es ih =>
      rw [List.append_cons] at hready
      have hfirst : Ready root (done ++ [e]) qs := hready.sublist (List.sublist_append_left _ es)
      rcases h.step hfirst supply with ⟨new, rest, he, hnew⟩ | ⟨f, he, hspills⟩
      · have hrun : ∀ xs, applyInTurn s (e :: xs) supply = applyInTurn new xs rest := by
          intro xs
          rw [applyInTurn, he]
          rfl
        rcases ih hnew hready rest with
          ⟨last, rest', hes, hlast⟩ | ⟨pre, x, post, now, rest', f, rfl, hpre, hspills, hes⟩
        · rw [List.append_cons]
          exact .inl ⟨last, rest', (hrun es).trans hes, hlast⟩
        · rw [← List.append_cons] at hspills
          exact .inr ⟨e :: pre, x, post, now, rest', f, rfl, (hrun pre).trans hpre, hspills,
            (hrun _).trans hes⟩
      · refine .inr ⟨[], e, es, s, supply, f, rfl, rfl, ?_, ?_⟩
        · rwa [List.append_nil]
        · rw [applyInTurn, he]
          rfl

theorem underway (hu : u.Reached) (hqs : Confined qs u) : Underway u.root [] qs u :=
  ⟨hu, hqs, .refl hu.root_wellFormed, (Int.add_zero _).symm⟩

theorem exists_apply_of_ready (hu : u.Reached) (hqs : Confined qs u)
    (hready : Ready u.root edits qs) (hfits : u.root.width + growth u.root edits ≤ maxSize)
    (supply : Supply) : ∃ new rest, Nav.answer (apply edits supply) u = .ok (new, rest) := by
  have hout := hqs.completed hu.root_isNode hready.stands hready.apart hready.leads
    hready.wellFormed supply
  cases hrun : Nav.answer (apply edits supply) u with
  | ok r => exact ⟨r.1, r.2, rfl⟩
  | error f =>
      rw [hrun] at hout
      cases hout with
      | rootToken he hroot hnode => exact nomatch hnode.symm.trans (hready.roots _ he hroot)
      | tooWide _ _ _ hwide => omega

theorem spillsOnTheWay (hu : u.Reached) (hqs : Confined qs u) (hready : Ready u.root edits qs)
    (hfits : u.root.width + growth u.root edits ≤ maxSize) {f : Failure}
    (h : applyInTurn u edits supply = .error f) : SpillsOnTheWay u edits supply f := by
  rcases (underway hu hqs).run hready supply with
    ⟨new, rest, hok, -⟩ | ⟨pre, e, post, now, rest, f', rfl, hpre, hspills, herror⟩
  · exact nomatch h.symm.trans hok
  · cases h.symm.trans herror
    refine ⟨pre, e, post, now, rest, rfl, ?_, hpre, hspills⟩
    rintro rfl
    have hwide := hspills.tooWide
    rw [List.nil_append] at hwide
    omega

structure Reordered (edits others : List Edit) (new u : Session) (supply : Supply) : Prop where
  batch : ∃ new' rest, Nav.answer (apply others supply) u = .ok (new', rest) ∧
    Agrees edits new.root new'.root
  inTurn : ∀ new' rest, applyInTurn u others supply = .ok (new', rest) →
    Agrees edits new.root new'.root
  failing : ∀ f, applyInTurn u others supply = .error f → SpillsOnTheWay u others supply f

theorem reordered_of_ready (hu : u.Reached) (hqs : Confined qs u) (hready : Ready u.root edits qs)
    (hfits : u.root.width + growth u.root edits ≤ maxSize)
    (hnew : Edited u.root edits new.root) (hp : others.Perm edits) (supply : Supply) :
    Reordered edits others new u supply := by
  have hothers := hready.perm hp
  rw [← growth_perm hp] at hfits
  refine ⟨?_, ?_, ?_⟩
  · obtain ⟨new', rest, h⟩ := exists_apply_of_ready hu hqs hothers hfits supply
    have hedited := edited_of_apply hu hothers.wellFormed h
    exact ⟨new', rest, h, hnew.agrees (hedited.perm hp.symm)⟩
  · intro new' rest h
    rcases (underway hu hqs).run hothers supply with
      ⟨new'', rest', hok, hlast⟩ | ⟨pre, e, post, now, rest', f, -, -, -, herror⟩
    · cases h.symm.trans hok
      exact hnew.agrees (hlast.edited.perm hp.symm)
    · exact nomatch h.symm.trans herror
  · intro f h
    exact spillsOnTheWay hu hqs hothers hfits h

theorem apply_in_any_order (hs : s.Reached) :
    (∀ edits others supply new rest, (∀ e ∈ edits, e.replacement.WellFormed) →
        Nav.answer (apply edits supply) s = .ok (new, rest) → others.Perm edits →
        ∀ u, u = s ∨ u = Nav.after (apply edits supply) s →
          ∀ supply', Reordered edits others new u supply') ∧
      ∀ path replacement supply, Nav.answer (apply [.atPath path replacement] supply) s =
        Nav.answer (replaceUpward path replacement supply) s := by
  refine ⟨?_, answer_apply_atPath hs⟩
  intro edits others supply new rest hr h hp u hu supply'
  have hready := ready_of_apply hs hr h
  have hnew := edited_of_apply hs hr h
  obtain ⟨hst, -⟩ := explored_of_apply hs h
  have ht := hs.after (Nav.Moving.apply edits supply)
  have hfits : s.root.width + growth s.root edits ≤ maxSize := by
    cases completed_of_apply hs hr h with
    | accepted hwf _ hwidth _ _ =>
        have := hwf.width_le
        omega
  rcases hu with rfl | rfl
  · exact reordered_of_ready hs (.of_later hs hst ht.size_le) hready hfits hnew hp supply'
  · rw [← hst.grown.root] at hready hnew hfits
    exact reordered_of_ready ht (.of_later ht (.refl hst.coherent) ht.size_le) hready hfits hnew hp
      supply'

end Session

namespace Sample

theorem edits_wellFormed : ∀ e ∈ edits, e.replacement.WellFormed := by
  intro e he
  simp only [edits, List.mem_cons, List.not_mem_nil, or_false] at he
  rcases he with rfl | rfl <;> exact token_wellFormed _ _ (by decide)

theorem edits_reordered : session.Reached ∧ ∃ new rest,
    Nav.answer (Session.apply edits ⟨10⟩) session = .ok (new, rest) ∧
      Session.Reordered edits edits.reverse new session ⟨20⟩ := by
  refine ⟨session_reached, ?_⟩
  cases h : Nav.answer (Session.apply edits ⟨10⟩) session with
  | error e => exact absurd edits_accepted (by rw [h]; exact Bool.false_ne_true)
  | ok r =>
      exact ⟨r.1, r.2, rfl, (Session.apply_in_any_order session_reached).1 edits edits.reverse
        ⟨10⟩ r.1 r.2 edits_wellFormed h edits.reverse_perm session (.inl rfl) ⟨20⟩⟩

end Sample

end LosslessSyntax
