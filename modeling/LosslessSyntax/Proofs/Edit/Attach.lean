import LosslessSyntax.Proofs.Edit.Annotate

namespace LosslessSyntax

namespace Green

variable {a b : Green}

structure Resembles (a b : Green) : Prop where
  kind : b.kind = a.kind
  isNode : b.isNode = a.isNode
  width : b.width = a.width
  isMissing : b.isMissing = a.isMissing
  containsMissing : b.containsMissing = a.containsMissing
  length : b.children.length = a.children.length

theorem Congruent.resembles (ha : a.WellFormed) (hb : b.WellFormed) (h : a.Congruent b) :
    a.Resembles b :=
  ⟨h.sameForm.kind_eq, h.sameForm.isNode_eq, h.width_eq ha hb, h.sameForm.isMissing_eq,
    h.containsMissing_eq ha hb, h.sameForm.length_eq⟩

end Green

structure Edit.Swaps (f : Edit) (p : Path) (e e' : Green) : Prop where
  path : f.path = p
  expected : ∀ x, f.expected = some x → e.same x = true
  replacement : f.replacement = e'

theorem Edit.swaps_atPath (p : Path) (e e' : Green) : (Edit.atPath p e').Swaps p e e' :=
  ⟨rfl, fun _ h => (nomatch h), rfl⟩

namespace Session

variable {s t new last : Session} {p : Path} {e e' m : Green} {f : Edit}
  {ds es : List Diagnostic} {supply rest : Supply}

theorem trimmedRange_answers (hs : s.Reached) (hroom : s.root.size + s.strays ≤ Arena.capacity)
    {q : Path} (hm : s.root.descend? q.indices = some m) :
    s.Answers (resolve q >>= trimmedRange) (s.root.trimmedAt (q.indices, m)) := by
  obtain ⟨id, t, ht, hst, hat⟩ := exists_resolve hs hroom hm
  have hroot : t.root = s.root := hst.grown.root
  have hfree : ¬ t.Crowded := fun hfull => Nat.not_lt.mpr hroom (hst.crowded_iff.mp hfull)
  obtain ⟨range, u, hu, htu, hrange⟩ :=
    (yields_trimmedRange (hs.grounded.explored hst) hat (hroot.symm ▸ hm)).ok hfree
  rw [hroot] at hrange
  exact ⟨u, (Nav.bind_ok ht).trans (hrange ▸ hu), hst.trans htu⟩

structure Noted (s : Session) (p : Path) (e : Green) (ds : List Diagnostic) (new : Session) :
    Prop where
  shown : ∀ (q : Path) m, s.root.descend? q.indices = some m →
    s.Shows q m (s.root.rangeAt q.indices) ∧
      ∃ m', new.Shows q m' (s.root.rangeAt q.indices) ∧ m.Resembles m' ∧
        m'.diagnostics = m.diagnostics ++ if q.indices = p.indices then ds else []
  absent : ∀ (q : Path) m' r, new.Shows q m' r → (s.root.descend? q.indices).isSome
  trimmed : ∀ (q : Path) m, s.root.descend? q.indices = some m →
    s.Answers (resolve q >>= trimmedRange) (s.root.trimmedAt (q.indices, m)) ∧
      new.Answers (resolve q >>= trimmedRange) (s.root.trimmedAt (q.indices, m))
  located : ∃ xs ys, s.root.listing [] = xs ++ (p.indices, e) :: ys ∧
    s.Answers (diagnostics rootId) (s.root.collected xs ++
      (s.root.locatedAt (p.indices, e) ++ s.root.collected ys)) ∧
    new.Answers (diagnostics rootId) (s.root.collected xs ++
      (s.root.locatedAt (p.indices, e) ++
        (ds.map fun d => ⟨s.root.trimmedAt (p.indices, e), d⟩) ++ s.root.collected ys))

structure Continues (s : Session) (p : Path) (ds : List Diagnostic) (new : Session) : Prop where
  reached : new.Reached
  room : new.root.size + new.strays ≤ Arena.capacity
  annotated : Edit.Annotated s.root p.indices ds new.root

namespace Continues

theorem refl (hs : s.Reached) (hroom : s.root.size + s.strays ≤ Arena.capacity) (p : Path) :
    s.Continues p [] s :=
  ⟨hs, hroom, .refl hs.root_wellFormed _⟩

theorem trans (h : s.Continues p ds t) (h' : t.Continues p es new) :
    s.Continues p (ds ++ es) new :=
  ⟨h'.reached, h'.room, h.annotated.trans h'.annotated⟩

theorem noted (hs : s.Reached) (hroom : s.root.size + s.strays ≤ Arena.capacity)
    (he : s.root.descend? p.indices = some e) (h : s.Continues p ds new) : s.Noted p e ds new := by
  have hroot := hs.root_wellFormed
  have hwf := h.annotated.wellFormed
  have hforms := h.annotated.congruent
  refine ⟨?_, ?_, ?_, ?_⟩
  · intro q m hm
    obtain ⟨m', hm', -, hds⟩ := h.annotated.exists_noting hm
    have hbelow := hforms.descend hm hm'
    refine ⟨shows_of_descend? hs hroom hm, m', ?_,
      hbelow.resembles (hroot.of_descend? hm) (hwf.of_descend? hm'), hds⟩
    rw [← hforms.rangeAt_eq hroot hwf]
    exact shows_of_descend? h.reached h.room hm'
  · intro q m' r hshows
    rw [← hforms.isSome_eq, (hshows.position h.reached).1]
    rfl
  · intro q m hm
    obtain ⟨m', hm', -⟩ := h.annotated.exists_noting hm
    refine ⟨trimmedRange_answers hs hroom hm, ?_⟩
    rw [← hforms.trimmedAt_eq hroot hwf hm hm']
    exact trimmedRange_answers h.reached h.room hm'
  · have hmem : (p.indices, e) ∈ s.root.listing [] := Green.mem_listing_iff.mpr ⟨_, rfl, he⟩
    obtain ⟨xs, ys, hlisting⟩ := List.append_of_mem hmem
    refine ⟨xs, ys, hlisting, ?_, ?_⟩
    · have hold := diagnostics_root hs hroom
      rwa [hlisting, Green.collected_append] at hold
    · rw [← h.annotated.collected_eq hroot hlisting]
      exact diagnostics_root h.reached h.room

end Continues

section Step

variable (hs : s.Reached) (hroom : s.root.size + s.strays ≤ Arena.capacity)
  (he : s.root.descend? p.indices = some e) (hbears : e.Bears ds e') (hf : f.Swaps p e e')
include hs hroom he hbears hf

theorem continues_of_apply (h : Nav.answer (apply [f] supply) s = .ok (new, rest)) :
    s.Continues p ds new := by
  obtain ⟨rfl, -, rfl⟩ := hf
  have hr : ∀ x ∈ [f], x.replacement.WellFormed := List.forall_mem_singleton.mpr hbears.wellFormed
  have hannotated := (edited_of_apply hs hr h).annotated he hbears
  obtain ⟨hnew, hstrays⟩ := opened_of_apply hs hr h
  refine ⟨hnew, ?_, hannotated⟩
  rw [hstrays, hannotated.congruent.size_eq]
  exact Nat.le_trans (Nat.le_add_right _ _) hroom

theorem ready_of_swaps : Edit.Ready s.root [f] s.root.paths := by
  obtain ⟨rfl, hexpected, rfl⟩ := hf
  constructor
  case wellFormed => exact List.forall_mem_singleton.mpr hbears.wellFormed
  case stands => exact List.forall_mem_singleton.mpr ⟨e, he, hexpected⟩
  case apart => exact List.pairwise_singleton _ _
  case roots =>
    -- An element of the same form as the root is a node as well.
    refine List.forall_mem_singleton.mpr fun hp => ?_
    rw [Edit.isRoot_iff.mp hp, Green.descend?_nil] at he
    rw [hbears.sameForm.isNode_eq, ← Option.some.inj he]
    exact hs.root_isNode
  case leads => exact List.forall_mem_singleton.mpr fun r => Green.mem_paths_of_prefix he
  case nil_mem => exact Green.mem_paths_iff.mpr rfl
  case room =>
    rw [Green.length_paths]
    exact Nat.le_trans (Nat.le_add_right _ _) hroom

omit hroom in
theorem growth_of_swaps : Edit.growth s.root [f] = 0 := by
  obtain ⟨rfl, -, rfl⟩ := hf
  have hwidth := hbears.congruent.width_eq (hs.root_wellFormed.of_descend? he) hbears.wellFormed
  rw [Edit.growth, List.map_singleton, List.sum_singleton, Edit.gain, Splice.gain, Edit.splice,
    Green.widthAt_eq he, hwidth, Int.sub_self]

theorem exists_apply_of_swaps (supply : Supply) :
    ∃ new rest, Nav.answer (apply [f] supply) s = .ok (new, rest) ∧ s.Continues p ds new := by
  have hready := ready_of_swaps hs hroom he hbears hf
  have hfits : s.root.width + Edit.growth s.root [f] ≤ maxSize := by
    rw [growth_of_swaps hs he hbears hf, Int.add_zero]
    exact Int.ofNat_le.mpr hs.root_wellFormed.width_le
  obtain ⟨new, rest, h⟩ :=
    exists_apply_of_ready hs (Confined.of_fits hs hroom) hready hfits supply
  exact ⟨new, rest, h, continues_of_apply hs hroom he hbears hf h⟩

end Step

inductive AttachedInTurn (p : Path) : Session → List Diagnostic → Session → Prop
  | nil (s : Session) : AttachedInTurn p s [] s
  | cons {s next last : Session} {e e' : Green} {f : Edit} {d : Diagnostic} {ds : List Diagnostic}
      {supply supply' rest rest' : Supply} : s.root.descend? p.indices = some e →
      e.attach d supply = .ok (e', rest) → f.Swaps p e e' →
      Nav.answer (apply [f] supply') s = .ok (next, rest') → AttachedInTurn p next ds last →
      AttachedInTurn p s (d :: ds) last

theorem AttachedInTurn.continues (hs : s.Reached)
    (hroom : s.root.size + s.strays ≤ Arena.capacity) (h : AttachedInTurn p s ds last) :
    s.Continues p ds last := by
  induction h with
  | nil s => exact .refl hs hroom p
  | cons he hattach hf happly _ ih =>
      have hbears := Green.bears_of_attach (hs.root_wellFormed.of_descend? he) hattach
      have hstep := continues_of_apply hs hroom he hbears hf happly
      exact hstep.trans (ih hstep.reached hstep.room)

theorem exists_attachedInTurn (hs : s.Reached) (hroom : s.root.size + s.strays ≤ Arena.capacity)
    (he : s.root.descend? p.indices = some e) (ds : List Diagnostic) :
    ∃ last, AttachedInTurn p s ds last := by
  induction ds generalizing s e with
  | nil => exact ⟨s, .nil s⟩
  | cons d ds ih =>
      obtain ⟨e', hattach, hbears⟩ := Green.exists_attach (hs.root_wellFormed.of_descend? he) d ⟨0⟩
      have hf := Edit.swaps_atPath p e e'
      obtain ⟨next, rest, happly, hnext⟩ := exists_apply_of_swaps hs hroom he hbears hf ⟨0⟩
      obtain ⟨m, hm, -⟩ := hnext.annotated.exists_noting he
      obtain ⟨last, hlast⟩ := ih hnext.reached hnext.room hm
      exact ⟨last, .cons he hattach hf happly hlast⟩

/-- However the element made is put in the place of the old one, the edit is accepted, and changes
nothing but that these diagnostics are added. -/
def Lands (s : Session) (p : Path) (e : Green) (ds : List Diagnostic) (made : Mint Green) : Prop :=
  ∀ supply, ∃ e' rest, made supply = .ok (e', rest) ∧ ∀ f supply', f.Swaps p e e' →
    ∃ new rest', Nav.answer (apply [f] supply') s = .ok (new, rest') ∧ s.Noted p e ds new

theorem lands_of_bears {made : Mint Green} (hs : s.Reached)
    (hroom : s.root.size + s.strays ≤ Arena.capacity) (he : s.root.descend? p.indices = some e)
    (h : ∀ supply, ∃ e' rest, made supply = .ok (e', rest) ∧ e.Bears ds e') :
    s.Lands p e ds made := by
  intro supply
  obtain ⟨e', rest, hmade, hbears⟩ := h supply
  refine ⟨e', rest, hmade, fun f supply' hf => ?_⟩
  obtain ⟨new, rest', happly, hnew⟩ := exists_apply_of_swaps hs hroom he hbears hf supply'
  exact ⟨new, rest', happly, hnew.noted hs hroom he⟩

theorem Reached.attach_in_place (hs : s.Reached)
    (hroom : s.root.size + s.strays ≤ Arena.capacity) (he : s.root.descend? p.indices = some e) :
    (∀ d, s.Lands p e [d] (e.attach d)) ∧
      (∀ ds, s.Lands p e ds (e.attachAll ds)) ∧
      ∀ ds, (∃ last, AttachedInTurn p s ds last) ∧
        ∀ last, AttachedInTurn p s ds last → s.Noted p e ds last := by
  have hwf := hs.root_wellFormed.of_descend? he
  refine ⟨fun d => ?_, fun ds => ?_, fun ds => ?_⟩
  · refine lands_of_bears hs hroom he fun supply => ?_
    obtain ⟨e', hattach, hbears⟩ := Green.exists_attach hwf d supply
    exact ⟨e', _, hattach, hbears⟩
  · exact lands_of_bears hs hroom he (Green.exists_attachAll hwf ds)
  · refine ⟨exists_attachedInTurn hs hroom he ds, fun last h => ?_⟩
    exact (h.continues hs hroom).noted hs hroom he

end Session

namespace Sample

def vacant : Path := ⟨[1]⟩

theorem placeholder_annotated : lackingSession.Reached ∧
    lackingSession.root.size + lackingSession.strays ≤ Arena.capacity ∧
    lackingSession.root.descend? vacant.indices = some placeholder ∧
    lackingSession.Lands vacant placeholder [expected "a sign"]
      (placeholder.attach (expected "a sign")) ∧
    ∃ last, Session.AttachedInTurn vacant lackingSession
        [expected "a sign", expected "a value"] last ∧
      lackingSession.Noted vacant placeholder [expected "a sign", expected "a value"] last ∧
      last.Answers (Session.diagnostics Session.rootId)
        [⟨⟨1, 1, by decide⟩, expected "an equal sign"⟩, ⟨⟨1, 1, by decide⟩, expected "a sign"⟩,
          ⟨⟨1, 1, by decide⟩, expected "a value"⟩] := by
  have he : lackingSession.root.descend? vacant.indices = some placeholder := rfl
  obtain ⟨hattach, -, hturns⟩ := lackingSession_reached.attach_in_place lackingSession_room he
  obtain ⟨⟨last, hlast⟩, hnoted⟩ := hturns [expected "a sign", expected "a value"]
  have hlasting := hnoted last hlast
  obtain ⟨xs, ys, hlisting, -, hanswers⟩ := hlasting.located
  -- No other element carries anything.
  have htotal : lackingSession.root.collected (lackingSession.root.listing []) =
      lackingSession.root.locatedAt (vacant.indices, placeholder) := rfl
  rw [hlisting, Green.collected_append, Green.collected_cons] at htotal
  have hlength := congrArg List.length htotal
  simp only [List.length_append] at hlength
  have hxs : lackingSession.root.collected xs = [] := List.eq_nil_of_length_eq_zero (by omega)
  have hys : lackingSession.root.collected ys = [] := List.eq_nil_of_length_eq_zero (by omega)
  rw [hxs, hys] at hanswers
  exact ⟨lackingSession_reached, lackingSession_room, he, hattach _, last, hlast, hlasting, hanswers⟩

end Sample

end LosslessSyntax
