import LosslessSyntax.Proofs.Edit.Room
import LosslessSyntax.Proofs.Text.Splice
import Mathlib.Data.List.Pairwise

namespace LosslessSyntax

namespace Session

def Shows (s : Session) (q : Path) (m : Green) (r : TextRange) : Prop :=
  ∃ id t p, resolve q s = .ok id t ∧ t.placements[id]? = some p ∧ p.green = m ∧
    p.textRange = .ok r

variable {s : Session} {q : Path} {m : Green} {r : TextRange}

theorem exists_resolve (hs : s.Reached) (hroom : s.root.size + s.strays ≤ Arena.capacity)
    (hm : s.root.descend? q.indices = some m) :
    ∃ id t, resolve q s = .ok id t ∧ Explored s t ∧ t.At q.indices id := by
  have hqs : ∀ r, r <+: q.indices → r ∈ s.root.paths := fun r => Green.mem_paths_of_prefix hm
  obtain ⟨id, t, ht, hst, -, hat⟩ := (Confined.of_fits hs hroom).resolve hm hqs
  exact ⟨id, t, ht, hst, hat⟩

theorem shows_of_descend? (hs : s.Reached) (hroom : s.root.size + s.strays ≤ Arena.capacity)
    (hm : s.root.descend? q.indices = some m) : s.Shows q m (s.root.rangeAt q.indices) := by
  obtain ⟨id, t, ht, hst, hat⟩ := exists_resolve hs hroom hm
  have hroot := hst.grown.root
  have hid := holds_of_at hst.coherent (hroot ▸ hs.root_wellFormed) hat (hroot ▸ hm)
  rw [hroot] at hid
  obtain ⟨p, hp, hg, hrange⟩ := Edit.textRange_of_holds hs.root_wellFormed hm hid
  exact ⟨id, t, p, ht, hp, hg, hrange⟩

theorem Shows.position (hs : s.Reached) (h : s.Shows q m r) :
    s.root.descend? q.indices = some m ∧ r = s.root.rangeAt q.indices := by
  obtain ⟨id, t, p, ht, hp, rfl, hr⟩ := h
  rcases resolve_spec hs q with
    ⟨n, id', t', hn, ht', -, hid⟩ | ⟨k, t', -, -, -, -, ht'⟩ | ⟨t', -, ht'⟩
  · rw [ht, EStateM.Result.ok.injEq] at ht'
    obtain ⟨rfl, rfl⟩ := ht'
    obtain ⟨p', hp', rfl, hrange⟩ := Edit.textRange_of_holds hs.root_wellFormed hn hid
    obtain rfl := Option.some.inj (hp.symm.trans hp')
    exact ⟨hn, Except.ok.inj (hr.symm.trans hrange)⟩
  · exact nomatch ht.symm.trans ht'
  · exact nomatch ht.symm.trans ht'

theorem shows_of_ofRoot {g : Green} {supply rest : Supply} (hg : g.WellFormed)
    (hn : g.isNode = true) (ho : ofRoot g supply = .ok (s, rest))
    (hsize : g.size < Arena.capacity) (hm : g.descend? q.indices = some m) :
    s.Shows q m (g.rangeAt q.indices) := by
  have hs : s.Reached := .opened hg hn ho
  have hstrays := strays_of_ofRoot ho
  obtain ⟨-, rfl⟩ := coherent_of_ofRoot ho
  exact shows_of_descend? hs (by rw [hstrays]; exact Nat.le_of_lt hsize) hm

end Session

namespace Edit

section Cuts

variable {α : Type} {root m : Green} {edits : List Edit} {q : List Nat} {fill : Edit → List α}
  {text : List α}

def cut (root : Green) (fill : Edit → List α) (e : Edit) : Cut α :=
  (root.rangeAt e.path.indices, fill e)

def spliceText (root : Green) (edits : List Edit) (fill : Edit → List α) (text : List α) :
    List α :=
  Cut.splice 0 ((sorted edits).map (cut root fill)) text

theorem sum_gain_cuts {es : List Edit} (hfill : ∀ e ∈ es, (fill e).length = e.replacement.width) :
    ((es.map (cut root fill)).map Cut.gain).sum = growth root es := by
  rw [List.map_map, growth]
  refine congrArg List.sum (List.map_congr_left ?_)
  intro e he
  rw [Function.comp_apply, Cut.gain, cut, Green.rangeAt_length, hfill e he]
  rfl

instance : Std.Symm Apart := ⟨fun _ _ h => h.symm⟩

theorem eq_of_leads (hapart : edits.Pairwise Apart) {e f : Edit} (he : e ∈ edits)
    (hf : f ∈ edits) (hp : e.path.indices <+: f.path.indices) : e = f :=
  Classical.byContradiction fun hne => (hapart.forall he hf hne).1 hp

theorem sorted_eq_append (edits : List Edit) (q : List Nat) :
    sorted edits = (sorted edits).filter (fun e => e.path.indices < q) ++
      (sorted edits).filter (fun e => ¬ e.path.indices < q) := by
  have hsorted := sorted_pairwise edits
  generalize sorted edits = es at hsorted
  induction es with
  | nil => rfl
  | cons e es ih =>
      obtain ⟨hle, hsorted⟩ := List.pairwise_cons.mp hsorted
      by_cases h : e.path.indices < q
      · rw [List.filter_cons_of_pos (by simpa using h), List.filter_cons_of_neg (by simpa using h),
          List.cons_append, ← ih hsorted]
      · have hrest : ∀ f ∈ es, ¬ f.path.indices < q := by
          intro f hf hlt
          exact h (lt_of_le_of_lt (α := List Nat) (hle f hf) hlt)
        have hnone : es.filter (fun e => e.path.indices < q) = [] :=
          List.filter_eq_nil_iff.mpr fun f hf => by simpa using hrest f hf
        have hall : es.filter (fun e => ¬ e.path.indices < q) = es :=
          List.filter_eq_self.mpr fun f hf => by simpa using hrest f hf
        rw [List.filter_cons_of_neg (by simpa using h), List.filter_cons_of_pos (by simpa using h),
          hnone, hall, List.nil_append]

theorem filter_not_before (hapart : edits.Pairwise Apart) {e : Edit} (he : e ∈ edits) :
    ∃ es, (sorted edits).filter (fun f => ¬ f.path.indices < e.path.indices) = e :: es := by
  have hmem : e ∈ (sorted edits).filter fun f => ¬ f.path.indices < e.path.indices :=
    List.mem_filter.mpr ⟨(sorted_perm edits).mem_iff.mpr he, by simp⟩
  have hsorted := (sorted_pairwise edits).sublist
    (List.filter_sublist (p := fun f : Edit => ¬ f.path.indices < e.path.indices))
  cases hes : (sorted edits).filter fun f => ¬ f.path.indices < e.path.indices with
  | nil => exact absurd (hes ▸ hmem) List.not_mem_nil
  | cons f es =>
      have hf : f ∈ (sorted edits).filter fun f => ¬ f.path.indices < e.path.indices :=
        hes ▸ List.mem_cons_self
      obtain ⟨hf, hnot⟩ := List.mem_filter.mp hf
      have hnot : ¬ f.path.indices < e.path.indices := by simpa using hnot
      rw [hes] at hmem hsorted
      have hfe : f.path.indices = e.path.indices := by
        rcases List.mem_cons.mp hmem with rfl | htail
        · rfl
        · exact le_antisymm (α := List Nat) ((List.pairwise_cons.mp hsorted).1 e htail)
            (not_lt.mp hnot)
      obtain rfl := eq_of_leads hapart ((sorted_perm edits).mem_iff.mp hf) he
        (hfe ▸ List.prefix_rfl)
      exact ⟨es, rfl⟩

theorem growthBefore_eq (root : Green)
    (hfill : ∀ e ∈ edits, (fill e).length = e.replacement.width) (q : List Nat) :
    growthBefore root edits q =
      ((((sorted edits).filter fun e => e.path.indices < q).map (cut root fill)).map
        Cut.gain).sum := by
  rw [sum_gain_cuts]
  · exact growth_perm ((sorted_perm edits).symm.filter _)
  · exact fun e he => hfill e ((sorted_perm edits).mem_iff.mp (List.mem_of_mem_filter he))

variable (hroot : root.WellFormed) (hleads : ∀ e ∈ edits, (root.descend? e.path.indices).isSome)
  (hapart : edits.Pairwise Apart)

include hroot hleads

theorem rangeAt_stop_le {e : Edit} (he : e ∈ edits) :
    (root.rangeAt e.path.indices).stop ≤ root.width := by
  obtain ⟨g, hg⟩ := Option.isSome_iff_exists.mp (hleads e he)
  have hle := Green.offsetAt_add_width_le hroot hg
  rw [← Green.widthAt_eq hg] at hle
  exact hle

theorem rangeAt_stop_le_offsetAt {e : Edit} (he : e ∈ edits) (hq : root.descend? q = some m)
    (hlt : e.path.indices < q) (hp : ¬ e.path.indices <+: q) :
    (root.rangeAt e.path.indices).stop ≤ root.offsetAt q := by
  obtain ⟨g, hg⟩ := Option.isSome_iff_exists.mp (hleads e he)
  have hle := Green.offsetAt_add_width_le_offsetAt hroot hg hq hlt hp
  rw [← Green.widthAt_eq hg] at hle
  exact hle

include hapart

variable (fill) in
theorem pairwise_cuts : ((sorted edits).map (cut root fill)).Pairwise
    fun x y => x.1.stop ≤ y.1.start := by
  have hapart := ((sorted_perm edits).pairwise_iff Apart.symm).mpr hapart
  refine List.pairwise_map.mpr ((hapart.and (sorted_pairwise edits)).imp_of_mem ?_)
  rintro e f he hf ⟨hef, hle⟩
  obtain ⟨g, hg⟩ := Option.isSome_iff_exists.mp
    (hleads f ((sorted_perm edits).mem_iff.mp hf))
  have hne : e.path.indices ≠ f.path.indices := fun h => hef.1 (h ▸ List.prefix_rfl)
  exact rangeAt_stop_le_offsetAt hroot hleads ((sorted_perm edits).mem_iff.mp he) hg
    (lt_of_le_of_ne (α := List Nat) hle hne) hef.1

variable (fill) in
theorem laid_before (hq : root.descend? q = some m)
    (hno : ∀ e ∈ edits, e.path.indices <+: q → e.path.indices = q) :
    Cut.Laid (root.offsetAt q) 0
      (((sorted edits).filter fun e => e.path.indices < q).map (cut root fill)) := by
  have hpairs := pairwise_cuts fill hroot hleads hapart
  have hsub := (List.filter_sublist (p := fun e : Edit => e.path.indices < q)
    (l := sorted edits)).map (cut root fill)
  refine Cut.laid_of_pairwise (hpairs.sublist hsub) (fun _ _ => Nat.zero_le _) ?_ (Nat.zero_le _)
  intro x hx
  obtain ⟨e, he, rfl⟩ := List.mem_map.mp hx
  obtain ⟨he, hlt⟩ := List.mem_filter.mp he
  have he := (sorted_perm edits).mem_iff.mp he
  have hlt := of_decide_eq_true hlt
  exact rangeAt_stop_le_offsetAt hroot hleads he hq hlt
    fun hp => absurd (hno e he hp) (ne_of_lt hlt)

variable (fill) in
theorem laid_after (htext : text.length = root.width) {cursor : Nat}
    {es : List Edit} (hsub : es.Sublist (sorted edits)) (hle : cursor ≤ root.width)
    (hes : ∀ e ∈ es, cursor ≤ root.offsetAt e.path.indices) :
    Cut.Laid text.length cursor (es.map (cut root fill)) := by
  have hpairs := pairwise_cuts fill hroot hleads hapart
  refine Cut.laid_of_pairwise (hpairs.sublist (hsub.map _)) ?_ ?_ (htext ▸ hle)
  · intro x hx
    obtain ⟨e, he, rfl⟩ := List.mem_map.mp hx
    exact hes e he
  · intro x hx
    obtain ⟨e, he, rfl⟩ := List.mem_map.mp hx
    rw [htext]
    exact rangeAt_stop_le hroot hleads ((sorted_perm edits).mem_iff.mp (hsub.subset he))

variable (htext : text.length = root.width)
  (hfill : ∀ e ∈ edits, (fill e).length = e.replacement.width)

include htext hfill

theorem length_spliceText :
    ((spliceText root edits fill text).length : Int) = root.width + growth root edits := by
  have hlaid := laid_after fill hroot hleads hapart htext (List.Sublist.refl _)
    (Nat.zero_le _) fun _ _ => Nat.zero_le _
  have hgain : (((sorted edits).map (cut root fill)).map Cut.gain).sum =
      growth root (sorted edits) :=
    sum_gain_cuts fun e he => hfill e ((sorted_perm edits).mem_iff.mp he)
  rw [spliceText, Cut.length_splice hlaid, hgain, growth_perm (sorted_perm edits), htext]
  omega

theorem of_spliceText (hq : root.descend? q = some m)
    (hqs : ∀ e ∈ edits, Path.Apart e.path.indices q) {r : TextRange}
    (hstart : (r.start : Int) = root.offsetAt q + growthBefore root edits q)
    (hlength : r.length = root.widthAt q) :
    r.of (spliceText root edits fill text) = (root.rangeAt q).of text := by
  have hbefore := laid_before fill hroot hleads hapart hq
    fun e he hp => absurd hp (hqs e he).1
  have hwidth := Green.widthAt_eq hq
  have hafter : Cut.Laid text.length (root.rangeAt q).stop
      (((sorted edits).filter fun e => ¬ e.path.indices < q).map (cut root fill)) := by
    refine laid_after fill hroot hleads hapart htext List.filter_sublist ?_ ?_
    · have hle := Green.offsetAt_add_width_le hroot hq
      rw [← hwidth] at hle
      exact hle
    · intro e he
      obtain ⟨he, hnot⟩ := List.mem_filter.mp he
      have he := (sorted_perm edits).mem_iff.mp he
      obtain ⟨g, hg⟩ := Option.isSome_iff_exists.mp (hleads e he)
      have hnot : ¬ e.path.indices < q := by simpa using hnot
      have hne : q ≠ e.path.indices := fun h => (hqs e he).2 (h ▸ List.prefix_rfl)
      have hle := Green.offsetAt_add_width_le_offsetAt hroot hq hg
        (lt_of_le_of_ne (α := List Nat) (not_lt.mp hnot) hne) (hqs e he).2
      rw [← hwidth] at hle
      exact hle
  rw [growthBefore_eq root hfill] at hstart
  rw [spliceText, sorted_eq_append edits q, List.map_append]
  exact Cut.of_splice_between hbefore hafter hstart (by rw [hlength, Green.rangeAt_length])

theorem of_spliceText_fill {e : Edit} (he : e ∈ edits) {r : TextRange}
    (hstart : (r.start : Int) = root.offsetAt e.path.indices +
      growthBefore root edits e.path.indices)
    (hlength : r.length = e.replacement.width) :
    r.of (spliceText root edits fill text) = fill e := by
  obtain ⟨g, hg⟩ := Option.isSome_iff_exists.mp (hleads e he)
  obtain ⟨es, hes⟩ := filter_not_before hapart he
  have hbefore := laid_before fill hroot hleads hapart hg fun f hf hp => by
    rw [eq_of_leads hapart hf he hp]
  have hsub : (e :: es).Sublist (sorted edits) := hes ▸ List.filter_sublist
  have hpairs := pairwise_cuts fill hroot hleads hapart
  have hnext := (List.pairwise_cons.mp (hpairs.sublist (hsub.map (cut root fill)))).1
  have hafter := laid_after fill hroot hleads hapart htext
    ((List.sublist_cons_self e es).trans hsub) (rangeAt_stop_le hroot hleads he)
    fun f hf => hnext _ (List.mem_map_of_mem hf)
  rw [growthBefore_eq root hfill] at hstart
  rw [spliceText, sorted_eq_append edits e.path.indices, hes, List.map_append, List.map_cons]
  exact Cut.of_splice_fill hbefore hafter hstart (by rw [hlength, hfill e he])

end Cuts

end Edit

structure TextSpliced {α : Type} (old : Session) (edits : List Edit) (fill : Edit → List α)
    (text : List α) (new : Session) (text' : List α) : Prop where
  length : text'.length = new.root.width
  shown : ∀ q m r, old.Shows q m r →
    old.root.descend? q.indices = some m ∧ r = old.root.rangeAt q.indices
  replaced : ∀ e ∈ edits, ∃ r, new.Shows e.path e.replacement r ∧ r.of text' = fill e
  kept : ∀ (q : Path) m, old.root.descend? q.indices = some m →
    (∀ e ∈ edits, Path.Apart e.path.indices q.indices) →
    ∃ r, new.Shows q m r ∧ r.of text' = (old.root.rangeAt q.indices).of text ∧
      (r.start : Int) =
        (old.root.rangeAt q.indices).start + Edit.growthBefore old.root edits q.indices
  above : ∀ (q : Path) m, old.root.descend? q.indices = some m → Edit.Above edits q.indices →
    ∃ m' r, new.Shows q m' r ∧
      (r.start : Int) =
        (old.root.rangeAt q.indices).start + Edit.growthBefore old.root edits q.indices ∧
      (r.length : Int) =
        (old.root.rangeAt q.indices).length + Edit.growthWithin old.root edits q.indices

namespace Session

theorem position_of_apply {s new : Session} {edits : List Edit} {supply rest : Supply}
    (hs : s.Reached) (hr : ∀ e ∈ edits, e.replacement.WellFormed)
    (h : Nav.answer (apply edits supply) s = .ok (new, rest)) {q : List Nat} {m : Green}
    (hq : s.root.descend? q = some m)
    (hno : ∀ e ∈ edits, e.path.indices <+: q → e.path.indices = q) :
    (new.root.offsetAt q : Int) = s.root.offsetAt q + Edit.growthBefore s.root edits q ∧
      ∃ m', new.root.descend? q = some m' ∧
        (m'.width : Int) = m.width + Edit.growthWithin s.root edits q := by
  obtain ⟨-, hsettled, next, hrenew, -⟩ := renew_of_apply hs h
  have hnone : ∀ x ∈ Edit.splices edits, x.1 <+: q → x.1 = q := by
    intro x hx hp
    obtain ⟨e, he, rfl⟩ := Edit.mem_splices_iff.mp hx
    exact hno e he hp
  have hposition := Splice.position_of_renew hs.root_wellFormed hsettled
    (Edit.forall_splices_replacement hr) hrenew hq hnone
  rw [Edit.growthBefore_splices, Edit.growthWithin_splices] at hposition
  exact hposition

theorem apply_splices_text {α : Type} {s new : Session} {edits : List Edit}
    {supply rest : Supply} {fill : Edit → List α} {text : List α} (hs : s.Reached)
    (hr : ∀ e ∈ edits, e.replacement.WellFormed)
    (h : Nav.answer (apply edits supply) s = .ok (new, rest))
    (hsize : new.root.size < Arena.capacity) (htext : text.length = s.root.width)
    (hfill : ∀ e ∈ edits, (fill e).length = e.replacement.width) :
    TextSpliced s edits fill text new (Edit.spliceText s.root edits fill text) := by
  have hroot := hs.root_wellFormed
  have hsubstitution := substitution_of_apply hs h
  obtain ⟨hapart, hsettled, next, hrenew, ho⟩ := renew_of_apply hs h
  have hleads : ∀ e ∈ edits, (s.root.descend? e.path.indices).isSome := by
    intro e he
    exact hsettled.leads (Edit.splice_mem_splices he)
  have hposition := fun {q : List Nat} {m : Green} => position_of_apply (q := q) (m := m) hs hr h
  obtain ⟨hnew, hnode, hwidth⟩ : new.root.WellFormed ∧ new.root.isNode = true ∧
      (new.root.width : Int) = s.root.width + Edit.growth s.root edits := by
    cases completed_of_apply hs hr h with
    | accepted hwf hn hwidth hroots ho =>
        obtain ⟨-, rfl⟩ := coherent_of_ofRoot ho
        exact ⟨hwf, hn, hwidth⟩
  have hshows := fun {q : Path} {m : Green} =>
    shows_of_ofRoot (q := q) (m := m) hnew hnode ho hsize
  refine ⟨?_, fun q m r hr => hr.position hs, ?_, ?_, ?_⟩
  · have hlength := Edit.length_spliceText hroot hleads hapart htext hfill
    omega
  · intro e he
    obtain ⟨g, hg⟩ := Option.isSome_iff_exists.mp (hleads e he)
    have hfound : new.root.descend? e.path.indices = some e.replacement := by
      have hreplaced := hsubstitution.replaced e he []
      rwa [List.append_nil, Green.descend?_nil] at hreplaced
    have hstart := (hposition hg fun f hf hp => by rw [Edit.eq_of_leads hapart hf he hp]).1
    refine ⟨_, hshows hfound, ?_⟩
    exact Edit.of_spliceText_fill hroot hleads hapart htext hfill he hstart
      (by rw [Green.rangeAt_length, Green.widthAt_eq hfound])
  · intro q m hq hqs
    have hfound : new.root.descend? q.indices = some m := (hsubstitution.shared _ hqs).trans hq
    have hstart := (hposition hq fun e he hp => absurd hp (hqs e he).1).1
    refine ⟨_, hshows hfound, ?_, hstart⟩
    exact Edit.of_spliceText hroot hleads hapart htext hfill hq hqs hstart
      (by rw [Green.rangeAt_length, Green.widthAt_eq hfound, Green.widthAt_eq hq])
  · rintro q m hq ⟨e, he, hqe, hne⟩
    have hno : ∀ f ∈ edits, f.path.indices <+: q.indices → f.path.indices = q.indices := by
      intro f hf hp
      obtain rfl := Edit.eq_of_leads hapart hf he (hp.trans hqe)
      exact absurd (List.IsPrefix.eq_of_length_le hqe hp.length_le) hne
    obtain ⟨hstart, m', hm', hgrown⟩ := hposition hq hno
    refine ⟨m', _, hshows hm', hstart, ?_⟩
    rw [Green.rangeAt_length, Green.rangeAt_length, Green.widthAt_eq hm', Green.widthAt_eq hq]
    exact hgrown

end Session

namespace Sample

def source : List Char := ['x', '=', '1', '2', ';']

def fill (e : Edit) : List Char := if e.path = ⟨[0, 0]⟩ then ['y'] else ['3', '4', '5']

theorem edits_fit : ((Nav.answer (Session.apply edits ⟨10⟩) session).toOption.any
    fun r => decide (r.1.root.size < Arena.capacity)) = true := by
  decide +kernel

theorem source_spliced : session.Reached ∧ (∀ e ∈ edits, e.replacement.WellFormed) ∧
    ∃ new rest, Nav.answer (Session.apply edits ⟨10⟩) session = .ok (new, rest) ∧
      new.root.size < Arena.capacity ∧ source.length = assignment.width ∧
      (∀ e ∈ edits, (fill e).length = e.replacement.width) ∧
      TextSpliced session edits fill source new (Edit.spliceText assignment edits fill source) := by
  have hwf : ∀ e ∈ edits, e.replacement.WellFormed := by
    intro e he
    simp only [edits, List.mem_cons, List.not_mem_nil, or_false] at he
    rcases he with rfl | rfl <;> exact token_wellFormed _ _ (by decide)
  have hfill : ∀ e ∈ edits, (fill e).length = e.replacement.width := by
    intro e he
    simp only [edits, List.mem_cons, List.not_mem_nil, or_false] at he
    rcases he with rfl | rfl <;> decide
  have hfit := edits_fit
  refine ⟨session_reached, hwf, ?_⟩
  cases h : Nav.answer (Session.apply edits ⟨10⟩) session with
  | error e =>
      rw [h] at hfit
      exact nomatch hfit
  | ok r =>
      rw [h] at hfit
      have hsize : r.1.root.size < Arena.capacity := of_decide_eq_true hfit
      exact ⟨r.1, r.2, rfl, hsize, rfl, hfill,
        Session.apply_splices_text session_reached hwf h hsize rfl hfill⟩

end Sample

end LosslessSyntax
