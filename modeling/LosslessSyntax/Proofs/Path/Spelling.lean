import LosslessSyntax.Path
import Mathlib.Data.List.Forall2

namespace LosslessSyntax

namespace Path

theorem segments_eq_splitOn (cs : List Char) : segments cs = cs.splitOn '.' := by
  induction cs with
  | nil => rfl
  | cons c cs ih =>
      rw [List.splitOn_eq_splitOnP] at ih
      rw [segments, ih, List.splitOn_eq_splitOnP, List.splitOnP_cons_eq_if_modifyHead]
      by_cases hc : c = '.'
      · rw [if_pos hc, if_pos (beq_iff_eq.mpr hc)]
      · rw [if_neg hc, if_neg (mt beq_iff_eq.mp hc)]
        cases hrest : cs.splitOnP (· == '.') with
        | nil => exact absurd hrest (List.splitOnP_ne_nil _ _)
        | cons s rest => rfl

theorem join_eq_intercalate (ss : List (List Char)) : join ss = ['.'].intercalate ss := by
  induction ss with
  | nil => rfl
  | cons s ss ih =>
      cases ss with
      | nil => simp [join]
      | cons t rest =>
          rw [join, ih, List.intercalate_cons_cons, List.append_assoc, List.singleton_append]

section Digits

variable {ds : List Char} {d : Char} {n : Nat}

def AreDigits (ds : List Char) : Prop := ∀ d ∈ ds, '0' ≤ d ∧ d ≤ '9'

theorem isDigit_iff : d.isDigit = true ↔ '0' ≤ d ∧ d ≤ '9' := by
  rw [Char.isDigit, Bool.and_eq_true, decide_eq_true_iff, decide_eq_true_iff]
  rfl

theorem forall_isDigit_iff : (∀ d ∈ ds, d.isDigit = true) ↔ AreDigits ds := by
  simp only [isDigit_iff, AreDigits]

theorem digitsValue_eq (ds : List Char) : digitsValue ds = Nat.ofDigitChars 10 ds 0 := by
  simp only [digitsValue, Nat.ofDigitChars, Nat.mul_comm]

theorem areDigits_digits (n : Nat) : AreDigits (digits n) := fun _ hd =>
  isDigit_iff.mp (Nat.isDigit_of_mem_toDigits (by decide) (by decide) hd)

theorem AreDigits.not_mem (h : AreDigits ds) (hd : d < '0') : d ∉ ds := fun hmem =>
  Char.not_le.mpr hd (h d hmem).1

theorem value_lt_ten (h : '0' ≤ d ∧ d ≤ '9') : d.toNat - '0'.toNat < 10 := by
  have hhigh : d.toNat ≤ '9'.toNat := h.2
  have hnine : '9'.toNat = '0'.toNat + 9 := rfl
  omega

theorem digitChar_value (h : '0' ≤ d ∧ d ≤ '9') : (d.toNat - '0'.toNat).digitChar = d := by
  have hlow : '0'.toNat ≤ d.toNat := h.1
  have hzero : '0'.toNat = 48 := rfl
  apply Char.toNat_inj.mp
  rw [Nat.toNat_digitChar_of_lt_ten (value_lt_ten h)]
  omega

def withoutZeros : List Char → List Char
  | '0' :: d :: ds => withoutZeros (d :: ds)
  | ds => ds

theorem digits_append (hds : AreDigits ds) (hn : 0 < n) :
    digits n ++ ds = digits (Nat.ofDigitChars 10 ds n) := by
  induction ds generalizing n with
  | nil => exact List.append_nil _
  | cons d ds ih =>
      obtain ⟨hd, hrest⟩ := List.forall_mem_cons.mp hds
      have hstep := Nat.toDigits_append_toDigits (b := 10) (by decide) hn (value_lt_ten hd)
      rw [Nat.toDigits_of_lt_base (value_lt_ten hd), digitChar_value hd] at hstep
      have hpos : 0 < 10 * n + (d.toNat - '0'.toNat) := by omega
      rw [Nat.ofDigitChars_cons, ← ih hrest hpos, digits, digits, ← hstep, List.append_assoc,
        List.singleton_append]

theorem digits_of_ne_zero (hds : AreDigits (d :: ds)) (hd : d ≠ '0') :
    digits (Nat.ofDigitChars 10 (d :: ds) 0) = d :: ds := by
  obtain ⟨hdigit, hrest⟩ := List.forall_mem_cons.mp hds
  have hlow : '0'.toNat ≤ d.toNat := hdigit.1
  have hne := mt Char.toNat_inj.mp hd
  have hpos : 0 < d.toNat - '0'.toNat := by omega
  have hall := digits_append hrest hpos
  rw [digits, Nat.toDigits_of_lt_base (value_lt_ten hdigit), digitChar_value hdigit] at hall
  rw [Nat.ofDigitChars_cons, Nat.mul_zero, Nat.zero_add, ← hall, List.singleton_append]

theorem digits_value (hds : AreDigits ds) (hne : ds ≠ []) :
    digits (Nat.ofDigitChars 10 ds 0) = withoutZeros ds := by
  induction ds with
  | nil => exact absurd rfl hne
  | cons d ds ih =>
      by_cases hd : d = '0'
      · subst hd
        cases ds with
        | nil => rfl
        | cons e ds => exact ih (List.forall_mem_cons.mp hds).2 (List.cons_ne_nil e ds)
      · rw [digits_of_ne_zero hds hd]
        simp [withoutZeros, hd]

end Digits

section Segment

variable {segment s : List Char} {i j : Nat}

def Spells (segment : List Char) (index : Nat) : Prop :=
  ∃ ds, (segment = ds ∨ segment = '+' :: ds) ∧ ds ≠ [] ∧ AreDigits ds ∧
    Nat.ofDigitChars 10 ds 0 = index ∧ index ≤ maxSize

def tidy (segment : List Char) : List Char := withoutZeros (segment.filter (· ≠ '+'))

def unsigned (segment : List Char) : List Char :=
  if segment.head? = some '+' then segment.tail else segment

theorem unsigned_cases (segment : List Char) :
    segment = unsigned segment ∨ segment = '+' :: unsigned segment := by
  rw [unsigned]
  split
  · rename_i hhead
    exact .inr (List.eq_cons_of_mem_head? hhead)
  · exact .inl rfl

theorem AreDigits.unsigned_eq {ds : List Char} (hds : AreDigits ds)
    (h : segment = ds ∨ segment = '+' :: ds) : unsigned segment = ds := by
  rcases h with rfl | rfl
  · refine if_neg fun hhead => ?_
    exact hds.not_mem (by decide) (List.mem_of_head? hhead)
  · exact if_pos rfl

theorem readIndex?_eq_some_iff : readIndex? segment = some i ↔ Spells segment i := by
  have hread : readIndex? segment = some i ↔
      (unsigned segment ≠ [] ∧ AreDigits (unsigned segment) ∧
        Nat.ofDigitChars 10 (unsigned segment) 0 ≤ maxSize) ∧
        Nat.ofDigitChars 10 (unsigned segment) 0 = i := by
    rw [readIndex?, ← unsigned, digitsValue_eq]
    simp [forall_isDigit_iff, and_assoc]
  rw [hread]
  constructor
  · rintro ⟨⟨hne, hdigits, hle⟩, rfl⟩
    exact ⟨_, unsigned_cases segment, hne, hdigits, rfl, hle⟩
  · rintro ⟨ds, hsegment, hne, hdigits, rfl, hle⟩
    rw [hdigits.unsigned_eq hsegment]
    exact ⟨⟨hne, hdigits, hle⟩, rfl⟩

theorem spells_digits (h : i ≤ maxSize) : Spells (digits i) i :=
  ⟨digits i, .inl rfl, Nat.toDigits_ne_nil, areDigits_digits i, Nat.ofDigitChars_ten_toDigits, h⟩

theorem Spells.digits_eq (h : Spells segment i) : digits i = tidy segment := by
  obtain ⟨ds, hsegment, hne, hdigits, rfl, -⟩ := h
  have hplain : ds.filter (· ≠ '+') = ds := by
    refine List.filter_eq_self.mpr fun d hd => decide_eq_true ?_
    rintro rfl
    exact hdigits.not_mem (by decide) hd
  have hsegment : segment.filter (· ≠ '+') = ds := by
    rcases hsegment with rfl | rfl
    · exact hplain
    · exact (List.filter_cons_of_neg (by decide)).trans hplain
  rw [tidy, hsegment, digits_value hdigits hne]

end Segment

section Segments

variable {ss : List (List Char)} {s bad : List Char} {is : List Nat} {e : BadSegment}

theorem readIndices_eq_ok_iff : readIndices ss = .ok is ↔ List.Forall₂ Spells ss is := by
  induction ss generalizing is with
  | nil =>
      rw [readIndices, List.forall₂_nil_left_iff, Except.ok.injEq, eq_comm]
  | cons s ss ih =>
      rw [readIndices, List.forall₂_cons_left_iff]
      cases hread : readIndex? s with
      | none =>
          refine iff_of_false (fun h => nomatch h) ?_
          rintro ⟨i, is, hs, -⟩
          exact nomatch hread.symm.trans (readIndex?_eq_some_iff.mpr hs)
      | some i =>
          have hs := readIndex?_eq_some_iff.mp hread
          constructor
          · intro h
            cases hrest : readIndices ss with
            | error e => rw [hrest] at h; exact nomatch h
            | ok js =>
                rw [hrest] at h
                cases h
                exact ⟨i, js, hs, ih.mp hrest, rfl⟩
          · rintro ⟨j, js, hj, hjs, rfl⟩
            have heq := hread.symm.trans (readIndex?_eq_some_iff.mpr hj)
            obtain rfl := Option.some.inj heq
            rw [ih.mpr hjs]
            rfl

def FirstBad (ss : List (List Char)) (bad : List Char) : Prop :=
  ∃ before after, ss = before ++ bad :: after ∧ (∀ s ∈ before, ∃ i, Spells s i) ∧
    ∀ i, ¬ Spells bad i

theorem firstBad_cons_of_spells {i : Nat} (hs : Spells s i) :
    FirstBad (s :: ss) bad ↔ FirstBad ss bad := by
  constructor
  · rintro ⟨before, after, heq, hbefore, hbad⟩
    cases before with
    | nil =>
        obtain ⟨rfl, -⟩ := List.cons.inj heq
        exact absurd hs (hbad i)
    | cons t before =>
        obtain ⟨-, rfl⟩ := List.cons.inj heq
        exact ⟨before, after, rfl, (List.forall_mem_cons.mp hbefore).2, hbad⟩
  · rintro ⟨before, after, rfl, hbefore, hbad⟩
    exact ⟨s :: before, after, rfl, List.forall_mem_cons.mpr ⟨⟨i, hs⟩, hbefore⟩, hbad⟩

theorem firstBad_cons_of_bad (hs : ∀ i, ¬ Spells s i) : FirstBad (s :: ss) bad ↔ bad = s := by
  constructor
  · rintro ⟨before, after, heq, hbefore, -⟩
    cases before with
    | nil => exact (List.cons.inj heq).1.symm
    | cons t before =>
        obtain ⟨rfl, -⟩ := List.cons.inj heq
        obtain ⟨i, hi⟩ := hbefore s List.mem_cons_self
        exact absurd hi (hs i)
  · rintro rfl
    exact ⟨[], ss, rfl, List.forall_mem_nil _, hs⟩

theorem readIndices_eq_error_iff :
    readIndices ss = .error e ↔ ∃ bad, FirstBad ss bad ∧ e = ⟨String.ofList bad⟩ := by
  induction ss with
  | nil =>
      refine iff_of_false (fun h => nomatch h) ?_
      rintro ⟨bad, ⟨before, after, heq, -⟩, -⟩
      exact List.append_ne_nil_of_right_ne_nil before (List.cons_ne_nil bad after) heq.symm
  | cons s ss ih =>
      rw [readIndices]
      cases hread : readIndex? s with
      | none =>
          have hs : ∀ i, ¬ Spells s i := fun i hi =>
            nomatch hread.symm.trans (readIndex?_eq_some_iff.mpr hi)
          simp only [firstBad_cons_of_bad hs, exists_eq_left, Except.error.injEq]
          exact eq_comm
      | some i =>
          have hs := readIndex?_eq_some_iff.mp hread
          simp only [firstBad_cons_of_spells hs, ← ih]
          cases readIndices ss with
          | error e => rfl
          | ok is => exact iff_of_false (fun h => nomatch h) fun h => nomatch h

end Segments

section Text

variable {p r : Path} {text : String} {e : BadSegment}

theorem toList_display (p : Path) :
    p.display.toList = ['.'].intercalate (p.indices.map digits) := by
  rw [display, String.toList_ofList, join_eq_intercalate]

theorem splitOn_display (hp : p.indices ≠ []) :
    p.display.toList.splitOn '.' = p.indices.map digits := by
  have hdots : ∀ s ∈ p.indices.map digits, '.' ∉ s :=
    List.forall_mem_map.mpr fun i _ => (areDigits_digits i).not_mem (by decide)
  rw [toList_display, List.splitOn_intercalate '.' hdots (mt List.map_eq_nil_iff.mp hp)]

theorem display_eq_empty_iff : p.display = "" ↔ p.indices = [] := by
  constructor
  · intro h
    by_contra hp
    have hsplit := splitOn_display hp
    rw [h] at hsplit
    obtain ⟨i, hi⟩ := List.exists_mem_of_ne_nil _ hp
    have hmem : digits i ∈ p.indices.map digits := List.mem_map_of_mem hi
    rw [← hsplit] at hmem
    exact Nat.toDigits_ne_nil (List.mem_singleton.mp hmem)
  · intro h
    rw [display, h]
    rfl

theorem digits_injective : Function.Injective digits := by
  intro i j h
  have hvalue := congrArg (Nat.ofDigitChars 10 · 0) h
  simpa only [digits, Nat.ofDigitChars_ten_toDigits] using hvalue

theorem display_injective (h : p.display = r.display) : p = r := by
  have hindices : p.indices = r.indices := by
    by_cases hp : p.indices = []
    · have hr := display_eq_empty_iff.mp (h ▸ display_eq_empty_iff.mpr hp)
      rw [hp, hr]
    · have hr : r.indices ≠ [] := fun hr =>
        hp (display_eq_empty_iff.mp (h ▸ display_eq_empty_iff.mpr hr))
      have hsplit := splitOn_display hp
      rw [h, splitOn_display hr] at hsplit
      exact (List.map_injective_iff.mpr digits_injective hsplit).symm
  cases p
  cases r
  exact congrArg mk hindices

theorem parse_of_ne_empty (h : text ≠ "") :
    parse text = (readIndices (text.toList.splitOn '.')).map mk := by
  rw [parse]
  cases htext : text.toList with
  | nil => exact absurd (String.toList_eq_nil_iff.mp htext) h
  | cons c cs => rw [← segments_eq_splitOn]

theorem parse_eq_ok_iff (h : text ≠ "") :
    parse text = .ok p ↔ List.Forall₂ Spells (text.toList.splitOn '.') p.indices := by
  rw [parse_of_ne_empty h, ← readIndices_eq_ok_iff]
  cases readIndices (text.toList.splitOn '.') with
  | error e => exact iff_of_false (fun h => nomatch h) fun h => nomatch h
  | ok is =>
      constructor
      · intro h
        cases h
        rfl
      · intro h
        cases h
        rfl

theorem parse_eq_error_iff :
    parse text = .error e ↔
      text ≠ "" ∧ ∃ bad, FirstBad (text.toList.splitOn '.') bad ∧ e = ⟨String.ofList bad⟩ := by
  by_cases h : text = ""
  · subst h
    exact iff_of_false (fun h => nomatch h) fun h => h.1 rfl
  · rw [parse_of_ne_empty h, ← readIndices_eq_error_iff, and_iff_right h]
    cases readIndices (text.toList.splitOn '.') with
    | error bad => simp only [Except.map, Except.error.injEq]
    | ok is => exact iff_of_false (fun h => nomatch h) fun h => nomatch h

theorem parse_display (hp : ∀ i ∈ p.indices, i ≤ maxSize) : parse p.display = .ok p := by
  by_cases hroot : p.indices = []
  · have hdisplay := display_eq_empty_iff.mpr hroot
    rw [display_injective (p := p) (r := root) hdisplay]
    rfl
  · rw [parse_eq_ok_iff (mt display_eq_empty_iff.mp hroot), splitOn_display hroot,
      List.forall₂_map_left_iff]
    exact List.forall₂_same.mpr fun i hi => spells_digits (hp i hi)

theorem map_digits_eq {ss : List (List Char)} {is : List Nat} (h : List.Forall₂ Spells ss is) :
    is.map digits = ss.map tidy := by
  induction h with
  | nil => rfl
  | cons hs _ ih => rw [List.map_cons, List.map_cons, hs.digits_eq, ih]

def tidied (text : String) : String :=
  String.ofList (['.'].intercalate ((text.toList.splitOn '.').map tidy))

theorem display_of_parse (h : parse text = .ok p) : p.display = tidied text := by
  by_cases htext : text = ""
  · subst htext
    cases h
    rfl
  · rw [display, join_eq_intercalate, map_digits_eq ((parse_eq_ok_iff htext).mp h), tidied]

theorem exists_spelled_iff {ss : List (List Char)} :
    (∃ is, List.Forall₂ Spells ss is) ↔ ∀ s ∈ ss, ∃ i, Spells s i := by
  induction ss with
  | nil => exact iff_of_true ⟨[], .nil⟩ (List.forall_mem_nil _)
  | cons s ss ih =>
      rw [List.forall_mem_cons, ← ih]
      constructor
      · rintro ⟨_, hs⟩
        cases hs with
        | cons hi his => exact ⟨⟨_, hi⟩, ⟨_, his⟩⟩
      · rintro ⟨⟨i, hi⟩, is, his⟩
        exact ⟨i :: is, .cons hi his⟩

theorem exists_parse_eq_ok_iff :
    (∃ p, parse text = .ok p) ↔
      text = "" ∨ ∀ s ∈ text.toList.splitOn '.', ∃ i, Spells s i := by
  by_cases htext : text = ""
  · subst htext
    exact iff_of_true ⟨root, rfl⟩ (.inl rfl)
  · rw [or_iff_right htext, ← exists_spelled_iff]
    constructor
    · rintro ⟨p, hp⟩
      exact ⟨p.indices, (parse_eq_ok_iff htext).mp hp⟩
    · rintro ⟨is, his⟩
      exact ⟨⟨is⟩, (parse_eq_ok_iff htext).mpr his⟩

end Text

theorem parse_decided :
    (∀ p : Path, (∀ i ∈ p.indices, i ≤ maxSize) → parse p.display = .ok p) ∧
    (∀ p r : Path, p ≠ r → p.display ≠ r.display) ∧
    ∀ text : String,
      ((∃ p, parse text = .ok p) ↔
        text = "" ∨ ∀ s ∈ text.toList.splitOn '.', ∃ i, Spells s i) ∧
      (∀ p, parse text = .ok p ↔
        if text = "" then p = root
        else List.Forall₂ Spells (text.toList.splitOn '.') p.indices) ∧
      (∀ p, parse text = .ok p → p.display = tidied text) ∧
      ∀ e, parse text = .error e ↔
        text ≠ "" ∧ ∃ bad, FirstBad (text.toList.splitOn '.') bad ∧ e = ⟨String.ofList bad⟩ := by
  refine ⟨fun p => parse_display, fun p r => mt display_injective, fun text =>
    ⟨exists_parse_eq_ok_iff, fun p => ?_, fun p => display_of_parse, fun e => parse_eq_error_iff⟩⟩
  split
  · rename_i htext
    subst htext
    constructor
    · intro h
      cases h
      rfl
    · rintro rfl
      rfl
  · rename_i htext
    exact parse_eq_ok_iff htext

end Path

namespace Sample

theorem second_child_spelled :
    (∀ i ∈ [1, maxSize], i ≤ maxSize) ∧
      Path.parse (Path.display ⟨[1, maxSize]⟩) = .ok ⟨[1, maxSize]⟩ ∧
      Path.parse "+007.00" = .ok ⟨[7, 0]⟩ ∧ Path.display ⟨[7, 0]⟩ = Path.tidied "+007.00" := by
  have hsizes : ∀ i ∈ [1, maxSize], i ≤ maxSize := by decide
  have hread : Path.parse "+007.00" = .ok ⟨[7, 0]⟩ := by decide
  obtain ⟨hdisplay, -, htext⟩ := Path.parse_decided
  exact ⟨hsizes, hdisplay ⟨[1, maxSize]⟩ hsizes, hread, (htext "+007.00").2.2.1 _ hread⟩

end Sample

end LosslessSyntax
