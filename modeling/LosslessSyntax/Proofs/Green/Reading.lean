import LosslessSyntax.Proofs.Green.Equality
import LosslessSyntax.Proofs.Green.Outline
import LosslessSyntax.Proofs.Path.Spelling
import LosslessSyntax.Proofs.Session.Twin

namespace LosslessSyntax

section Text

theorem eq_of_cut {c : Char} {xs ys us vs : List Char} (hx : c ∉ xs) (hy : c ∉ ys)
    (h : xs ++ c :: us = ys ++ c :: vs) : xs = ys ∧ us = vs := by
  have hsplit := congrArg (List.splitOn c) h
  rw [List.splitOn_append_cons_self_of_not_mem hx, List.splitOn_append_cons_self_of_not_mem hy]
    at hsplit
  obtain rfl := (List.cons.inj hsplit).1
  exact ⟨rfl, (List.cons.inj (List.append_cancel_left h)).2⟩

theorem not_mem_digits {c : Char} (hc : c.isDigit = false) (n : Nat) : c ∉ Path.digits n :=
  not_mem_toDigits hc n

theorem Kind.ofName?_name (k : Kind) : ofName? k.name = some k := by
  cases k <;> rfl

theorem Kind.name_injective : Function.Injective Kind.name := by
  intro j k h
  have hname := ofName?_name j
  rw [h, ofName?_name k] at hname
  exact (Option.some.inj hname).symm

def Detail.suffix : Detail → List Char
  | node => []
  | missing => 'm' :: "issing ".toList
  | lengths leading text trailing =>
      '[' :: (Path.digits leading ++
        '+' :: (Path.digits text ++ '+' :: (Path.digits trailing ++ ']' :: [' '])))

theorem Detail.display_append_blank (d : Detail) :
    d.display.toList ++ [' '] = ' ' :: d.suffix := by
  cases d with
  | node => rfl
  | missing => rfl
  | lengths leading text trailing => simp [display, suffix, Path.digits]

theorem Detail.suffix_injective : Function.Injective Detail.suffix := by
  intro d e h
  have hplus (n : Nat) : '+' ∉ Path.digits n := not_mem_digits (by decide) n
  have hbracket (n : Nat) : ']' ∉ Path.digits n := not_mem_digits (by decide) n
  have hhead := congrArg List.head? h
  cases d with
  | node =>
      cases e with
      | node => rfl
      | missing => exact nomatch hhead
      | lengths leading text trailing => exact nomatch hhead
  | missing =>
      cases e with
      | node => exact nomatch hhead
      | missing => rfl
      | lengths leading text trailing => exact absurd (Option.some.inj hhead) (by decide)
  | lengths leading text trailing =>
      cases e with
      | node => exact nomatch hhead
      | missing => exact absurd (Option.some.inj hhead) (by decide)
      | lengths leading' text' trailing' =>
          obtain ⟨hleading, h⟩ := eq_of_cut (hplus _) (hplus _) (List.cons.inj h).2
          obtain ⟨htext, h⟩ := eq_of_cut (hplus _) (hplus _) h
          obtain ⟨htrailing, -⟩ := eq_of_cut (hbracket _) (hbracket _) h
          rw [Path.digits_injective hleading, Path.digits_injective htext,
            Path.digits_injective htrailing]

theorem OutlineLine.toList_display (depth : Nat) (kind : Kind) (start stop : Nat)
    (detail : Detail) :
    (element depth kind start stop detail).display.toList =
      (List.replicate (2 * depth) ' ' ++ kind.name.toList) ++
        '@' :: (Path.digits start ++ '.' :: ('.' :: Path.digits stop) ++ detail.display.toList) := by
  simp [display, indent, Path.digits]

theorem OutlineLine.element_injective {depth depth' start start' stop stop' : Nat}
    {kind kind' : Kind} {detail detail' : Detail}
    (h : (element depth kind start stop detail).display =
      (element depth' kind' start' stop' detail').display) :
    element depth kind start stop detail = element depth' kind' start' stop' detail' := by
  have hat (n : Nat) (k : Kind) : '@' ∉ List.replicate n ' ' ++ k.name.toList := by
    simp [k.not_mem_name (c := '@') (by decide)]
  have hblank (m n : Nat) : ' ' ∉ Path.digits m ++ '.' :: ('.' :: Path.digits n) := by
    simp [not_mem_digits (c := ' ') (by decide)]
  have hdot (n : Nat) : '.' ∉ Path.digits n := not_mem_digits (by decide) n
  have hlines := congrArg String.toList h
  rw [toList_display, toList_display] at hlines
  obtain ⟨hhead, htail⟩ := eq_of_cut (hat _ _) (hat _ _) hlines
  have hdepth : depth = depth' := by
    have hcount := congrArg (List.count ' ') hhead
    simp only [List.count_append, List.count_replicate_self,
      List.count_eq_zero_of_not_mem (Kind.not_mem_name (c := ' ') (by decide) _)] at hcount
    omega
  subst hdepth
  have hkind := Kind.name_injective (String.toList_injective (List.append_cancel_left hhead))
  have hrest : (Path.digits start ++ '.' :: ('.' :: Path.digits stop)) ++ ' ' :: detail.suffix =
      (Path.digits start' ++ '.' :: ('.' :: Path.digits stop')) ++ ' ' :: detail'.suffix := by
    rw [← Detail.display_append_blank, ← Detail.display_append_blank, ← List.append_assoc,
      ← List.append_assoc, htail]
  obtain ⟨hbounds, hsuffix⟩ := eq_of_cut (hblank _ _) (hblank _ _) hrest
  obtain ⟨hstart, hstop⟩ := eq_of_cut (hdot _) (hdot _) hbounds
  rw [hkind, Path.digits_injective hstart, Path.digits_injective (List.cons.inj hstop).2,
    Detail.suffix_injective hsuffix]

end Text

namespace Green

abbrev Headline := Nat × Kind × Detail

def headline (x : Entry) : Headline := (x.1.length, x.2.kind, x.2.detail)

structure Plain (g : Green) : Prop where
  wellFormed : g.WellFormed
  containsDiagnostics : g.containsDiagnostics = false

def Closed (depth : Nat) (lines : List Headline) : Prop := ∀ x ∈ lines.head?, x.1 ≤ depth

variable {a b c g : Green} {as bs cs : List Green} {p q : List Nat} {us vs : List Headline}
  {depth : Nat}

namespace Plain

theorem diagnostics_eq_nil (h : g.Plain) {m : Green} (hm : g.descend? q = some m) :
    m.diagnostics = [] := by
  by_contra hds
  have hcontains := h.wellFormed.containsDiagnostics_iff.mpr ⟨q, m, hm, hds⟩
  exact Bool.false_ne_true (h.containsDiagnostics.symm.trans hcontains)

theorem of_mem_children (h : g.Plain) (hc : c ∈ g.children) : c.Plain := by
  refine ⟨h.wellFormed.of_mem_children hc, ?_⟩
  obtain ⟨i, hi⟩ := List.getElem?_of_mem hc
  by_contra hcontains
  obtain ⟨q, m, hm, hds⟩ := (h.wellFormed.of_mem_children hc).containsDiagnostics_iff.mp
    (Bool.eq_true_of_not_eq_false hcontains)
  exact hds (h.diagnostics_eq_nil (descend?_cons_eq_some_iff.mpr ⟨c, hi, hm⟩))

end Plain

theorem listing_eq_cons (g : Green) (q : List Nat) : ∃ below, g.listing q = (q, g) :: below := by
  cases g with
  | token stamp shape ds => exact ⟨[], rfl⟩
  | node stamp kind summary cs ds => exact ⟨listingAmong q 0 cs, rfl⟩

def ReadsBack (a : Green) : Prop :=
  ∀ {b : Green} {p q : List Nat} {us vs : List Headline} {depth : Nat}, b.Plain →
    p.length = depth → q.length = depth → Closed depth us → Closed depth vs →
    (a.listing p).map headline ++ us = (b.listing q).map headline ++ vs →
    a.SameContent b ∧ us = vs

theorem closed_among (cs : List Green) (hp : p.length = depth) (i : Nat)
    (hus : Closed depth us) : Closed (depth + 1) ((listingAmong p i cs).map headline ++ us) := by
  cases cs with
  | nil => exact fun x hx => Nat.le_succ_of_le (hus x hx)
  | cons c cs =>
      obtain ⟨below, hbelow⟩ := c.listing_eq_cons (p ++ [i])
      rw [listingAmong, hbelow]
      rintro x hx
      obtain rfl := Option.some.inj hx
      simp [headline, hp]

theorem not_closed_among (c : Green) (cs : List Green) (hp : p.length = depth) (i : Nat) :
    ¬ Closed depth ((listingAmong p i (c :: cs)).map headline ++ us) := by
  obtain ⟨below, hbelow⟩ := c.listing_eq_cons (p ++ [i])
  rw [listingAmong, hbelow]
  intro h
  have hle : (p ++ [i]).length ≤ depth := h _ rfl
  rw [List.length_append, List.length_singleton] at hle
  omega

theorem sameContents_of_headlines (ih : ∀ c ∈ cs, c.ReadsBack) (hbs : ∀ b ∈ bs, b.Plain)
    (hp : p.length = depth) (hq : q.length = depth) (hus : Closed depth us)
    (hvs : Closed depth vs) {i j : Nat}
    (h : (listingAmong p i cs).map headline ++ us = (listingAmong q j bs).map headline ++ vs) :
    SameContents cs bs ∧ us = vs := by
  induction cs generalizing bs i j with
  | nil =>
      cases bs with
      | nil => exact ⟨trivial, h⟩
      | cons b bs =>
          obtain rfl : us = _ := h
          exact absurd hus (not_closed_among b bs hq j)
  | cons c cs ihcs =>
      cases bs with
      | nil =>
          obtain rfl : _ = vs := h
          exact absurd hvs (not_closed_among c cs hp i)
      | cons b bs =>
          obtain ⟨ihc, ihrest⟩ := List.forall_mem_cons.mp ih
          obtain ⟨hb, hbs⟩ := List.forall_mem_cons.mp hbs
          rw [listingAmong, listingAmong, List.map_append, List.map_append, List.append_assoc,
            List.append_assoc] at h
          have hp' : (p ++ [i]).length = depth + 1 := by simp [hp]
          have hq' : (q ++ [j]).length = depth + 1 := by simp [hq]
          obtain ⟨hcontent, hrest⟩ := ihc hb hp' hq' (closed_among cs hp (i + 1) hus)
            (closed_among bs hq (j + 1) hvs) h
          obtain ⟨hcontents, heq⟩ := ihcs ihrest hbs hrest
          exact ⟨⟨hcontent, hcontents⟩, heq⟩

theorem head_eq (h : (a.listing p).map headline ++ us = (b.listing q).map headline ++ vs) :
    a.kind = b.kind ∧ a.detail = b.detail := by
  obtain ⟨below, hbelow⟩ := a.listing_eq_cons p
  obtain ⟨below', hbelow'⟩ := b.listing_eq_cons q
  rw [hbelow, hbelow'] at h
  obtain ⟨-, hsays⟩ := Prod.mk.inj (List.cons.inj h).1
  exact Prod.mk.inj hsays

theorem detail_eq_node_iff : g.detail = .node ↔ g.isNode = true := by
  cases g with
  | token stamp shape ds =>
      rw [detail]
      split <;> simp [isNode]
  | node stamp kind summary cs ds => simp [detail, isNode]

theorem shape_eq {stamp stamp' : Nat} {shape shape' : TokenShape} {ds ds' : List Diagnostic}
    (ha : (token stamp shape ds).WellFormed) (hb : (token stamp' shape' ds').WellFormed)
    (hkind : shape.kind = shape'.kind)
    (hdetail : (token stamp shape ds).detail = (token stamp' shape' ds').detail) :
    shape = shape' := by
  have hnone := ha.missing_lengths
  have hnone' := hb.missing_lengths
  obtain ⟨kind, leading, text, trailing, missing⟩ := shape
  obtain ⟨kind', leading', text', trailing', missing'⟩ := shape'
  simp only [detail] at hdetail hkind hnone hnone'
  cases missing <;> cases missing' <;> simp_all

theorem Plain.readsBack (ha : a.Plain) : a.ReadsBack := by
  induction a with
  | token stamp shape ds =>
      intro b p q us vs depth hb hp hq hus hvs h
      obtain ⟨hkind, hdetail⟩ := head_eq h
      cases b with
      | node stamp' kind' summary' bs ds' => exact nomatch detail_eq_node_iff.mp hdetail
      | token stamp' shape' ds' =>
          have hds : ds = [] := ha.diagnostics_eq_nil (descend?_nil _)
          have hds' : ds' = [] := hb.diagnostics_eq_nil (descend?_nil _)
          exact ⟨⟨shape_eq ha.wellFormed hb.wellFormed hkind hdetail, hds.trans hds'.symm⟩,
            (List.cons.inj h).2⟩
  | node stamp kind summary cs ds ih =>
      intro b p q us vs depth hb hp hq hus hvs h
      obtain ⟨hkind, hdetail⟩ := head_eq h
      cases b with
      | token stamp' shape' ds' => exact nomatch detail_eq_node_iff.mp hdetail.symm
      | node stamp' kind' summary' bs ds' =>
          have hds : ds = [] := ha.diagnostics_eq_nil (descend?_nil _)
          have hds' : ds' = [] := hb.diagnostics_eq_nil (descend?_nil _)
          obtain ⟨hcontents, heq⟩ := sameContents_of_headlines
            (fun c hc => ih c hc (ha.of_mem_children hc)) (fun b hc => hb.of_mem_children hc)
            hp hq hus hvs (List.cons.inj h).2
          exact ⟨⟨hkind, hds.trans hds'.symm, hcontents⟩, heq⟩

def line (root : Green) (x : Entry) : OutlineLine :=
  .element x.1.length x.2.kind (root.offsetAt x.1) (root.offsetAt x.1 + x.2.width) x.2.detail

theorem headline_eq_of_line {x y : Entry} (h : (line a x).display = (line b y).display) :
    headline x = headline y := by
  obtain ⟨hdepth, hkind, -, -, hdetail⟩ := OutlineLine.element.inj (OutlineLine.element_injective h)
  rw [headline, headline, hdepth, hkind, hdetail]

theorem Plain.splitOn_dump (h : g.Plain) :
    ∃ text, g.dump = .ok text ∧ text.toList.splitOn '\n' =
      ((g.listing []).map fun x => (line g x).display.toList) ++ [[]] := by
  obtain ⟨text, hdump, hlines⟩ := Green.splitOn_dump h.wellFormed fun q m hm d hd =>
    absurd (h.diagnostics_eq_nil hm ▸ hd) List.not_mem_nil
  refine ⟨text, hdump, hlines.trans (congrArg (· ++ [[]]) ?_)⟩
  rw [List.map_eq_flatMap]
  refine List.flatMap_congr fun x hx => ?_
  rw [entryLines, h.diagnostics_eq_nil (descend?_of_mem_listing (descend?_nil g) hx), List.map_nil,
    List.map_singleton, line]

theorem Plain.dump_eq_iff (ha : a.Plain) (hb : b.Plain) :
    a.dump = b.dump ↔ a.SameContent b := by
  constructor
  · intro h
    obtain ⟨text, hdump, hlines⟩ := ha.splitOn_dump
    obtain ⟨text', hdump', hlines'⟩ := hb.splitOn_dump
    obtain rfl : text = text' := Except.ok.inj (hdump.symm.trans (h.trans hdump'))
    have hdisplay := List.append_cancel_right (hlines.symm.trans hlines')
    rw [← List.forall₂_eq_eq_eq, List.forall₂_map_left_iff, List.forall₂_map_right_iff] at hdisplay
    have hheads := hdisplay.imp fun x y hxy => headline_eq_of_line (String.toList_injective hxy)
    rw [← List.forall₂_map_right_iff, ← List.forall₂_map_left_iff, List.forall₂_eq_eq_eq] at hheads
    have hroot : ([] : List Nat).length = 0 := rfl
    have hclosed : Closed 0 [] := nofun
    have hwhole : (a.listing []).map headline ++ [] = (b.listing []).map headline ++ [] :=
      congrArg (· ++ []) hheads
    exact (ha.readsBack hb hroot hroot hclosed hclosed hwhole).1
  · exact fun h => (h.twin ha.wellFormed hb.wellFormed).dump_eq

end Green

end LosslessSyntax
