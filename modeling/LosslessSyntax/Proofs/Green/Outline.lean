import LosslessSyntax.Green.Outline
import LosslessSyntax.Proofs.Green.Listing
import LosslessSyntax.Proofs.Green.Position

namespace LosslessSyntax

structure Diagnostic.Unbroken (d : Diagnostic) : Prop where
  code : '\n' ∉ d.code.toList
  message : '\n' ∉ d.message.toList

section Lines

theorem not_mem_toDigits {c : Char} (hc : c.isDigit = false) (n : Nat) :
    c ∉ Nat.toDigits 10 n := by
  intro h
  have hdigit := Nat.isDigit_of_mem_toDigits (by decide) (by decide) h
  exact Bool.false_ne_true (hc.symm.trans hdigit)

theorem newline_not_mem_toDigits (n : Nat) : '\n' ∉ Nat.toDigits 10 n :=
  not_mem_toDigits (by decide) n

theorem newline_not_mem_indent (depth : Nat) : '\n' ∉ (indent depth).toList := by
  rw [indent, String.toList_ofList]
  intro h
  exact absurd (List.eq_of_mem_replicate h) (by decide)

theorem Kind.all_name (k : Kind) : k.name.toList.all (fun c => c.isUpper || c == '_') = true := by
  cases k <;> decide

theorem Kind.not_mem_name {c : Char} (hc : (c.isUpper || c == '_') = false) (k : Kind) :
    c ∉ k.name.toList := by
  intro h
  exact Bool.false_ne_true (hc.symm.trans (List.all_eq_true.mp k.all_name c h))

theorem Kind.newline_not_mem_name (k : Kind) : '\n' ∉ k.name.toList :=
  k.not_mem_name (by decide)

theorem Detail.newline_not_mem_display (d : Detail) : '\n' ∉ d.display.toList := by
  cases d with
  | node => decide
  | missing => decide
  | lengths leading text trailing =>
      simp [display, String.toList_append, newline_not_mem_toDigits]

theorem Diagnostic.Unbroken.display {d : Diagnostic} (h : d.Unbroken) :
    '\n' ∉ d.display.toList := by
  have hname : '\n' ∉ d.severity.name.toList := by cases d.severity <;> decide
  simp [Diagnostic.display, String.toList_append, hname, h.code, h.message]

theorem OutlineLine.newline_not_mem_display {line : OutlineLine}
    (h : ∀ depth d, line = .note depth d → d.Unbroken) : '\n' ∉ line.display.toList := by
  cases line with
  | element depth kind start stop detail =>
      simp [display, String.toList_append, newline_not_mem_indent, kind.newline_not_mem_name,
        newline_not_mem_toDigits, detail.newline_not_mem_display]
  | note depth d =>
      simp [display, String.toList_append, newline_not_mem_indent, (h depth d rfl).display]

theorem splitOn_join_lines {lines : List String} (h : ∀ l ∈ lines, '\n' ∉ l.toList) :
    (String.join (lines.map (· ++ "\n"))).toList.splitOn '\n' =
      lines.map String.toList ++ [[]] := by
  rw [String.toList_join]
  induction lines with
  | nil => rfl
  | cons l lines ih =>
      rw [List.forall_mem_cons] at h
      rw [List.map_cons, List.flatMap_cons, String.toList_append, List.append_assoc]
      exact (List.splitOn_append_cons_self_of_not_mem h.1 _).trans
        (congrArg (l.toList :: ·) (ih h.2))

end Lines

namespace Green

variable {root m : Green} {q : List Nat} {i : Nat} {cs : List Green}

def entryLines (root : Green) (x : Entry) : List OutlineLine :=
  .element x.1.length x.2.kind (root.offsetAt x.1) (root.offsetAt x.1 + x.2.width) x.2.detail ::
    x.2.diagnostics.map (.note (x.1.length + 1))

theorem headLines_eq_entryLines (hroot : root.WellFormed) (hm : root.descend? q = some m) :
    m.headLines (root.offsetAt q) q.length = .ok (entryLines root (q, m)) := by
  have hfits := offsetAt_add_width_le hroot hm
  have hmax := hroot.width_le
  have hsum : Checked.sum (root.offsetAt q) m.width = .ok (root.offsetAt q + m.width) :=
    Checked.sum_eq_ok_iff.mpr ⟨rfl, by omega⟩
  rw [headLines, (hroot.of_descend? hm).checkedWidth_eq]
  change (Checked.sum (root.offsetAt q) m.width >>= _) = _
  rw [hsum]
  rfl

theorem outlinesFrom_eq_flatMap (hroot : root.WellFormed) (hm : root.descend? q = some m)
    (hcs : m.ChildrenFrom i cs)
    (ih : ∀ c ∈ cs, ∀ q, root.descend? q = some c →
      c.outlineFrom (root.offsetAt q) q.length = .ok ((c.listing q).flatMap (entryLines root))) :
    outlinesFrom (root.offsetAt q) (q.length + 1)
        (startsFrom (widths (m.children.take i)) cs) cs =
      .ok ((listingAmong q i cs).flatMap (entryLines root)) := by
  induction cs generalizing i with
  | nil => rfl
  | cons c cs ihcs =>
      have hc := hcs.head
      have hdescend := (descend?_concat hm i).trans hc
      have hoffset := offsetAt_concat hm hc
      have hfits := offsetAt_add_width_le hroot hdescend
      have hmax := hroot.width_le
      have hsum : Checked.sum (root.offsetAt q) (widths (m.children.take i)) =
          .ok (root.offsetAt (q ++ [i])) :=
        Checked.sum_eq_ok_iff.mpr ⟨hoffset.symm, by omega⟩
      have habove := ih c List.mem_cons_self (q ++ [i]) hdescend
      have hbelow := ihcs hcs.tail fun b hb => ih b (List.mem_cons_of_mem c hb)
      rw [List.length_append, List.length_singleton] at habove
      rw [widths_take_succ hc] at hbelow
      rw [startsFrom, outlinesFrom, hsum]
      change (outlineFrom (root.offsetAt (q ++ [i])) (q.length + 1) c >>= _) = _
      rw [habove]
      change (outlinesFrom (root.offsetAt q) (q.length + 1) _ cs >>= _) = _
      rw [hbelow, listingAmong, List.flatMap_append]
      rfl

theorem outlineFrom_eq_flatMap (hroot : root.WellFormed) (hm : root.descend? q = some m) :
    m.outlineFrom (root.offsetAt q) q.length = .ok ((m.listing q).flatMap (entryLines root)) := by
  induction m generalizing q with
  | token stamp shape ds =>
      rw [outlineFrom, headLines_eq_entryLines hroot hm, listing, List.flatMap_singleton]
  | node stamp kind summary cs ds ih =>
      have hbelow := outlinesFrom_eq_flatMap hroot hm (childrenFrom_zero _) fun c hc q => ih c hc
      rw [outlineFrom, headLines_eq_entryLines hroot hm, listing, List.flatMap_cons]
      cases hroot.of_descend? hm with
      | node hcs hwidth =>
          change (outlinesFrom (root.offsetAt q) (q.length + 1) (startsFrom 0 cs) cs >>= _) = _
          rw [show startsFrom 0 cs = startsFrom (widths (cs.take 0)) cs from rfl]
          exact congrArg (· >>= _) hbelow

theorem dump_eq_join (hroot : root.WellFormed) :
    root.dump = .ok (String.join ((((root.listing []).flatMap (entryLines root)).map
      OutlineLine.display).map (· ++ "\n"))) := by
  have houtline : root.outline = _ := outlineFrom_eq_flatMap hroot (descend?_nil root)
  rw [dump, houtline, List.map_map]
  rfl

theorem splitOn_dump (hroot : root.WellFormed)
    (hds : ∀ q m, root.descend? q = some m → ∀ d ∈ m.diagnostics, d.Unbroken) :
    ∃ text, root.dump = .ok text ∧ text.toList.splitOn '\n' =
      ((root.listing []).flatMap fun x =>
        (entryLines root x).map fun line => line.display.toList) ++ [[]] := by
  refine ⟨_, dump_eq_join hroot, ?_⟩
  rw [splitOn_join_lines, List.map_map, List.map_flatMap]
  · rfl
  · intro l hl
    obtain ⟨line, hline, rfl⟩ := List.mem_map.mp hl
    obtain ⟨x, hx, hline⟩ := List.mem_flatMap.mp hline
    refine OutlineLine.newline_not_mem_display ?_
    rintro depth d rfl
    obtain ⟨hmem, -⟩ : d ∈ x.2.diagnostics ∧ x.1.length + 1 = depth := by
      simpa [entryLines] using hline
    exact hds x.1 x.2 (descend?_of_mem_listing (descend?_nil root) hx) d hmem

end Green

end LosslessSyntax
