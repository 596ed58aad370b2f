import LosslessSyntax.Proofs.Session.Yields

namespace LosslessSyntax

namespace Green

def Occurs (root : Green) (q : List Nat) (g : Green) (offset i : Nat) : Prop :=
  ∃ c, root.descend? (q ++ [i]) = some c ∧ c.same g = true ∧ root.offsetAt (q ++ [i]) = offset

variable {root g m c : Green} {q : List Nat} {offset i j : Nat}

theorem occurs_iff (hm : root.descend? q = some m) :
    root.Occurs q g offset i ↔ ∃ c, m.child? i = some c ∧ c.same g = true ∧
      root.offsetAt q + widths (m.children.take i) = offset := by
  refine exists_congr fun c => ?_
  rw [descend?_concat hm]
  refine and_congr_right fun hc => ?_
  rw [offsetAt_concat hm hc]

theorem occurs_self (hc : root.descend? (q ++ [i]) = some c) :
    root.Occurs q c (root.offsetAt (q ++ [i])) i :=
  ⟨c, hc, c.same_refl, rfl⟩

theorem WellFormed.starts_le (hg : g.WellFormed) : ∀ start ∈ g.starts, start ≤ g.width := by
  intro start hstart
  obtain ⟨i, hi⟩ := List.getElem?_of_mem hstart
  have hchild := hg.childStart?_eq i
  rw [childStart?, hi] at hchild
  obtain ⟨c, hc, rfl⟩ := Option.map_eq_some_iff.mp hchild.symm
  have hle := widths_take_child_le hg hc
  omega

theorem Occurs.width_eq_zero (hm : root.descend? q = some m) (hi : root.Occurs q g offset i)
    (hj : root.Occurs q g offset j) (hij : i < j) :
    ∃ c, root.descend? (q ++ [i]) = some c ∧ c.same g = true ∧ c.width = 0 := by
  obtain ⟨c, hc, hsame, hstart⟩ := (occurs_iff hm).mp hi
  obtain ⟨-, -, -, hstart'⟩ := (occurs_iff hm).mp hj
  have hle := widths_take_le_of_le m.children (Nat.succ_le_of_lt hij)
  rw [Nat.succ_eq_add_one, widths_take_succ hc] at hle
  exact ⟨c, (descend?_concat hm i).trans hc, hsame, by omega⟩

end Green

namespace Session

section Hits

def hits (base : Nat) (green : Green) (offset index : Nat) (slots : List (Nat × Green)) :
    List Nat :=
  ((slots.zipIdx index).filter fun x =>
    x.1.2.same green && decide (base + x.1.1 = offset)).map Prod.snd

variable {p : Placement} {green : Green} {base offset index i : Nat} {slots : List (Nat × Green)}
  {starts : List Nat} {cs : List Green}

theorem hits_cons (base : Nat) (green : Green) (offset index start : Nat) (c : Green)
    (slots : List (Nat × Green)) :
    hits base green offset index ((start, c) :: slots) =
      if c.same green = true ∧ base + start = offset then
        index :: hits base green offset (index + 1) slots
      else hits base green offset (index + 1) slots := by
  rw [hits, List.zipIdx_cons, List.filter_cons, apply_ite (List.map Prod.snd)]
  simp only [Bool.and_eq_true, decide_eq_true_eq]
  rfl

theorem occurrences_eq (hstarts : ∀ start ∈ starts, p.offset + start ≤ maxSize)
    (limit index : Nat) :
    occurrences p green offset limit index starts cs =
      .ok ((hits p.offset green offset index (starts.zip cs)).take limit) := by
  induction cs generalizing limit index starts with
  | nil => cases limit <;> cases starts <;> rfl
  | cons c cs ih =>
      cases starts with
      | nil => cases limit <;> rfl
      | cons start starts =>
          cases limit with
          | zero => rfl
          | succ limit =>
              have hrest := fun start hstart => hstarts start (List.mem_cons_of_mem _ hstart)
              have hsum : Checked.sum p.offset start = .ok (p.offset + start) :=
                Checked.sum_eq_ok_iff.mpr ⟨rfl, hstarts start List.mem_cons_self⟩
              have hskip := ih hrest (limit + 1) (index + 1)
              rw [occurrences, hsum, List.zip_cons_cons, hits_cons]
              by_cases hsame : c.same green = true
              · rw [if_pos hsame]
                change (if p.offset + start = offset then _ else _) = _
                by_cases hoffset : p.offset + start = offset
                · rw [if_pos hoffset, if_pos ⟨hsame, hoffset⟩, ih hrest limit (index + 1)]
                  rfl
                · rw [if_neg hoffset, if_neg fun h => hoffset h.2, hskip]
              · rw [if_neg hsame, if_neg fun h => hsame h.1, hskip]

theorem pairwise_hits (base : Nat) (green : Green) (offset index : Nat)
    (slots : List (Nat × Green)) : (hits base green offset index slots).Pairwise (· < ·) := by
  have hsub := (List.filter_sublist (l := slots.zipIdx index) (p := fun x =>
    x.1.2.same green && decide (base + x.1.1 = offset))).map Prod.snd
  rw [List.zipIdx_map_snd] at hsub
  exact (List.pairwise_lt_range' _).sublist hsub

theorem mem_hits_iff : i ∈ hits base green offset 0 slots ↔
    ∃ start c, slots[i]? = some (start, c) ∧ c.same green = true ∧ base + start = offset := by
  simp only [hits, List.mem_map, List.mem_filter, Bool.and_eq_true, decide_eq_true_eq]
  constructor
  · rintro ⟨⟨⟨start, c⟩, k⟩, ⟨hmem, hsame, hstart⟩, rfl⟩
    exact ⟨start, c, List.mem_zipIdx_iff_getElem?.mp hmem, hsame, hstart⟩
  · rintro ⟨start, c, hget, hsame, hstart⟩
    exact ⟨((start, c), i), ⟨List.mem_zipIdx_iff_getElem?.mpr hget, hsame, hstart⟩, rfl⟩

theorem getElem?_slots {m : Green} (hm : m.WellFormed) {start : Nat} {c : Green} :
    (m.starts.zip m.children)[i]? = some (start, c) ↔
      m.child? i = some c ∧ Green.widths (m.children.take i) = start := by
  have hstart : m.starts[i]? = _ := hm.childStart?_eq i
  rw [List.getElem?_zip_eq_some, hstart, Green.child?]
  constructor
  · rintro ⟨hstart, hc⟩
    rw [hc, Option.map_some, Option.some.injEq] at hstart
    exact ⟨hc, hstart⟩
  · rintro ⟨hc, rfl⟩
    exact ⟨by rw [hc, Option.map_some], hc⟩

end Hits

variable {s t : Session} {q : List Nat} {id cid i : Nat} {g m c : Green} {offset : Nat}

theorem placeBelow_eq (hs : s.Grounded) (h : s.At q id) (hm : s.root.descend? q = some m)
    (g : Green) (offset : Nat) :
    ∃ is : List Nat, is.Pairwise (· < ·) ∧ (∀ i, i ∈ is ↔ s.root.Occurs q g offset i) ∧
      placeBelow g offset id s = match is with
        | [] => .error (.illegalShape m.kind (.noSuchChild g.kind offset)) s
        | [i] => childAt id i s
        | i :: j :: _ => .error (.illegalShape m.kind (.ambiguousChild g.kind offset i j)) s := by
  obtain ⟨p, hp, rfl, hoffset⟩ := hs.held h hm
  have hwf := hs.wellFormed.of_descend? hm
  have hstarts : ∀ start ∈ p.green.starts, p.offset + start ≤ maxSize := by
    intro start hstart
    have hle := hwf.starts_le start hstart
    have hfits := Green.offsetAt_add_width_le hs.wellFormed hm
    have hmax := hs.wellFormed.width_le
    omega
  have hfound : occurrences p g offset 2 0 p.green.starts p.green.children = _ :=
    occurrences_eq hstarts 2 0
  refine ⟨hits p.offset g offset 0 (p.green.starts.zip p.green.children), pairwise_hits .., ?_, ?_⟩
  · intro i
    rw [mem_hits_iff, Green.occurs_iff hm, hoffset]
    simp only [getElem?_slots hwf]
    constructor
    · rintro ⟨start, c, ⟨hc, rfl⟩, hrest⟩
      exact ⟨c, hc, hrest⟩
    · rintro ⟨c, hc, hrest⟩
      exact ⟨_, c, ⟨hc, rfl⟩, hrest⟩
  · rw [placeBelow, Nav.bind_ok (Nav.placement_eq hp), hfound]
    rcases hits p.offset g offset 0 (p.green.starts.zip p.green.children) with _ | ⟨i, _ | ⟨j, is⟩⟩
    · rfl
    · rfl
    · rfl

theorem childAt_of_ok (he : child id i s = .ok (some cid) t) : childAt id i s = .ok cid t :=
  Nav.bind_ok he

theorem childAt_of_error {e : Failure} (he : child id i s = .error e t) :
    childAt id i s = .error e t :=
  Nav.bind_error he

theorem child_of_at (hs : s.Coherent) (h : s.At q id) (hc : s.At (q ++ [i]) cid) :
    child id i s = .ok (some cid) s := by
  obtain ⟨a, p, ha, hp, hparent, rfl⟩ := hc.of_concat hs
  obtain rfl := ha.id_unique hs h
  obtain ⟨-, r, -, hr, -, -, hmemo⟩ := hs.below hp hparent
  exact child_of_memo hr hmemo

theorem size_le_of_child {found : Option Nat} (he : child id i s = .ok found t) :
    t.placements.size ≤ s.placements.size + 1 := by
  rcases after_child s id i with hst | ⟨p, start, green, -, -, -, -, hst⟩
  · rw [← Nav.after_of_ok he, hst]
    exact Nat.le_succ _
  · rw [← Nav.after_of_ok he, hst, withChild, Array.size_modify, Array.size_push]

theorem placeBelow_of_unique (hs : s.Grounded) (h : s.At q id)
    (hi : ∀ j, s.root.Occurs q g offset j ↔ j = i) : placeBelow g offset id s = childAt id i s := by
  obtain ⟨c, hc, -⟩ := (hi i).mpr rfl
  obtain ⟨p, -, hm, -⟩ := h.holds hs.coherent hs.wellFormed
  obtain ⟨is, hlt, hmem, he⟩ := placeBelow_eq hs h hm g offset
  have hmem := fun j => (hmem j).trans (hi j)
  rcases is with _ | ⟨a, _ | ⟨b, is⟩⟩
  · exact nomatch (hmem i).mpr rfl
  · rw [he, (hmem a).mp List.mem_cons_self]
  · have hab := List.rel_of_pairwise_cons hlt List.mem_cons_self
    have ha := (hmem a).mp List.mem_cons_self
    have hb := (hmem b).mp (by simp)
    omega

theorem placeBelow_of_not_unique (hs : s.Grounded) (h : s.At q id)
    (hm : s.root.descend? q = some m) (hnot : ¬ ∃! i, s.root.Occurs q g offset i) :
    ((∀ i, ¬ s.root.Occurs q g offset i) ∧ placeBelow g offset id s =
        .error (.illegalShape m.kind (.noSuchChild g.kind offset)) s) ∨
      ∃ i j, i < j ∧ s.root.Occurs q g offset i ∧ s.root.Occurs q g offset j ∧
        (∀ k, s.root.Occurs q g offset k → k = i ∨ j ≤ k) ∧ placeBelow g offset id s =
          .error (.illegalShape m.kind (.ambiguousChild g.kind offset i j)) s := by
  obtain ⟨is, hlt, hmem, he⟩ := placeBelow_eq hs h hm g offset
  rcases is with _ | ⟨i, _ | ⟨j, is⟩⟩
  · exact .inl ⟨fun i hi => List.not_mem_nil ((hmem i).mpr hi), he⟩
  · have honly := fun k (hk : s.root.Occurs q g offset k) =>
      List.mem_singleton.mp ((hmem k).mpr hk)
    exact absurd ⟨i, (hmem i).mp List.mem_cons_self, honly⟩ hnot
  · obtain ⟨hfirst, hsecond⟩ := List.pairwise_cons.mp hlt
    refine .inr ⟨i, j, hfirst j List.mem_cons_self, (hmem i).mp List.mem_cons_self,
      (hmem j).mp (by simp), fun k hk => ?_, he⟩
    rcases List.mem_cons.mp ((hmem k).mpr hk) with rfl | hk
    · exact .inl rfl
    · rcases List.mem_cons.mp hk with rfl | hk
      · exact .inr (Nat.le_refl k)
      · exact .inr (Nat.le_of_lt (List.rel_of_pairwise_cons hsecond hk))

end Session

end LosslessSyntax
