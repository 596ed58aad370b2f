import LosslessSyntax.Proofs.Session.Fits
import LosslessSyntax.Proofs.Text.Lossless

namespace LosslessSyntax

def Green.Accepts (g : Green) (accept : Green → Bool) (q : List Nat) : Prop :=
  ∃ m, g.descend? q = some m ∧ m.isNode = false ∧ accept m = true

namespace Session

inductive Earliest (s : Session) (id : Nat) (P : List Nat → Prop) : Option Nat → Prop
  | absent : (∀ q, ¬ P q) → Earliest s id P none
  | found {q : List Nat} {a : Nat} :
      s.Under id q a → P q → (∀ r, P r → q ≤ r) → Earliest s id P (some a)

variable {s t : Session} {id i : Nat} {p : Placement} {accept : Green → Bool} {g : Green}
  {cs : List Green} {found : Option Nat}

theorem Earliest.congr {P Q : List Nat → Prop} (h : s.Earliest id P found) (hPQ : ∀ q, P q ↔ Q q) :
    s.Earliest id Q found := by
  cases h with
  | absent hnone => exact .absent fun q hq => hnone q ((hPQ q).mpr hq)
  | found hunder hq hleast =>
      exact .found hunder ((hPQ _).mp hq) fun r hr => hleast r ((hPQ r).mpr hr)

theorem head_of_le {q : List Nat} (h : [i] ≤ q) : ∃ j r, q = j :: r ∧ i ≤ j := by
  cases q with
  | nil => exact absurd h (by simp)
  | cons j r =>
      refine ⟨j, r, rfl, ?_⟩
      by_contra hlt
      exact absurd (List.cons_lt_cons_iff.mpr (.inl (Nat.not_le.mp hlt))) (not_lt.mpr h)

theorem le_of_head {j : Nat} (r : List Nat) (h : i ≤ j) : [i] ≤ j :: r := by
  rw [← not_lt, List.cons_lt_cons_iff]
  rintro (hlt | ⟨-, hlt⟩)
  · omega
  · exact absurd hlt (List.not_lt_nil _)

theorem accepts_cons_iff {c : Green} {r : List Nat} (hc : g.child? i = some c) :
    g.Accepts accept (i :: r) ↔ c.Accepts accept r := by
  simp only [Green.Accepts, Green.descend?_cons, hc, Option.bind_some]

theorem not_accepts_of_child_none {j : Nat} {r : List Nat} (hc : g.child? j = none) :
    ¬ g.Accepts accept (j :: r) := by
  rintro ⟨m, hm, -⟩
  rw [Green.descend?_cons, hc] at hm
  exact nomatch hm

section First

def FindsFirst (accept : Green → Bool) (g : Green) : Prop :=
  ∀ {s t : Session} {id : Nat} {p : Placement} {found : Option Nat}, s.Coherent →
    s.placements[id]? = some p → p.Sized → p.green = g →
    firstTokenIn accept id g s = .ok found t →
    t.Coherent ∧ Extends s t ∧ t.Earliest id (g.Accepts accept) found

theorem earliest_among (ih : ∀ c ∈ cs, FindsFirst accept c) (hs : s.Coherent)
    (hp : s.placements[id]? = some p) (hsized : p.Sized) (hcs : p.green.ChildrenFrom i cs)
    (hok : firstTokenAmong accept id i cs s = .ok found t) :
    t.Coherent ∧ Extends s t ∧
      t.Earliest id (fun q => [i] ≤ q ∧ p.green.Accepts accept q) found := by
  induction cs generalizing s p i with
  | nil =>
      cases hok
      refine ⟨hs, .refl _, .absent ?_⟩
      rintro q ⟨hle, hq⟩
      obtain ⟨j, r, rfl, hij⟩ := head_of_le hle
      obtain ⟨k, rfl⟩ := Nat.exists_eq_add_of_le hij
      exact not_accepts_of_child_none (hcs k) hq
  | cons c cs ihcs =>
      have hc := hcs.head
      obtain ⟨asked, u, hasked, hrest⟩ := Nav.bind_eq_ok_iff.mp hok
      obtain ⟨hu, hsu, hsome, hunder⟩ := (childAnswer hs hp hsized i).of_ok hs hasked
      rw [hc] at hsome
      obtain ⟨cid, rfl⟩ := Option.isSome_iff_exists.mp hsome
      obtain ⟨p', hp', hsized', hgreen, -⟩ := hsu.sized hp hsized
      obtain ⟨r, hr, hrsized, hrgreen⟩ := (hunder cid rfl).holds_child hu hp' hsized'
        (hgreen ▸ hc)
      obtain ⟨inside, v, hinside, hrest⟩ := Nav.bind_eq_ok_iff.mp hrest
      obtain ⟨hv, huv, hearliest⟩ := ih c List.mem_cons_self hu hr hrsized hrgreen hinside
      have hsv := hsu.trans huv
      cases hearliest with
      | found hbelow hq hleast =>
          cases hrest
          refine ⟨hv, hsv, .found (((hunder cid rfl).mono huv).trans hbelow)
            ⟨le_of_head _ (Nat.le_refl i), (accepts_cons_iff hc).mpr hq⟩ ?_⟩
          rintro q ⟨hle, hq⟩
          obtain ⟨j, r, rfl, hij⟩ := head_of_le hle
          rcases Nat.eq_or_lt_of_le hij with rfl | hlt
          · exact List.cons_le_cons i (hleast r ((accepts_cons_iff hc).mp hq))
          · exact le_of_lt (List.cons_lt_cons_iff.mpr (.inl hlt))
      | absent hnone =>
          obtain ⟨p'', hp'', hsized'', hsame, -⟩ := hsv.sized hp hsized
          obtain ⟨ht, hvt, hfound⟩ := ihcs (fun b hb => ih b (List.mem_cons_of_mem c hb)) hv hp''
            hsized'' (hsame ▸ hcs.tail) hrest
          rw [hsame] at hfound
          refine ⟨ht, hsv.trans hvt, hfound.congr fun q => and_congr_left fun hq => ?_⟩
          -- no token below the child itself would do
          constructor
          · intro hle
            obtain ⟨j, r, rfl, hij⟩ := head_of_le hle
            exact le_of_head r (Nat.le_of_succ_le hij)
          · intro hle
            obtain ⟨j, r, rfl, hij⟩ := head_of_le hle
            refine le_of_head r (Nat.lt_of_le_of_ne hij ?_)
            rintro rfl
            exact hnone r ((accepts_cons_iff hc).mp hq)

theorem findsFirst (accept : Green → Bool) (g : Green) : FindsFirst accept g := by
  induction g with
  | token stamp shape ds =>
      intro s t id p found hs hp hsized hg hok
      cases hok
      refine ⟨hs, .refl _, ?_⟩
      by_cases haccept : accept (.token stamp shape ds) = true
      · rw [if_pos haccept]
        exact .found .self ⟨_, rfl, rfl, haccept⟩ fun r _ => not_lt.mp (List.not_lt_nil r)
      · rw [if_neg haccept]
        refine .absent ?_
        rintro (_ | ⟨j, r⟩) ⟨m, hm, -, hm'⟩
        · exact haccept (Option.some.inj hm ▸ hm')
        · exact nomatch hm
  | node stamp kind summary cs ds ih =>
      intro s t id p found hs hp hsized hg hok
      obtain ⟨ht, hst, hfound⟩ := earliest_among ih hs hp hsized
        (hg ▸ Green.childrenFrom_zero (.node stamp kind summary cs ds)) hok
      refine ⟨ht, hst, hfound.congr fun q => ?_⟩
      rw [hg, and_iff_right_iff_imp]
      rintro ⟨m, hm, hnode, -⟩
      cases q with
      | nil =>
          obtain rfl := Option.some.inj hm
          exact nomatch hnode
      | cons j r => exact le_of_head r (Nat.zero_le j)

end First

section Last

def FindsAccepted (accept : Green → Bool) (g : Green) : Prop :=
  ∀ {s t : Session} {id a : Nat} {p : Placement}, s.Coherent → s.placements[id]? = some p →
    p.Sized → p.green = g → lastTokenIn accept id g s = .ok (some a) t →
    ∃ q, t.Under id q a ∧ g.Accepts accept q

theorem coherent_of_lastTokenAmong (hs : s.Coherent)
    (hok : lastTokenAmong accept id i cs s = .ok found t) : t.Coherent ∧ Extends s t := by
  have hfinding : Nav.Finding [] (lastTokenAmong accept id i cs) Option.toList :=
    .lastTokenAmong (fun c _ id => .lastTokenIn accept id c) id i
  have hmoves := (hfinding s hs nofun).1
  rw [Nav.after_of_ok hok] at hmoves
  exact hs.moves hmoves

theorem accepted_among (ih : ∀ c ∈ cs, FindsAccepted accept c) (hs : s.Coherent)
    (hp : s.placements[id]? = some p) (hsized : p.Sized) (hcs : p.green.ChildrenFrom i cs) {a : Nat}
    (hok : lastTokenAmong accept id i cs s = .ok (some a) t) :
    ∃ q, t.Under id q a ∧ p.green.Accepts accept q := by
  induction cs generalizing s p i with
  | nil => exact nomatch hok
  | cons c cs ihcs =>
      have hrest : ∀ b ∈ cs, FindsAccepted accept b :=
        fun b hb => ih b (List.mem_cons_of_mem c hb)
      obtain ⟨later, u, hlater, hok⟩ := Nav.bind_eq_ok_iff.mp hok
      cases later with
      | some b =>
          cases hok
          exact ihcs hrest hs hp hsized hcs.tail hlater
      | none =>
          have hc := hcs.head
          obtain ⟨hu, hsu⟩ := coherent_of_lastTokenAmong hs hlater
          obtain ⟨p', hp', hsized', hgreen, -⟩ := hsu.sized hp hsized
          obtain ⟨asked, v, hasked, hok⟩ := Nav.bind_eq_ok_iff.mp hok
          obtain ⟨hv, huv, -, hunder⟩ := (childAnswer hu hp' hsized' i).of_ok hu hasked
          cases asked with
          | none => exact nomatch hok
          | some cid =>
              obtain ⟨p'', hp'', hsized'', hgreen', -⟩ := huv.sized hp' hsized'
              have hsame := hgreen'.trans hgreen
              obtain ⟨r, hr, hrsized, hrgreen⟩ := (hunder cid rfl).holds_child hv hp'' hsized''
                (hsame ▸ hc)
              obtain ⟨q, hbelow, hq⟩ := ih c List.mem_cons_self hv hr hrsized hrgreen hok
              have hvt : Extends v t := by
                have hmoves := (Nav.Finding.lastTokenIn accept cid c v hv
                  (List.forall_mem_singleton.mpr (lt_size_of_getElem? hr))).1
                rw [Nav.after_of_ok hok] at hmoves
                exact (hv.moves hmoves).2
              exact ⟨i :: q, ((hunder cid rfl).mono hvt).trans hbelow, (accepts_cons_iff hc).mpr hq⟩

theorem findsAccepted (accept : Green → Bool) (g : Green) : FindsAccepted accept g := by
  induction g with
  | token stamp shape ds =>
      intro s t id a p hs hp hsized hg hok
      obtain ⟨hfound, rfl⟩ := EStateM.Result.ok.inj hok
      by_cases haccept : accept (.token stamp shape ds) = true
      · rw [if_pos haccept] at hfound
        obtain rfl := Option.some.inj hfound
        exact ⟨[], .self, _, rfl, rfl, haccept⟩
      · rw [if_neg haccept] at hfound
        exact nomatch hfound
  | node stamp kind summary cs ds ih =>
      intro s t id a p hs hp hsized hg hok
      exact hg ▸ accepted_among ih hs hp hsized
        (hg ▸ Green.childrenFrom_zero (.node stamp kind summary cs ds)) hok

end Last

section Opening

variable {q r : List Nat} {a b : Nat} {pa pb : Placement}

theorem Under.holds_token (hs : s.Coherent) (h : s.Under id q a)
    (hp : s.placements[id]? = some p) (hsized : p.Sized) (hq : p.green.Accepts accept q) :
    ∃ r stamp shape ds, s.placements[a]? = some r ∧ r.Sized ∧
      r.green = .token stamp shape ds ∧ r.offset = p.offset + p.green.offsetAt q ∧
      p.green.descend? q = some (.token stamp shape ds) := by
  obtain ⟨m, hm, hnode, -⟩ := hq
  obtain ⟨r, hr, hrsized, -⟩ := h.stop_le hs hp hsized
  obtain ⟨r', hr', hm', hoffset⟩ := h.holds hs hp hsized.wellFormed
  obtain rfl := Option.some.inj (hr.symm.trans hr')
  rw [hm'] at hm
  obtain rfl := Option.some.inj hm
  cases hg : r.green with
  | node _ _ _ _ _ => exact nomatch (hg ▸ hnode : (Green.node _ _ _ _ _).isNode = false)
  | token stamp shape ds => exact ⟨r, stamp, shape, ds, hr, hrsized, hg, hoffset, hg ▸ hm'⟩

theorem range_opens_before_it_closes (hs : s.Coherent) (hp : s.placements[id]? = some p)
    (hsized : p.Sized) (ha : s.Under id q a) (hb : s.Under id r b) (hq : p.green.Accepts accept q)
    (hr : p.green.Accepts accept r) (hle : q ≤ r) :
    ∃ pa pb opening closing, s.placements[a]? = some pa ∧ s.placements[b]? = some pb ∧
      pa.tokenTextRange = .ok opening ∧ pb.tokenTextRange = .ok closing ∧
      opening.start ≤ closing.stop := by
  obtain ⟨pa, stamp, shape, ds, hpa, hasized, hga, hoa, hma⟩ := ha.holds_token hs hp hsized hq
  obtain ⟨pb, stamp', shape', ds', hpb, hbsized, hgb, hob, hmb⟩ := hb.holds_token hs hp hsized hr
  have hamax := hasized.stop_le
  have hbmax := hbsized.stop_le
  rw [hga] at hamax
  rw [hgb] at hbmax
  refine ⟨pa, pb, _, _, hpa, hpb, Placement.tokenTextRange_eq hga hamax,
    Placement.tokenTextRange_eq hgb hbmax, ?_⟩
  dsimp only
  rcases lt_or_eq_of_le hle with hlt | rfl
  · have hprefix : ¬ q <+: r := by
      rintro ⟨k, rfl⟩
      rw [Green.descend?_append, hma, Option.bind_some] at hmb
      cases k with
      | nil => exact absurd hlt (by simp)
      | cons i k => exact nomatch hmb
    have hapart := Green.offsetAt_add_width_le_offsetAt hsized.wellFormed hma hmb hlt hprefix
    have hwidth : (Green.token stamp shape ds).width =
        shape.leading + shape.text + shape.trailing := rfl
    omega
  · obtain ⟨-, hshape, -⟩ := Green.token.inj (Option.some.inj (hma.symm.trans hmb))
    rw [hoa, hob, hshape]
    omega

end Opening

end Session

end LosslessSyntax
