import LosslessSyntax.Proofs.Green.Exact
import LosslessSyntax.Proofs.Green.Registry
import LosslessSyntax.Proofs.Green.Twin

namespace LosslessSyntax

namespace Green

mutual

def SameContent : Green → Green → Prop
  | token _ shape ds, token _ shape' ds' => shape = shape' ∧ ds = ds'
  | node _ kind _ cs ds, node _ kind' _ cs' ds' => kind = kind' ∧ ds = ds' ∧ SameContents cs cs'
  | _, _ => False

def SameContents : List Green → List Green → Prop
  | [], [] => True
  | c :: cs, b :: bs => SameContent c b ∧ SameContents cs bs
  | _, _ => False

end

variable {a b : Green} {as bs : List Green} {r : Registry}

theorem sameContents_iff : SameContents as bs ↔ List.Forall₂ SameContent as bs := by
  induction as generalizing bs with
  | nil => cases bs <;> simp [SameContents]
  | cons a as ih => cases bs <;> simp [SameContents, ih]

theorem Twin.sameContent (h : a.Twin b) : a.SameContent b := by
  induction h using Twin.induction with
  | token i j shape es => exact ⟨rfl, rfl⟩
  | node i j kind summary cs ds es _ hcs =>
      exact ⟨rfl, rfl, sameContents_iff.mpr (hcs.imp fun _ _ => Exists.snd)⟩

theorem SameContents.twins
    (ih : ∀ a ∈ as, ∀ b : Green, a.WellFormed → b.WellFormed → a.SameContent b → a.Twin b)
    (has : ∀ a ∈ as, a.WellFormed) (hbs : ∀ b ∈ bs, b.WellFormed) (h : SameContents as bs) :
    Twins as bs := by
  rw [sameContents_iff] at h
  induction h with
  | nil => exact .nil
  | cons hab _ ihas =>
      obtain ⟨ha, has⟩ := List.forall_mem_cons.mp has
      obtain ⟨hb, hbs⟩ := List.forall_mem_cons.mp hbs
      exact .cons (ih _ List.mem_cons_self _ ha hb hab)
        (ihas (fun c hc => ih c (List.mem_cons_of_mem _ hc)) has hbs)

theorem SameContent.twin (ha : a.WellFormed) (hb : b.WellFormed) (h : a.SameContent b) :
    a.Twin b := by
  induction a generalizing b with
  | token stamp shape ds =>
      cases b with
      | token stamp' shape' ds' =>
          obtain ⟨rfl, rfl⟩ := h
          rfl
      | node stamp' kind' summary' bs ds' => exact h.elim
  | node stamp kind summary cs ds ih =>
      cases b with
      | token stamp' shape' ds' => exact h.elim
      | node stamp' kind' summary' bs ds' =>
          obtain ⟨rfl, rfl, hcs⟩ := h
          have htwins := hcs.twins (fun c hc b hcw hbw => ih c hc hcw hbw)
            (fun c hc => ha.of_mem_children hc) (fun b hc => hb.of_mem_children hc)
          exact unstamped_eq_of_children hb ha rfl rfl rfl rfl (twins_iff.mp htwins)

theorem twins_of_allAlike
    (ih : ∀ a ∈ as, ∀ b : Green, r.Lists a → r.Lists b → a.alike b = true → a.Twin b)
    (has : ∀ a ∈ as, r.Lists a) (hbs : ∀ b ∈ bs, r.Lists b) (h : allAlike as bs = true) :
    Twins as bs := by
  induction as generalizing bs with
  | nil =>
      cases bs with
      | nil => exact .nil
      | cons b bs => exact nomatch h
  | cons a as ihas =>
      cases bs with
      | nil => exact nomatch h
      | cons b bs =>
          rw [allAlike, Bool.and_eq_true] at h
          obtain ⟨ha, has⟩ := List.forall_mem_cons.mp has
          obtain ⟨hb, hbs⟩ := List.forall_mem_cons.mp hbs
          exact .cons (ih a List.mem_cons_self b ha hb h.1)
            (ihas (fun c hc => ih c (List.mem_cons_of_mem _ hc)) has hbs h.2)

theorem twin_of_alike (ha : r.Lists a) (hb : r.Lists b) (h : a.alike b = true) : a.Twin b := by
  induction a generalizing b with
  | token stamp shape ds =>
      cases b with
      | token stamp' shape' ds' =>
          simp only [Green.alike, Bool.or_eq_true, Bool.and_eq_true, beq_iff_eq] at h
          rcases h with hstamp | ⟨rfl, rfl⟩
          · rw [ha.eq_of_stamp_eq hb hstamp]
            rfl
          · rfl
      | node stamp' kind' summary' bs ds' => cases h
  | node stamp kind summary cs ds ih =>
      cases b with
      | token stamp' shape' ds' => cases h
      | node stamp' kind' summary' bs ds' =>
          simp only [Green.alike, Bool.or_eq_true, Bool.and_eq_true, beq_iff_eq] at h
          rcases h with hstamp | ⟨⟨⟨rfl, rfl⟩, hcs⟩, rfl⟩
          · rw [ha.eq_of_stamp_eq hb hstamp]
            rfl
          · exact twin_node (twins_of_allAlike (fun c hc b hcl hbl => ih c hc hcl hbl)
              (fun c hc => ha.of_mem_children hc) (fun b hc => hb.of_mem_children hc) hcs)

theorem contentHashes_eq (h : List.Forall₂ (fun a b => a.contentHash = b.contentHash) as bs) :
    contentHashes as = contentHashes bs := by
  induction h with
  | nil => rfl
  | cons hab _ ih => rw [contentHashes, contentHashes, hab, ih]

theorem Twin.contentHash_eq (h : a.Twin b) : a.contentHash = b.contentHash := by
  induction h using Twin.induction with
  | token i j shape es => rfl
  | node i j kind summary cs ds es _ hcs =>
      rw [contentHash, contentHash, contentHashes_eq (hcs.imp fun _ _ => Exists.snd)]

section Commute

variable {kind : Kind} {cs : List Green} {ds : List Diagnostic} {stamp index : Nat}
  {replacement made : Green} {supply rest : Supply}

theorem attach_summarized (stamp : Nat) (kind : Kind) (cs : List Green) (ds : List Diagnostic)
    (d : Diagnostic) (supply : Supply) :
    (node stamp kind (summarize cs ds) cs ds).attach d supply =
      .ok (node supply.next kind (summarize cs (ds ++ [d])) cs (ds ++ [d]), ⟨supply.next + 1⟩) :=
  rfl

theorem replaceChild_summarized (hi : index < cs.length)
    (hcs : ∀ c ∈ cs.set index replacement, c.WellFormed) (stamp : Nat) (kind : Kind)
    (ds : List Diagnostic) (supply : Supply) :
    (node stamp kind (summarize cs ds) cs ds).replaceChild index replacement supply =
      if widths (cs.set index replacement) ≤ maxSize then
        .ok (node supply.next kind (summarize (cs.set index replacement) ds)
          (cs.set index replacement) ds, ⟨supply.next + 1⟩)
      else .error (.illegalShape kind .widthOverflow) :=
  (replaceChild_eq hi replacement).trans (assemble_eq kind hcs ds supply)

theorem child?_of_childAt {g c : Green} (h : g.childAt index = .ok c) : g.child? index = some c := by
  rw [childAt] at h
  split at h
  · rename_i hc
    rw [hc, Except.ok.inj h]
  · cases h

theorem attach_replaceChild_comm {g : Green} (hg : g.WellFormed) (hr : replacement.WellFormed)
    (h : g.replaceChild index replacement supply = .ok (made, rest)) (d : Diagnostic)
    (supply' : Supply) :
    ∃ a b last last',
      (g.attach d >>= (·.replaceChild index replacement)) supply' = .ok (a, last) ∧
        (g.replaceChild index replacement >>= (·.attach d)) supply = .ok (b, last') ∧
        a.Twin b := by
  obtain ⟨old, next, hold, -⟩ := Mint.bind_eq_ok_iff.mp h
  have hold := child?_of_childAt (Mint.ofExcept_eq_ok_iff.mp hold).1
  cases hg with
  | token hw hm => exact nomatch hold
  | @node stamp kind cs ds hcs hw =>
      have hi : index < cs.length := (List.getElem?_eq_some_iff.mp hold).1
      have hset : ∀ c ∈ cs.set index replacement, c.WellFormed := by
        intro c hc
        rcases List.mem_or_eq_of_mem_set hc with hc | rfl
        · exact hcs c hc
        · exact hr
      have hreplace := replaceChild_summarized hi hset
      rw [hreplace] at h
      split at h
      · rename_i hle
        simp only [if_pos hle] at hreplace
        rw [Mint.bind_ok (attach_summarized stamp kind cs ds d supply'),
          Mint.bind_ok (hreplace stamp kind ds supply), hreplace, attach_summarized]
        exact ⟨_, _, _, _, rfl, rfl, rfl⟩
      · exact nomatch h

end Commute

end Green

end LosslessSyntax
