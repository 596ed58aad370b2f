import LosslessSyntax.Proofs.Green.Mint
import LosslessSyntax.Proofs.Green.WellFormed

namespace LosslessSyntax

structure TokenShape.Fits (shape : TokenShape) : Prop where
  width_le : shape.width ≤ maxSize
  missing : shape.missing = true → shape.width = 0

theorem TokenShape.fits_of_le {kind : Kind} {leading text trailing : Nat}
    (h : leading + text + trailing ≤ maxSize) :
    (TokenShape.mk kind leading text trailing false).Fits :=
  ⟨h, fun hm => nomatch hm⟩

theorem TokenShape.fits_absent (kind : Kind) : (TokenShape.absent kind).Fits :=
  ⟨Nat.zero_le _, fun _ => rfl⟩

namespace Green

def Before (g : Green) (supply : Supply) : Prop := g.stamp < supply.next

structure Sound (supply : Supply) (g : Green) : Prop where
  wellFormed : g.WellFormed
  before : ∀ {q : List Nat} {m : Green}, g.descend? q = some m → m.Before supply

structure Made (supply : Supply) (g : Green) (rest : Supply) : Prop where
  sound : g.Sound rest
  next_le : supply.next ≤ rest.next

variable {g c : Green} {cs : List Green} {supply rest : Supply}

theorem Sound.mono (h : g.Sound supply) (hle : supply.next ≤ rest.next) : g.Sound rest := by
  refine ⟨h.wellFormed, ?_⟩
  intro q m hm
  exact Nat.lt_of_lt_of_le (h.before hm) hle

theorem Sound.of_mem_children (h : g.Sound supply) (hc : c ∈ g.children) : c.Sound supply := by
  refine ⟨h.wellFormed.of_mem_children hc, ?_⟩
  intro q m hm
  obtain ⟨i, hi⟩ := List.getElem?_of_mem hc
  exact h.before (descend?_cons_eq_some_iff.mpr ⟨c, hi, hm⟩)

theorem sound_token {stamp : Nat} {shape : TokenShape} {ds : List Diagnostic}
    (hwf : (token stamp shape ds).WellFormed) (hstamp : stamp < supply.next) :
    (token stamp shape ds).Sound supply := by
  refine ⟨hwf, ?_⟩
  intro q m hm
  cases q with
  | nil => exact Option.some.inj hm ▸ hstamp
  | cons i q => exact nomatch hm

theorem sound_node {stamp : Nat} {kind : Kind} {summary : Summary} {ds : List Diagnostic}
    (hwf : (node stamp kind summary cs ds).WellFormed) (hstamp : stamp < supply.next)
    (hcs : ∀ c ∈ cs, c.Sound supply) : (node stamp kind summary cs ds).Sound supply := by
  refine ⟨hwf, ?_⟩
  intro q m hm
  cases q with
  | nil => exact Option.some.inj hm ▸ hstamp
  | cons i q =>
      obtain ⟨c, hc, hm⟩ := descend?_cons_eq_some_iff.mp hm
      exact (hcs c (List.mem_of_getElem? hc)).before hm

theorem made_of_ofShape {shape : TokenShape} (hs : shape.Fits)
    (h : ofShape shape supply = .ok (g, rest)) : g.Made supply rest := by
  cases h
  exact ⟨sound_token (.token hs.width_le hs.missing) (Nat.lt_succ_self _), Nat.le_succ _⟩

theorem made_of_assemble {kind : Kind} {ds : List Diagnostic} (hcs : ∀ c ∈ cs, c.Sound supply)
    (h : assemble kind cs ds supply = .ok (g, rest)) : g.Made supply rest := by
  have hwf := WellFormed.of_assemble (fun c hc => (hcs c hc).wellFormed) h
  obtain ⟨summary, rfl, rfl⟩ := assemble_eq_ok h
  refine ⟨sound_node hwf (Nat.lt_succ_self _) ?_, Nat.le_succ _⟩
  intro c hc
  exact (hcs c hc).mono (Nat.le_succ _)

theorem made_of_ofFittingChildren {kind : Kind} (hcs : ∀ c ∈ cs, c.Sound supply)
    (h : ofFittingChildren kind cs supply = .ok (g, rest)) : g.Made supply rest := by
  rw [ofFittingChildren] at h
  split at h
  · exact nomatch h
  · exact made_of_assemble hcs h

theorem made_of_replaceChild {index : Nat} {replacement c : Green} (hg : g.Sound supply)
    (hr : replacement.Sound supply)
    (h : g.replaceChild index replacement supply = .ok (c, rest)) : c.Made supply rest := by
  obtain ⟨old, next, hchild, h⟩ := Mint.bind_eq_ok_iff.mp h
  obtain ⟨-, rfl⟩ := Mint.ofExcept_eq_ok_iff.mp hchild
  refine made_of_assemble ?_ h
  intro d hd
  rcases List.mem_or_eq_of_mem_set hd with hd | rfl
  · exact hg.of_mem_children hd
  · exact hr

theorem made_of_attach {d : Diagnostic} (hg : g.Sound supply)
    (h : g.attach d supply = .ok (c, rest)) : c.Made supply rest := by
  have hwf := hg.wellFormed
  cases hwf with
  | token hw hm =>
      cases h
      exact ⟨sound_token (.token hw hm) (Nat.lt_succ_self _), Nat.le_succ _⟩
  | node hcs hw =>
      cases h
      refine ⟨sound_node (.node hcs hw) (Nat.lt_succ_self _) ?_, Nat.le_succ _⟩
      intro b hb
      exact (hg.of_mem_children hb).mono (Nat.le_succ _)

end Green

end LosslessSyntax
