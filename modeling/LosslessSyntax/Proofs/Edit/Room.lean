import LosslessSyntax.Proofs.Edit.Verdict
import LosslessSyntax.Proofs.Session.Explore

namespace LosslessSyntax

namespace Session

def Leads (qs : List (List Nat)) (edits : List Edit) : Prop :=
  ∀ e ∈ edits, ∀ r, r <+: e.path.indices → r ∈ qs

variable {s t new : Session} {qs : List (List Nat)} {edits : List Edit} {supply rest : Supply}

theorem holds_of_at {q : List Nat} {m : Green} {id : Nat} (hs : s.Coherent)
    (hroot : s.root.WellFormed) (h : s.At q id) (hm : s.root.descend? q = some m) :
    s.Holds id m (s.root.offsetAt q) := by
  obtain ⟨p, hp, hg, ho⟩ := h.holds hs hroot
  exact ⟨p, hp, Option.some.inj (hg.symm.trans hm), ho⟩

namespace Confined

theorem resolveEdit {e : Edit} (hs : Confined qs s) (he : e.Stands s.root)
    (hqs : ∀ r, r <+: e.path.indices → r ∈ qs) :
    ∃ t, e.resolve s = .ok (e.target s.root) t ∧ Explored s t ∧ Confined qs t := by
  obtain ⟨m, hm, hexp⟩ := he
  obtain ⟨id, t, ht, hst, hconfined, hat⟩ := hs.resolve hm hqs
  have hroot := hst.grown.root
  have hid := holds_of_at hconfined.coherent hconfined.wellFormed hat (hroot ▸ hm)
  rw [hroot] at hid
  exact ⟨t, Edit.resolve_of_holds hs.wellFormed hm ht hid hexp, hst, hconfined⟩

theorem resolveAll (hs : Confined qs s) (hstands : ∀ e ∈ edits, e.Stands s.root)
    (hqs : Leads qs edits) :
    ∃ t, Edit.resolveAll edits s = .ok (edits.map (Edit.target s.root)) t ∧ Explored s t := by
  induction edits generalizing s with
  | nil => exact ⟨s, rfl, .refl hs.coherent⟩
  | cons e es ih =>
      obtain ⟨he, hes⟩ := List.forall_mem_cons.mp hstands
      obtain ⟨hqe, hqes⟩ := List.forall_mem_cons.mp hqs
      obtain ⟨t, ht, hst, hconfined⟩ := hs.resolveEdit he hqe
      have hroot := hst.grown.root
      obtain ⟨u, hu, htu⟩ := ih hconfined (hroot ▸ hes) hqes
      rw [hroot] at hu
      refine ⟨u, ?_, hst.trans htu⟩
      have hrun : Edit.resolveAll (e :: es) s = _ := Nav.bind_ok ht
      rw [hrun, Nav.bind_ok hu]
      rfl

theorem completed (hs : Confined qs s) (hn : s.root.isNode = true)
    (hstands : ∀ e ∈ edits, e.Stands s.root) (hapart : edits.Pairwise Edit.Apart)
    (hqs : Leads qs edits) (hr : ∀ e ∈ edits, e.replacement.WellFormed) (supply : Supply) :
    Edit.Completed s.root edits (Nav.answer (apply edits supply) s) := by
  obtain ⟨t, ht, hst⟩ := hs.resolveAll hstands hqs
  rcases Edit.conflict?_sort hs.wellFormed hstands with ⟨e, f, hef, -⟩ | ⟨-, hc⟩
  · exact absurd hef (Edit.not_overlap_of_pairwise_apart hapart e f)
  · rw [answer_apply_of_no_conflict ht hc supply, Edit.sort_map_target, hst.grown.root]
    exact Edit.completed_of_replaceAll hs.wellFormed hn hstands hapart hr supply

end Confined

theorem explored_of_resolveEdit {e : Edit} {target : Target} (hs : s.Coherent)
    (hroot : s.root.WellFormed) (hok : e.resolve s = .ok target t) :
    Explored s t ∧ ∃ id, t.At e.path.indices id := by
  obtain ⟨id, u, hu, -⟩ := Nav.bind_eq_ok_iff.mp hok
  obtain ⟨hsu, hat⟩ := explored_of_descendFrom hs hroot .root hu
  rw [List.nil_append] at hat
  have hsame : u.root = s.root := hsu.grown.root
  obtain ⟨p, -, hm, -⟩ := hat.holds hsu.coherent (hsame ▸ hroot)
  have hid := holds_of_at hsu.coherent (hsame ▸ hroot) hat hm
  rw [hsame] at hm hid
  by_cases hexp : ∀ x, e.expected = some x → p.green.same x = true
  · cases hok.symm.trans (Edit.resolve_of_holds hroot hm hu hid hexp)
    exact ⟨hsu, id, hat⟩
  · obtain ⟨x, hx, hstale⟩ : ∃ x, e.expected = some x ∧ p.green.same x = false := by
      simpa only [not_forall, exists_prop, Bool.not_eq_true] using hexp
    exact nomatch hok.symm.trans (Edit.resolve_of_stale hroot hm hu hid hx hstale)

theorem explored_of_resolveAll {targets : List Target} (hs : s.Coherent)
    (hroot : s.root.WellFormed) (hok : Edit.resolveAll edits s = .ok targets t) :
    Explored s t ∧ ∀ e ∈ edits, ∃ id, t.At e.path.indices id := by
  induction edits generalizing s targets with
  | nil =>
      cases hok
      exact ⟨.refl hs, fun _ he => nomatch he⟩
  | cons e es ih =>
      obtain ⟨target, u, hu, hrest⟩ := Nav.bind_eq_ok_iff.mp hok
      obtain ⟨rest, v, hv, hlast⟩ := Nav.bind_eq_ok_iff.mp hrest
      cases hlast
      obtain ⟨hsu, id, hat⟩ := explored_of_resolveEdit hs hroot hu
      obtain ⟨hut, hall⟩ := ih hsu.coherent (hsu.grown.root ▸ hroot) hv
      exact ⟨hsu.trans hut, List.forall_mem_cons.mpr ⟨⟨id, hat.mono hut.grown⟩, hall⟩⟩

theorem leads_placed (ht : t.Coherent) (h : ∀ e ∈ edits, ∃ id, t.At e.path.indices id) :
    Leads t.placed edits := by
  rintro e he r ⟨js, hjs⟩
  obtain ⟨id, hat⟩ := h e he
  rw [← hjs] at hat
  exact (mem_placed_iff ht).mpr (hat.exists_of_append ht)

theorem explored_of_apply (hs : s.Reached)
    (h : Nav.answer (apply edits supply) s = .ok (new, rest)) :
    Explored s (Nav.after (apply edits supply) s) ∧
      Leads (Nav.after (apply edits supply) s).placed edits := by
  cases hrun : Edit.resolveAll edits s with
  | error e t =>
      have hv : validate edits s = .error e t := Nav.bind_error hrun
      exact nomatch (Nav.answer_of_error (Nav.bind_error hv)).symm.trans h
  | ok targets t =>
      rw [after_apply hrun]
      obtain ⟨hst, hall⟩ := explored_of_resolveAll hs.coherent hs.root_wellFormed hrun
      exact ⟨hst, leads_placed hst.coherent hall⟩

end Session

end LosslessSyntax
