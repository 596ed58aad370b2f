import LosslessSyntax.Green.Content
import LosslessSyntax.Proofs.Green.WellFormed

namespace LosslessSyntax

namespace Green

mutual

def unstamped : Green → Green
  | token _ shape ds => token 0 shape ds
  | node _ kind summary cs ds => node 0 kind summary (unstampedAll cs) ds

def unstampedAll : List Green → List Green
  | [] => []
  | c :: cs => c.unstamped :: unstampedAll cs

end

variable {a b c : Green} {as bs cs : List Green} {ds : List Diagnostic}

theorem unstampedAll_eq_map (cs : List Green) : unstampedAll cs = cs.map unstamped := by
  induction cs with
  | nil => rfl
  | cons c cs ih => rw [unstampedAll, ih, List.map_cons]

theorem width_unstamped (g : Green) : g.unstamped.width = g.width := by
  cases g <;> rfl

theorem containsMissing_unstamped (g : Green) :
    g.unstamped.containsMissing = g.containsMissing := by
  cases g <;> rfl

theorem containsDiagnostics_unstamped (g : Green) :
    g.unstamped.containsDiagnostics = g.containsDiagnostics := by
  cases g <;> rfl

theorem startsFrom_unstampedAll (start : Nat) (cs : List Green) :
    startsFrom start (unstampedAll cs) = startsFrom start cs := by
  induction cs generalizing start with
  | nil => rfl
  | cons c cs ih => rw [unstampedAll, startsFrom, startsFrom, ih, width_unstamped]

theorem summarize_unstampedAll (cs : List Green) (ds : List Diagnostic) :
    summarize (unstampedAll cs) ds = summarize cs ds := by
  have hwidths : widths (unstampedAll cs) = widths cs := by
    rw [unstampedAll_eq_map, widths, List.map_map, widths]
    exact congrArg List.sum (List.map_congr_left fun c _ => width_unstamped c)
  have hmissing : (unstampedAll cs).any containsMissing = cs.any containsMissing := by
    rw [unstampedAll_eq_map, List.any_map]
    exact congrArg cs.any (funext containsMissing_unstamped)
  have hdiagnostics : (unstampedAll cs).any containsDiagnostics = cs.any containsDiagnostics := by
    rw [unstampedAll_eq_map, List.any_map]
    exact congrArg cs.any (funext containsDiagnostics_unstamped)
  rw [summarize, summarize, hwidths, startsFrom_unstampedAll, hmissing, hdiagnostics]

theorem unstamped_eq_of_children (ha : a.WellFormed) (hb : b.WellFormed)
    (hna : a.isNode = true) (hnb : b.isNode = true) (hkind : b.kind = a.kind)
    (hds : b.diagnostics = a.diagnostics)
    (hcs : unstampedAll b.children = unstampedAll a.children) : b.unstamped = a.unstamped := by
  cases ha with
  | token hw hm => exact nomatch hna
  | @node stamp kind cs ds _ _ =>
      cases hb with
      | token hw hm => exact nomatch hnb
      | @node stamp' kind' bs es _ _ =>
          obtain rfl : kind' = kind := hkind
          obtain rfl : es = ds := hds
          have hsummary := congrArg (summarize · es) hcs
          simp only [children, summarize_unstampedAll] at hsummary
          rw [unstamped, unstamped, hsummary]
          exact congrArg (node 0 kind' _ · es) hcs

theorem allAlike_of_unstampedAll_eq
    (ih : ∀ a ∈ as, ∀ b : Green, a.unstamped = b.unstamped → alike a b = true)
    (h : unstampedAll as = unstampedAll bs) : allAlike as bs = true := by
  induction as generalizing bs with
  | nil =>
      cases bs with
      | nil => rfl
      | cons b bs => exact nomatch h
  | cons a as ihas =>
      cases bs with
      | nil => exact nomatch h
      | cons b bs =>
          rw [unstampedAll, unstampedAll, List.cons.injEq] at h
          have hhead := ih a List.mem_cons_self b h.1
          have htail := ihas (fun c hc => ih c (List.mem_cons_of_mem a hc)) h.2
          rw [allAlike, hhead, htail, Bool.true_and]

theorem alike_of_unstamped_eq (h : a.unstamped = b.unstamped) : alike a b = true := by
  induction a generalizing b with
  | token stamp shape ds =>
      cases b with
      | token stamp' shape' ds' =>
          rw [unstamped, unstamped, token.injEq] at h
          simp [alike, h.2.1, h.2.2]
      | node stamp' kind' summary' cs' ds' => exact nomatch h
  | node stamp kind summary cs ds ih =>
      cases b with
      | token stamp' shape' ds' => exact nomatch h
      | node stamp' kind' summary' cs' ds' =>
          rw [unstamped, unstamped, node.injEq] at h
          obtain ⟨-, rfl, rfl, hcs, rfl⟩ := h
          have hchildren := allAlike_of_unstampedAll_eq ih hcs
          simp [alike, hchildren]

end Green

end LosslessSyntax
