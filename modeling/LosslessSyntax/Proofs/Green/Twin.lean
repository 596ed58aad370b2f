import LosslessSyntax.Proofs.Green.Content
import LosslessSyntax.Proofs.Green.Mint
import LosslessSyntax.Shape
import Mathlib.Data.List.Forall2

namespace LosslessSyntax

section Rel

variable {α β γ : Type} {R : α → β → Prop} {xs : List α} {ys : List β} {x : Option α}
  {y : Option β} {z : Option γ}

theorem rel_cases (h : Option.Rel R x y) :
    (x = none ∧ y = none) ∨ ∃ a b, x = some a ∧ y = some b ∧ R a b := by
  cases h with
  | none => exact .inl ⟨rfl, rfl⟩
  | some h => exact .inr ⟨_, _, rfl, rfl, h⟩

theorem rel_refl {R : α → α → Prop} (h : ∀ a, R a a) (x : Option α) : Option.Rel R x x := by
  cases x with
  | none => exact .none
  | some a => exact .some (h a)

theorem rel_imp {S : α → β → Prop} (h : Option.Rel R x y) (hRS : ∀ a b, R a b → S a b) :
    Option.Rel S x y := by
  cases h with
  | none => exact .none
  | some h => exact .some (hRS _ _ h)

theorem rel_trans {S : β → γ → Prop} {T : α → γ → Prop} (h : Option.Rel R x y)
    (h' : Option.Rel S y z) (hT : ∀ a b c, R a b → S b c → T a c) : Option.Rel T x z := by
  cases h with
  | none =>
      cases h'
      exact .none
  | some h =>
      cases h' with
      | some h' => exact .some (hT _ _ _ h h')

theorem rel_getElem? (h : List.Forall₂ R xs ys) (i : Nat) : Option.Rel R xs[i]? ys[i]? := by
  induction h generalizing i with
  | nil => exact .none
  | cons hxy _ ih =>
      cases i with
      | zero => exact .some hxy
      | succ i => exact ih i

theorem forall₂_set (h : List.Forall₂ R xs ys) (i : Nat) {a : α} {b : β} (hab : R a b) :
    List.Forall₂ R (xs.set i a) (ys.set i b) := by
  induction h generalizing i with
  | nil => exact .nil
  | cons hxy h ih =>
      cases i with
      | zero => exact .cons hab h
      | succ i => exact .cons hxy (ih i)

end Rel

namespace Mint

variable {α β γ δ : Type}

def Agree (R : α → β → Prop) (m : Mint α) (m' : Mint β) : Prop :=
  ∀ supply supply',
    (∃ e, m supply = .error e ∧ m' supply' = .error e) ∨
      ∃ a b rest rest', m supply = .ok (a, rest) ∧ m' supply' = .ok (b, rest') ∧ R a b ∧
        supply.next ≤ rest.next

namespace Agree

variable {R : α → β → Prop} {T : γ → δ → Prop} {m : Mint α} {m' : Mint β}

theorem pure {a : α} {b : β} (h : R a b) : Agree R (pure a) (pure b) :=
  fun supply supply' => .inr ⟨a, b, supply, supply', rfl, rfl, h, Nat.le_refl _⟩

theorem fail (e : Failure) : Agree R (fail e) (fail e) := fun _ _ => .inl ⟨e, rfl, rfl⟩

theorem ofExcept (x : Except Failure α) : Agree Eq (ofExcept x) (ofExcept x) := by
  cases x with
  | error e => exact fail e
  | ok a => exact pure rfl

theorem stamp : Agree (fun _ _ => True) stamp stamp :=
  fun _ _ => .inr ⟨_, _, _, _, rfl, rfl, trivial, Nat.le_succ _⟩

theorem bind {f : α → Mint γ} {f' : β → Mint δ} (h : Agree R m m')
    (hf : ∀ a b, R a b → Agree T (f a) (f' b)) : Agree T (m >>= f) (m' >>= f') := by
  intro supply supply'
  rcases h supply supply' with ⟨e, hm, hm'⟩ | ⟨a, b, rest, rest', hm, hm', hR, hle⟩
  · exact .inl ⟨e, bind_error hm, bind_error hm'⟩
  · rw [bind_ok hm, bind_ok hm']
    rcases hf a b hR rest rest' with hfail | ⟨c, d, last, last', hc, hd, hT, hle'⟩
    · exact .inl hfail
    · exact .inr ⟨c, d, last, last', hc, hd, hT, Nat.le_trans hle hle'⟩

end Agree

end Mint

namespace Green

def Twin (a b : Green) : Prop := a.unstamped = b.unstamped

abbrev Twins : List Green → List Green → Prop := List.Forall₂ Twin

def TwinAt {α : Type} (x y : α × Green) : Prop := x.1 = y.1 ∧ x.2.Twin y.2

variable {a b : Green} {as bs cs ds : List Green} {es : List Diagnostic} {kind : Kind}

theorem twins_iff : Twins as bs ↔ unstampedAll as = unstampedAll bs := by
  rw [unstampedAll_eq_map, unstampedAll_eq_map, ← List.forall₂_eq_eq_eq, List.forall₂_map_left_iff,
    List.forall₂_map_right_iff]
  rfl

theorem Twins.refl (as : List Green) : Twins as as := twins_iff.mpr rfl

theorem twin_node {i j : Nat} {summary : Summary} (h : Twins cs ds) :
    (node i kind summary cs es).Twin (node j kind summary ds es) := by
  rw [Twin, unstamped, unstamped, twins_iff.mp h]

namespace Twin

theorem alike (h : a.Twin b) : a.alike b = true := alike_of_unstamped_eq h

theorem cases (h : a.Twin b) :
    (∃ i j shape es, a = .token i shape es ∧ b = .token j shape es) ∨
      ∃ i j kind summary cs ds es, a = .node i kind summary cs es ∧
        b = .node j kind summary ds es ∧ Twins cs ds := by
  cases a with
  | token i shape es =>
      cases b with
      | token j shape' es' =>
          obtain ⟨-, rfl, rfl⟩ := token.inj h
          exact .inl ⟨i, j, shape, es, rfl, rfl⟩
      | node j kind summary ds es' => exact nomatch h
  | node i kind summary cs es =>
      cases b with
      | token j shape es' => exact nomatch h
      | node j kind' summary' ds es' =>
          obtain ⟨-, rfl, rfl, hcs, rfl⟩ := node.inj h
          exact .inr ⟨i, j, kind, summary, cs, ds, es, rfl, rfl, twins_iff.mpr hcs⟩

theorem induction {motive : (a b : Green) → a.Twin b → Prop}
    (token : ∀ i j shape es (h : (Green.token i shape es).Twin (.token j shape es)), motive _ _ h)
    (node : ∀ i j kind summary cs ds es
      (h : (Green.node i kind summary cs es).Twin (.node j kind summary ds es)),
      List.Forall₂ (fun c d => ∃ hcd : c.Twin d, motive c d hcd) cs ds → motive _ _ h)
    (h : a.Twin b) : motive a b h := by
  induction a generalizing b with
  | token i shape es =>
      rcases h.cases with ⟨_, j, _, _, heq, rfl⟩ | ⟨_, _, _, _, _, _, _, heq, _⟩
      · obtain ⟨rfl, rfl, rfl⟩ := Green.token.inj heq
        exact token i j shape es h
      · exact nomatch heq
  | node i kind summary cs es ih =>
      rcases h.cases with ⟨_, _, _, _, heq, _⟩ | ⟨_, j, _, _, _, ds, _, heq, rfl, hcs⟩
      · exact nomatch heq
      · obtain ⟨rfl, rfl, rfl, rfl, rfl⟩ := Green.node.inj heq
        refine node i j kind summary cs ds es h ?_
        clear h heq
        induction hcs with
        | nil => exact .nil
        | cons hcd _ ihcs =>
            exact .cons ⟨hcd, ih _ List.mem_cons_self hcd⟩
              (ihcs fun c hc => ih c (List.mem_cons_of_mem _ hc))

theorem kind_eq (h : a.Twin b) : a.kind = b.kind := by
  rcases h.cases with ⟨_, _, _, _, rfl, rfl⟩ | ⟨_, _, _, _, _, _, _, rfl, rfl, _⟩ <;> rfl

theorem isNode_eq (h : a.Twin b) : a.isNode = b.isNode := by
  rcases h.cases with ⟨_, _, _, _, rfl, rfl⟩ | ⟨_, _, _, _, _, _, _, rfl, rfl, _⟩ <;> rfl

theorem isToken_eq (h : a.Twin b) : a.isToken = b.isToken := by
  rcases h.cases with ⟨_, _, _, _, rfl, rfl⟩ | ⟨_, _, _, _, _, _, _, rfl, rfl, _⟩ <;> rfl

theorem starts_eq (h : a.Twin b) : a.starts = b.starts := by
  rcases h.cases with ⟨_, _, _, _, rfl, rfl⟩ | ⟨_, _, _, _, _, _, _, rfl, rfl, _⟩ <;> rfl

theorem checkedWidth_eq (h : a.Twin b) : a.checkedWidth = b.checkedWidth := by
  rcases h.cases with ⟨_, _, _, _, rfl, rfl⟩ | ⟨_, _, _, _, _, _, _, rfl, rfl, _⟩ <;> rfl

theorem diagnostics_eq (h : a.Twin b) : a.diagnostics = b.diagnostics := by
  rcases h.cases with ⟨_, _, _, _, rfl, rfl⟩ | ⟨_, _, _, _, _, _, _, rfl, rfl, _⟩ <;> rfl

theorem containsMissing_eq (h : a.Twin b) : a.containsMissing = b.containsMissing := by
  rw [← a.containsMissing_unstamped, h, b.containsMissing_unstamped]

theorem containsDiagnostics_eq (h : a.Twin b) :
    a.containsDiagnostics = b.containsDiagnostics := by
  rw [← a.containsDiagnostics_unstamped, h, b.containsDiagnostics_unstamped]

theorem accepts_eq (h : a.Twin b) (category : Category) :
    category.accepts a = category.accepts b := by
  cases category with
  | token => exact h.isToken_eq
  | node => exact h.isNode_eq
  | any => rfl

theorem children (h : a.Twin b) : Twins a.children b.children := by
  rcases h.cases with ⟨_, _, _, _, rfl, rfl⟩ | ⟨_, _, _, _, _, _, _, rfl, rfl, hcs⟩
  · exact .nil
  · exact hcs

theorem child? (h : a.Twin b) (i : Nat) : Option.Rel Twin (a.child? i) (b.child? i) :=
  rel_getElem? h.children i

end Twin

namespace Twins

theorem isEmpty_eq (h : Twins as bs) : as.isEmpty = bs.isEmpty := by
  cases h <;> rfl

theorem any_eq (h : Twins as bs) {p : Green → Bool} (hp : ∀ a b : Green, a.Twin b → p a = p b) :
    as.any p = bs.any p := by
  induction h with
  | nil => rfl
  | cons h _ ih => rw [List.any_cons, List.any_cons, hp _ _ h, ih]

theorem layOut_eq (h : Twins as bs) (kind : Kind) (start : Nat) :
    layOut kind start as = layOut kind start bs := by
  induction h generalizing start with
  | nil => rfl
  | cons h _ ih => simp only [layOut, h.checkedWidth_eq, ih]

theorem checkFields_eq (h : Twins as bs) (kind : Kind) (fields : List Field) :
    Shape.checkFields kind fields as = Shape.checkFields kind fields bs := by
  induction h generalizing fields with
  | nil => rfl
  | cons h _ ih =>
      cases fields with
      | nil => rfl
      | cons field fields =>
          rw [Shape.checkFields, Shape.checkFields, h.accepts_eq, h.kind_eq, ih]

theorem check_eq (h : Twins as bs) (kind : Kind) : Shape.check kind as = Shape.check kind bs := by
  have hlist := h.any_eq (p := fun c => c.kind.isList) fun _ _ hab => by rw [hab.kind_eq]
  rw [Shape.check, Shape.check, hlist, h.length_eq]
  cases kind.fields? with
  | none => rfl
  | some fields => simp only [h.checkFields_eq]

end Twins

theorem Twins.agree_assemble (h : Twins as bs) (kind : Kind) (es : List Diagnostic) :
    Mint.Agree Twin (assemble kind as es) (assemble kind bs es) := by
  rw [assemble, assemble, h.layOut_eq, h.any_eq fun _ _ => Twin.containsMissing_eq,
    h.any_eq fun _ _ => Twin.containsDiagnostics_eq]
  refine (Mint.Agree.ofExcept _).bind ?_
  rintro laid - rfl
  exact Mint.Agree.stamp.bind fun _ _ _ => .pure (twin_node h)

theorem Twins.agree_ofFittingChildren (h : Twins as bs) (kind : Kind) :
    Mint.Agree Twin (ofFittingChildren kind as) (ofFittingChildren kind bs) := by
  intro supply supply'
  rw [ofFittingChildren, ofFittingChildren, ofChildren, ofChildren]
  rcases h.agree_assemble kind [] supply supply' with
    ⟨e, ha, hb⟩ | ⟨a, b, rest, rest', ha, hb, hab, hle⟩ <;> rw [ha, hb]
  · cases e with
    | rejected e => exact .inl ⟨_, rfl, rfl⟩
    | aborted fault => exact .inl ⟨_, rfl, rfl⟩
  · exact .inr ⟨a, b, rest, rest', rfl, rfl, hab, hle⟩

theorem Twin.agree_attach (h : a.Twin b) (d : Diagnostic) :
    Mint.Agree Twin (a.attach d) (b.attach d) := by
  refine Mint.Agree.stamp.bind fun _ _ _ => ?_
  rcases h.cases with ⟨i, j, shape, es, rfl, rfl⟩ | ⟨i, j, kind, summary, cs, ds, es, rfl, rfl, hcs⟩
  · exact .pure rfl
  · simp only [hcs.any_eq fun _ _ => Twin.containsDiagnostics_eq]
    exact .pure (twin_node hcs)

end Green

end LosslessSyntax
