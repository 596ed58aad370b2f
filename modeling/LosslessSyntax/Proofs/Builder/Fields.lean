import LosslessSyntax.Proofs.Builder.Client
import LosslessSyntax.Proofs.Edit.Substitution
import LosslessSyntax.Proofs.Session.Yields
import LosslessSyntax.View

namespace LosslessSyntax

namespace Kind

variable {kind : Kind} {fields : List Field}

theorem not_isToken_of_fields? (h : kind.fields? = some fields) : kind.isToken = false := by
  cases kind <;> cases h <;> rfl

theorem not_isFreeForm_of_fields? (h : kind.fields? = some fields) : kind.isFreeForm = false := by
  cases kind <;> cases h <;> rfl

theorem nodup_fieldNames (h : kind.fields? = some fields) : (fields.map Field.name).Nodup := by
  cases kind <;> cases h <;> decide

theorem fieldIndex?_eq {field : Field} {i : Nat} (h : kind.fields? = some fields)
    (hi : fields[i]? = some field) : kind.fieldIndex? field.name = some i := by
  obtain ⟨hlt, rfl⟩ := List.getElem?_eq_some_iff.mp hi
  rw [fieldIndex?, h, Option.bind_some, List.findIdx?_eq_some_iff_getElem]
  refine ⟨hlt, BEq.rfl, fun j hji hname => ?_⟩
  have hj : j < (fields.map Field.name).length := by
    rw [List.length_map]
    omega
  have heq : (fields.map Field.name)[j]? = (fields.map Field.name)[i]? := by
    rw [List.getElem?_map, List.getElem?_map, List.getElem?_eq_getElem hlt,
      List.getElem?_eq_getElem (Nat.lt_trans hji hlt)]
    exact congrArg some (beq_iff_eq.mp hname)
  exact Nat.ne_of_lt hji ((List.getElem?_inj hj (nodup_fieldNames h)).mp heq)

end Kind

namespace Shape

def Fits (field : Field) (c : Green) : Prop := field.category.accepts c = true

variable {kind : Kind} {fields : List Field} {cs : List Green}

theorem checkFields_eq_ok_iff (kind : Kind) (hlength : fields.length = cs.length) :
    checkFields kind fields cs = .ok () ↔ List.Forall₂ Fits fields cs := by
  induction fields generalizing cs with
  | nil =>
      cases cs with
      | nil => exact ⟨fun _ => .nil, fun _ => rfl⟩
      | cons c cs => exact nomatch hlength
  | cons field fields ih =>
      cases cs with
      | nil => exact nomatch hlength
      | cons c cs =>
          rw [checkFields, List.forall₂_cons, Fits, ← ih (Nat.succ.inj hlength)]
          cases field.category.accepts c <;> simp

theorem check_eq_ok_iff (h : kind.fields? = some fields) :
    check kind cs = .ok () ↔ List.Forall₂ Fits fields cs := by
  have hform := Kind.not_isFreeForm_of_fields? h
  by_cases hlength : fields.length = cs.length
  · rw [← checkFields_eq_ok_iff kind hlength]
    simp [check, hform, h, hlength]
  · refine ⟨fun hok => ?_, fun hfits => absurd hfits.length_eq hlength⟩
    simp [check, hform, h, hlength] at hok

theorem check_list_eq_ok_iff : check .list cs = .ok () ↔ ∀ c ∈ cs, c.kind ≠ .list := by
  have hlist (k : Kind) : k.isList = false ↔ k ≠ .list := by cases k <;> simp [Kind.isList]
  have hcheck : check .list cs = if cs.any fun c => c.kind.isList then
      .error (.illegalShape .list .listInList) else .ok () := rfl
  rw [hcheck]
  cases hany : cs.any fun c => c.kind.isList with
  | true =>
      obtain ⟨c, hc, hkind⟩ := List.any_eq_true.mp hany
      refine ⟨fun h => (nomatch h), fun h => ?_⟩
      rw [(hlist _).mpr (h c hc)] at hkind
      exact nomatch hkind
  | false =>
      refine ⟨fun _ c hc => (hlist _).mp ?_, fun _ => rfl⟩
      exact Bool.eq_false_iff.mpr fun hkind => List.any_eq_false.mp hany c hc hkind

theorem check_error_eq_ok (cs : List Green) : check .error cs = .ok () := rfl

end Shape

namespace View

def fieldAt : Category → Nat → Nat → Nav (Option Nat)
  | .token => tokenAt
  | .node => nodeAt
  | .any => elementAt

theorem exists_fields_eq (v : View) : ∃ fields, v.kind.fields? = some fields ∧
    v.fields.map Prod.fst = fields.map Field.name ∧
    v.fields = fields.mapIdx fun i field => (field.name, fieldAt field.category v.node i) := by
  cases v <;> exact ⟨_, rfl, rfl, rfl⟩

theorem exists_of_fields? {kind : Kind} {fields : List Field} (h : kind.fields? = some fields)
    (id : Nat) : ∃ v, ofKind? kind id = some v := by
  cases kind <;> cases h <;> exact ⟨_, rfl⟩

theorem mem_fields_iff {v : View} {fields : List Field} (h : v.kind.fields? = some fields)
    {f : String × Nav (Option Nat)} : f ∈ v.fields ↔
      ∃ i field, fields[i]? = some field ∧
        f = (field.name, fieldAt field.category v.node i) := by
  obtain ⟨fields', h', -, heq⟩ := v.exists_fields_eq
  obtain rfl := Option.some.inj (h.symm.trans h')
  rw [heq, List.mem_mapIdx]
  constructor
  · rintro ⟨i, hi, rfl⟩
    exact ⟨i, _, List.getElem?_eq_getElem hi, rfl⟩
  · rintro ⟨i, field, hi, rfl⟩
    obtain ⟨hlt, rfl⟩ := List.getElem?_eq_some_iff.mp hi
    exact ⟨i, hlt, rfl⟩

section Reading

variable {s : Session} {q : List Nat} {id : Nat} {m : Green}

theorem onlyIf_some {t : Session} {cid : Nat} {p : Placement} (hp : t.placements[cid]? = some p)
    (accept : Placement → Bool) :
    onlyIf accept (some cid) t = .ok (if accept p then some cid else none) t :=
  Nav.bind_ok (Nav.placement_eq hp)

theorem fieldAt_cases (hs : s.Grounded) (h : s.At q id) (hm : s.root.descend? q = some m)
    (hroom : s.placements.size < Arena.capacity) (category : Category) (i : Nat) :
    (m.child? i = none ∧ fieldAt category id i s = .ok none s) ∨
      ∃ c cid t p, m.child? i = some c ∧ Session.child id i s = .ok (some cid) t ∧
        t.placements[cid]? = some p ∧ p.green = c ∧
        fieldAt category id i s = .ok (if category.accepts c then some cid else none) t := by
  rcases Session.child_cases hs.coherent hs.wellFormed h hm i with
    ⟨hnone, he⟩ | ⟨c, hc, ⟨cid, t, he, hst, hat, -⟩ | ⟨hfull, -⟩⟩
  · refine .inl ⟨hnone, ?_⟩
    cases category with
    | token => exact Nav.bind_ok he
    | node => exact Nav.bind_ok he
    | any => exact he
  · have hcm : t.root.descend? (q ++ [i]) = some c := by
      rw [hst.grown.root, Green.descend?_concat hm, hc]
    obtain ⟨p, hp, rfl, -⟩ := (hs.explored hst).held hat hcm
    refine .inr ⟨p.green, cid, t, p, hc, he, hp, rfl, ?_⟩
    cases category with
    | token =>
        have htoken : (!p.isNode) = p.green.isToken := by
          rw [Placement.isNode]
          cases p.green <;> rfl
        rw [Category.accepts, ← htoken]
        exact (Nav.bind_ok he).trans (onlyIf_some hp _)
    | node => exact (Nav.bind_ok he).trans (onlyIf_some hp _)
    | any => exact he
  · exact absurd hroom (Nat.not_lt.mpr hfull)

theorem fieldAt_some_iff (hs : s.Grounded) (h : s.At q id) (hm : s.root.descend? q = some m)
    (hroom : s.placements.size < Arena.capacity) (category : Category) (i : Nat) :
    (∃ cid t, fieldAt category id i s = .ok (some cid) t) ↔
      ∃ c, m.child? i = some c ∧ category.accepts c = true := by
  rcases fieldAt_cases hs h hm hroom category i with
    ⟨hnone, he⟩ | ⟨c, cid, t, p, hc, -, -, -, he⟩
  · rw [hnone, he]
    simp
  · rw [hc, he]
    cases hfit : category.accepts c <;> simp [hfit]

theorem forall_fields_iff (hs : s.Grounded) (hroom : s.placements.size < Arena.capacity) {v : View}
    {fields : List Field} (h : s.At q v.node) (hm : s.root.descend? q = some m)
    (hfields : v.kind.fields? = some fields) (hlength : m.children.length = fields.length) :
    (∀ f ∈ v.fields, ∃ cid t, f.2 s = .ok (some cid) t) ↔
      List.Forall₂ Shape.Fits fields m.children := by
  have hread : (∀ f ∈ v.fields, ∃ cid t, f.2 s = .ok (some cid) t) ↔
      ∀ i field, fields[i]? = some field →
        ∃ c, m.child? i = some c ∧ field.category.accepts c = true := by
    constructor
    · intro hall i field hi
      have hmem := (mem_fields_iff hfields).mpr ⟨i, field, hi, rfl⟩
      exact (fieldAt_some_iff hs h hm hroom _ i).mp (hall _ hmem)
    · intro hall f hf
      obtain ⟨i, field, hi, rfl⟩ := (mem_fields_iff hfields).mp hf
      exact (fieldAt_some_iff hs h hm hroom _ i).mpr (hall i field hi)
  rw [hread, List.forall₂_iff_get]
  constructor
  · refine fun hall => ⟨hlength.symm, fun i hi hi' => ?_⟩
    obtain ⟨c, hc, hfits⟩ := hall i _ (List.getElem?_eq_getElem hi)
    obtain ⟨_, rfl⟩ := List.getElem?_eq_some_iff.mp hc
    exact hfits
  · rintro ⟨-, hall⟩ i field hi
    obtain ⟨hlt, rfl⟩ := List.getElem?_eq_some_iff.mp hi
    have hlt' : i < m.children.length := hlength ▸ hlt
    exact ⟨m.children[i], List.getElem?_eq_getElem hlt', hall i hlt hlt'⟩

end Reading

end View

namespace Session

def HasFields (s : Session) (kind : Kind) : Prop :=
  ∃ v, View.ofNode? rootId s = .ok (some v) s ∧ v.kind = kind ∧
    ∀ f ∈ v.fields, ∃ cid t, f.2 s = .ok (some cid) t

def ReadsFields (s : Session) (kind : Kind) (fields : List Field) (cs : List Green) : Prop :=
  ∃ v, View.ofNode? rootId s = .ok (some v) s ∧ v.kind = kind ∧
    v.fields.map Prod.fst = fields.map Field.name ∧
    ∀ f ∈ v.fields, ∃ i c cid t p, kind.fieldIndex? f.1 = some i ∧ cs[i]? = some c ∧
      f.2 s = .ok (some cid) t ∧ child rootId i s = .ok (some cid) t ∧
      t.placements[cid]? = some p ∧ p.green = c

variable {s : Session} {kind : Kind} {fields : List Field} {cs : List Green}

theorem exists_view (hs : s.Grounded) (hkind : s.root.kind = kind)
    (hfields : kind.fields? = some fields) :
    ∃ v, View.ofNode? rootId s = .ok (some v) s ∧ v.kind = kind ∧ v.node = rootId := by
  obtain ⟨p, hp, hgreen, -⟩ := hs.coherent.root
  obtain ⟨v, hv⟩ := View.exists_of_fields? hfields rootId
  have hcast : View.ofNode? rootId s = .ok (View.ofKind? p.kind rootId) s :=
    Nav.bind_ok (Nav.placement_eq hp)
  rw [Placement.kind, hgreen, hkind, hv] at hcast
  exact ⟨v, hcast, View.kind_of_ofKind?_eq_some hv, View.node_of_ofKind?_eq_some hv⟩

theorem hasFields_iff (hs : s.Grounded) (hroom : s.placements.size < Arena.capacity)
    (hkind : s.root.kind = kind) (hchildren : s.root.children = cs)
    (hfields : kind.fields? = some fields) (hlength : cs.length = fields.length) :
    s.HasFields kind ↔ List.Forall₂ Shape.Fits fields cs := by
  subst hchildren
  obtain ⟨v, hv, hview, hnode⟩ := exists_view hs hkind hfields
  have hall := View.forall_fields_iff (v := v) hs hroom (hnode ▸ .root) (Green.descend?_nil _)
    (hview ▸ hfields) hlength
  rw [← hall]
  constructor
  · rintro ⟨v', hv', -, hread⟩
    cases hv.symm.trans hv'
    exact hread
  · exact fun hread => ⟨v, hv, hview, hread⟩

theorem check_eq_ok_iff_hasFields (hs : s.Grounded) (hroom : s.placements.size < Arena.capacity)
    (hkind : s.root.kind = kind) (hchildren : s.root.children = cs)
    (hfields : kind.fields? = some fields) :
    Shape.check kind cs = .ok () ↔ cs.length = fields.length ∧ s.HasFields kind := by
  rw [Shape.check_eq_ok_iff hfields]
  constructor
  · intro hfits
    have hlength := hfits.length_eq.symm
    exact ⟨hlength, (hasFields_iff hs hroom hkind hchildren hfields hlength).mpr hfits⟩
  · rintro ⟨hlength, hread⟩
    exact (hasFields_iff hs hroom hkind hchildren hfields hlength).mp hread

theorem readsFields_of_check (hs : s.Grounded) (hroom : s.placements.size < Arena.capacity)
    (hkind : s.root.kind = kind) (hchildren : s.root.children = cs)
    (hfields : kind.fields? = some fields) (hcheck : Shape.check kind cs = .ok ()) :
    s.ReadsFields kind fields cs := by
  subst hchildren
  have hfits := (Shape.check_eq_ok_iff hfields).mp hcheck
  obtain ⟨v, hv, hview, hnode⟩ := exists_view hs hkind hfields
  refine ⟨v, hv, hview, ?_, ?_⟩
  · obtain ⟨fields', hfields', hnames, -⟩ := v.exists_fields_eq
    obtain rfl := Option.some.inj (hfields.symm.trans (hview ▸ hfields'))
    exact hnames
  · intro f hf
    obtain ⟨i, field, hi, rfl⟩ := (View.mem_fields_iff (hview ▸ hfields)).mp hf
    obtain ⟨hlt, rfl⟩ := List.getElem?_eq_some_iff.mp hi
    have hlt' : i < s.root.children.length := hfits.length_eq ▸ hlt
    have hfit : fields[i].category.accepts s.root.children[i] = true :=
      (List.forall₂_iff_get.mp hfits).2 i hlt hlt'
    have hindex := Kind.fieldIndex?_eq hfields hi
    rcases View.fieldAt_cases hs .root (Green.descend?_nil _) hroom fields[i].category i with
      ⟨hnone, -⟩ | ⟨c, cid, t, p, hc, hchild, hp, hgreen, hread⟩
    · rw [Green.child?, List.getElem?_eq_getElem hlt'] at hnone
      cases hnone
    · obtain ⟨_, rfl⟩ := List.getElem?_eq_some_iff.mp hc
      rw [if_pos hfit, ← hnode] at hread
      exact ⟨i, _, cid, t, p, hindex, hc, hread, hchild, hp, hgreen⟩

end Session

namespace Green

theorem ofFittingChildren_eq (kind : Kind) {cs : List Green} (hcs : ∀ c ∈ cs, c.WellFormed)
    (hw : widths cs ≤ maxSize) (supply : Supply) :
    ofFittingChildren kind cs supply =
      .ok (.node supply.next kind (summarize cs []) cs [], ⟨supply.next + 1⟩) := by
  rw [ofFittingChildren, ofChildren, assemble_eq kind hcs, if_pos hw]

end Green

namespace Builder

variable {b : Builder} {kind : Kind} {fields : List Field} {cs : List Green} {supply : Supply}

theorem checkedNode_of_isToken (hkind : kind.isToken = true) :
    b.checkedNode kind cs supply = .error (.illegalShape kind .tokenKindAsNode) := by
  rw [checkedNode, if_pos hkind]
  rfl

theorem checkedNode_eq (hkind : kind.isToken = false) (hcs : ∀ c ∈ cs, c.WellFormed)
    (hw : Green.widths cs ≤ maxSize) :
    b.checkedNode kind cs supply = match Shape.check kind cs with
      | .ok () => .ok (.node supply.next kind (Green.summarize cs []) cs [], ⟨supply.next + 1⟩)
      | .error e => .error e := by
  rw [checkedNode, if_neg (Bool.eq_false_iff.mp hkind)]
  cases hcheck : Shape.check kind cs with
  | error e => exact Mint.bind_error rfl
  | ok u =>
      have hmade := Green.assemble_eq kind hcs [] supply
      rw [if_pos hw] at hmade
      exact (Mint.bind_ok rfl).trans hmade

theorem checkedNode_succeeds_iff (hkind : kind.isToken = false) (hcs : ∀ c ∈ cs, c.WellFormed)
    (hw : Green.widths cs ≤ maxSize) :
    (∃ g rest, b.checkedNode kind cs supply = .ok (g, rest)) ↔ Shape.check kind cs = .ok () := by
  rw [checkedNode_eq hkind hcs hw]
  cases Shape.check kind cs <;> simp

theorem Client.serve_checkedNode_refused {w v : Client} {elements : List Nat} {e : Failure}
    (h : w.serve (.checkedNode kind elements) = (.error e, v)) : v = w := by
  rw [serve, takeElement] at h
  split at h
  · cases h
  · exact (Prod.mk.inj h).2.symm

theorem checkedNode_agrees (b : Builder) (kind : Kind) (hcs : ∀ c ∈ cs, c.WellFormed)
    (hw : Green.widths cs ≤ maxSize) (supply : Supply) :
    (∀ fields, kind.fields? = some fields → ∀ supply', ∃ root rest,
        Green.ofFittingChildren kind cs supply' = .ok (root, rest) ∧
          ∀ s : Session, s.Reached → s.root = root → s.placements.size < Arena.capacity →
            ((∃ g rest, b.checkedNode kind cs supply = .ok (g, rest)) ↔
              cs.length = fields.length ∧ s.HasFields kind) ∧
            ∀ g rest, b.checkedNode kind cs supply = .ok (g, rest) →
              g.alike root = true ∧ g.unstamped = root.unstamped ∧
                s.ReadsFields kind fields cs) ∧
      ((∃ g rest, b.checkedNode .list cs supply = .ok (g, rest)) ↔ ∀ c ∈ cs, c.kind ≠ .list) ∧
      (∃ g rest, b.checkedNode .error cs supply = .ok (g, rest)) ∧
      (kind.isToken = true → b.checkedNode kind cs supply =
        .error (.illegalShape kind .tokenKindAsNode)) ∧
      ∀ (w v : Client) (elements : List Nat) (e : Failure),
        w.serve (.checkedNode kind elements) = (.error e, v) → v = w := by
  refine ⟨?_, ?_, ?_, checkedNode_of_isToken, fun _ _ _ _ => Client.serve_checkedNode_refused⟩
  · intro fields hfields supply'
    have hkind := Kind.not_isToken_of_fields? hfields
    have hnew := Green.ofFittingChildren_eq kind hcs hw supply'
    refine ⟨_, _, hnew, fun s hs hroot hroom => ?_⟩
    have hrootKind : s.root.kind = kind := congrArg Green.kind hroot
    have hchildren : s.root.children = cs := congrArg Green.children hroot
    have hsucceeds : (∃ g rest, b.checkedNode kind cs supply = .ok (g, rest)) ↔ _ :=
      checkedNode_succeeds_iff hkind hcs hw
    have hshape :=
      Session.check_eq_ok_iff_hasFields hs.grounded hroom hrootKind hchildren hfields
    refine ⟨hsucceeds.trans hshape, fun g rest hg => ?_⟩
    have hcheck := hsucceeds.mp ⟨g, rest, hg⟩
    rw [checkedNode_eq hkind hcs hw, hcheck] at hg
    cases hg
    have htwin : (Green.node supply.next kind (Green.summarize cs []) cs []).Twin
        (.node supply'.next kind (Green.summarize cs []) cs []) :=
      Green.twin_node (Green.Twins.refl cs)
    have hreads :=
      Session.readsFields_of_check hs.grounded hroom hrootKind hchildren hfields hcheck
    exact ⟨htwin.alike, htwin, hreads⟩
  · rw [checkedNode_succeeds_iff rfl hcs hw, Shape.check_list_eq_ok_iff]
  · rw [checkedNode_succeeds_iff rfl hcs hw, Shape.check_error_eq_ok]

end Builder

namespace Sample

theorem assignment_checked : (∀ c ∈ assignment.children, c.WellFormed) ∧
    Green.widths assignment.children ≤ maxSize ∧ session.Reached ∧
    ∃ g rest fields, (Builder.new true 0).checkedNode .assignmentStatement assignment.children ⟨8⟩ =
        .ok (g, rest) ∧ g.alike assignment = true ∧
      Kind.fields? .assignmentStatement = some fields ∧
      session.ReadsFields .assignmentStatement fields assignment.children := by
  have hcs := fun c (hc : c ∈ assignment.children) => assignment_wellFormed.of_mem_children hc
  have hw : Green.widths assignment.children ≤ maxSize := by decide
  obtain ⟨hfixed, -⟩ :=
    Builder.checkedNode_agrees (Builder.new true 0) .assignmentStatement hcs hw ⟨8⟩
  obtain ⟨root, rest, hnew, hroot⟩ := hfixed _ rfl ⟨6⟩
  have hassignment : Green.ofFittingChildren .assignmentStatement assignment.children ⟨6⟩ =
      .ok (assignment, ⟨7⟩) := rfl
  cases hnew.symm.trans hassignment
  obtain ⟨-, hreads⟩ := hroot session session_reached rfl (by decide)
  obtain ⟨halike, -, hfields⟩ := hreads _ _ rfl
  exact ⟨hcs, hw, session_reached, _, _, _, rfl, halike, rfl, hfields⟩

end Sample

end LosslessSyntax
