import LosslessSyntax.Proofs.Edit.Substitution
import LosslessSyntax.Proofs.Session.Tour
import LosslessSyntax.Proofs.Text.Tiling

namespace LosslessSyntax

namespace Green

variable {root m c : Green} {q : List Nat} {xs ys : List Entry} {source : String} {i : Nat}

def tokenEntries (xs : List Entry) : List Entry := xs.filter fun x => x.2.isToken

theorem tokenEntries_eq (xs : List Entry) :
    tokenEntries xs = xs.filter fun x => !x.2.isNode := by
  refine List.filter_congr ?_
  rintro ⟨q, _ | _⟩ - <;> rfl

theorem tokenEntries_append (xs ys : List Entry) :
    tokenEntries (xs ++ ys) = tokenEntries xs ++ tokenEntries ys :=
  List.filter_append ..

theorem tokenEntries_cons_node (hn : m.isNode = true) :
    tokenEntries ((q, m) :: xs) = tokenEntries xs := by
  cases m with
  | token stamp shape ds => exact nomatch hn
  | node stamp kind summary cs ds => rfl

def tokenRanges (root : Green) (xs : List Entry) : List TextRange :=
  (tokenEntries xs).map fun x => root.rangeAt x.1

theorem tokenRanges_append (root : Green) (xs ys : List Entry) :
    tokenRanges root (xs ++ ys) = tokenRanges root xs ++ tokenRanges root ys := by
  rw [tokenRanges, tokenEntries, List.filter_append, List.map_append, tokenRanges, tokenRanges,
    tokenEntries, tokenEntries]

theorem stop_rangeAt (hm : root.descend? q = some m) :
    (root.rangeAt q).stop = root.offsetAt q + m.width :=
  congrArg (root.offsetAt q + ·) (widthAt_eq hm)

section Tiled

theorem tiled_listingAmong {cs : List Green} (hm : root.descend? q = some m)
    (hchildren : m.ChildrenFrom i cs)
    (ih : ∀ c ∈ cs, ∀ q, root.descend? q = some c → TextRange.Tiled (root.offsetAt q + c.width)
      (root.offsetAt q) (tokenRanges root (c.listing q))) :
    TextRange.Tiled (root.offsetAt q + widths (m.children.take i) + widths cs)
      (root.offsetAt q + widths (m.children.take i)) (tokenRanges root (listingAmong q i cs)) := by
  induction cs generalizing i with
  | nil => exact .nil
  | cons c cs ihcs =>
      have hc := hchildren.head
      have hfirst := ih c List.mem_cons_self (q ++ [i]) ((descend?_concat hm i).trans hc)
      rw [offsetAt_concat hm hc] at hfirst
      have hlater := ihcs hchildren.tail fun b hb => ih b (List.mem_cons_of_mem c hb)
      rw [widths_take_succ hc, ← Nat.add_assoc] at hlater
      rw [listingAmong, tokenRanges_append, widths_cons, ← Nat.add_assoc]
      exact hfirst.append hlater

theorem tiled_listing (hroot : root.WellFormed) (hm : root.descend? q = some m) :
    TextRange.Tiled (root.offsetAt q + m.width) (root.offsetAt q)
      (tokenRanges root (m.listing q)) := by
  induction m generalizing q with
  | token stamp shape ds =>
      rw [← stop_rangeAt hm]
      exact .cons (root.rangeAt q) .nil
  | node stamp kind summary cs ds ih =>
      have hwidth := (hroot.of_descend? hm).widths_children rfl
      have hamong := tiled_listingAmong hm (childrenFrom_zero _) fun c hc q hq => ih c hc hq
      rw [List.take_zero] at hamong
      rw [← hwidth]
      exact hamong

end Tiled

section Cuts

/-- No token starts or stops inside a character of the source, and neither does its own text. -/
def CutsBetween (root : Green) (source : String) : Prop :=
  ∀ q stamp shape ds, root.descend? q = some (token stamp shape ds) →
    let start := root.offsetAt q
    ∀ n ∈ [start, start + shape.leading, start + shape.leading + shape.text, start + shape.width],
      Slice.CutsAt source.toList n

theorem CutsBetween.stop (hroot : root.WellFormed) (h : root.CutsBetween source)
    (hm : root.descend? q = some m) (hstart : Slice.CutsAt source.toList (root.offsetAt q)) :
    Slice.CutsAt source.toList (root.offsetAt q + m.width) := by
  refine (tiled_listing hroot hm).cutsAt_stop hstart ?_
  intro r hr
  obtain ⟨⟨p, g⟩, hmem, rfl⟩ := List.mem_map.mp hr
  obtain ⟨hlist, htoken⟩ := List.mem_filter.mp hmem
  have hpath := descend?_of_mem_listing hm hlist
  cases g with
  | node stamp kind summary cs ds => exact nomatch htoken
  | token stamp shape ds =>
      have hcut := h p stamp shape ds hpath (root.offsetAt p + shape.width) (by simp)
      exact stop_rangeAt hpath ▸ hcut

theorem CutsBetween.children (hroot : root.WellFormed) (h : root.CutsBetween source)
    (hm : root.descend? q = some m) (hstart : Slice.CutsAt source.toList (root.offsetAt q))
    (hi : i ≤ m.children.length) :
    Slice.CutsAt source.toList (root.offsetAt q + widths (m.children.take i)) := by
  induction i with
  | zero => exact hstart
  | succ i ih =>
      have hc : m.child? i = some m.children[i] := List.getElem?_eq_getElem hi
      have hoffset := offsetAt_concat hm hc
      have hlast := h.stop hroot ((descend?_concat hm i).trans hc) (hoffset ▸ ih (Nat.le_of_lt hi))
      rwa [hoffset, Nat.add_assoc, ← widths_take_succ hc] at hlast

theorem CutsBetween.start (hroot : root.WellFormed) (h : root.CutsBetween source)
    (hm : root.descend? q = some m) : Slice.CutsAt source.toList (root.offsetAt q) := by
  induction q using List.reverseRecOn generalizing m with
  | nil => exact Slice.cutsAt_zero _
  | append_singleton q i ih =>
      obtain ⟨g, hg, hc⟩ := Option.bind_eq_some_iff.mp ((descend?_append root q [i]).symm.trans hm)
      have hchild := (descend?_concat hg i).symm.trans hm
      rw [offsetAt_concat hg hchild]
      have hi := (List.getElem?_eq_some_iff.mp hchild).1
      exact h.children hroot hg (ih hg) (Nat.le_of_lt hi)

end Cuts

end Green

namespace Placement

variable {p : Placement} {stamp : Nat} {shape : TokenShape} {ds : List Diagnostic}

theorem leadingRange_eq (hg : p.green = .token stamp shape ds)
    (hmax : p.offset + shape.width ≤ maxSize) :
    p.leadingRange = .ok ⟨p.offset, p.offset + shape.leading, Nat.le_add_right _ _⟩ := by
  rw [TokenShape.width] at hmax
  rw [leadingRange, hg]
  exact Checked.rangeOfLength_eq (by omega)

theorem tokenTextRange_eq (hg : p.green = .token stamp shape ds)
    (hmax : p.offset + shape.width ≤ maxSize) :
    p.tokenTextRange = .ok ⟨p.offset + shape.leading, p.offset + shape.leading + shape.text,
      Nat.le_add_right _ _⟩ := by
  rw [TokenShape.width] at hmax
  have hstart : Checked.sum p.offset shape.leading = .ok (p.offset + shape.leading) :=
    Checked.sum_eq_ok_iff.mpr ⟨rfl, by omega⟩
  rw [tokenTextRange, hg]
  dsimp only
  rw [hstart]
  exact Checked.rangeOfLength_eq (by omega)

theorem trailingRange_eq (hg : p.green = .token stamp shape ds)
    (hmax : p.offset + shape.width ≤ maxSize) :
    p.trailingRange = .ok ⟨p.offset + shape.leading + shape.text,
      p.offset + shape.leading + shape.text + shape.trailing, Nat.le_add_right _ _⟩ := by
  have htext := tokenTextRange_eq hg hmax
  rw [TokenShape.width] at hmax
  rw [trailingRange, htext, hg]
  exact Checked.rangeOfLength_eq (by dsimp only; omega)

end Placement

theorem Nav.bind_ofExcept_ok {α β : Type} (a : α) (f : α → Nav β) (s : Session) :
    (Nav.ofExcept (.ok a) >>= f) s = f a s :=
  rfl

namespace Session

def pieces (id : Nat) (source : String) : Nav String := do
  let p ← Nav.placement id
  let leading ← Nav.ofExcept p.leadingRange
  let before ← Nav.ofExcept (Checked.slice leading source)
  let text ← trimmedText id source
  let trailing ← Nav.ofExcept p.trailingRange
  let after ← Nav.ofExcept (Checked.slice trailing source)
  pure (before ++ text ++ after)

def transcript (source : String) : List Nat → Nav String
  | [] => pure ""
  | id :: ids => do
      let text ← pieces id source
      let rest ← transcript source ids
      pure (text ++ rest)

variable {s t : Session} {q : List Nat} {id : Nat} {m : Green} {source : String}

section Pieces

variable {stamp : Nat} {shape : TokenShape} {ds : List Diagnostic} {p : Placement}

theorem trimmedRange_token (hp : s.placements[id]? = some p)
    (hg : p.green = .token stamp shape ds) (hmax : p.offset + shape.width ≤ maxSize) :
    trimmedRange id s = .ok ⟨p.offset + shape.leading, p.offset + shape.leading + shape.text,
      Nat.le_add_right _ _⟩ s := by
  have hnode : ¬ p.isNode = true := by
    rw [Placement.isNode, hg]
    exact Bool.false_ne_true
  have hrange : trimmedRange id s = _ := Nav.bind_ok (Nav.placement_eq hp)
  rwa [if_neg hnode, Placement.tokenTextRange_eq hg hmax] at hrange

theorem pieces_eq (hs : s.Coherent) (hroot : s.root.WellFormed)
    (hcuts : s.root.CutsBetween source) (h : s.At q id)
    (hm : s.root.descend? q = some (.token stamp shape ds)) :
    ∃ x, (s.root.rangeAt q).Holds source.toList x ∧
      pieces id source s = .ok (String.ofList x) s := by
  obtain ⟨p, hp, hg, ho⟩ := h.holds hs hroot
  have hgreen : p.green = .token stamp shape ds := Option.some.inj (hg.symm.trans hm)
  have hle : p.offset + shape.width ≤ s.root.width := ho ▸ Green.offsetAt_add_width_le hroot hm
  have hmax := hle.trans hroot.width_le
  have hwidth : p.offset + shape.width =
      p.offset + shape.leading + shape.text + shape.trailing := by
    rw [TokenShape.width]
    omega
  have hend : (s.root.rangeAt q).stop = p.offset + shape.width := ho ▸ Green.stop_rangeAt hm
  have hcut := hcuts q stamp shape ds hm
  rw [← ho] at hcut
  simp only [List.forall_mem_cons] at hcut
  obtain ⟨hstart, hbefore, hafter, hstop, -⟩ := hcut
  rw [hwidth] at hend hstop
  obtain ⟨x, y, z, hx, hy, hz, hall⟩ := TextRange.Holds.of_thirds (Nat.le_add_right _ _)
    (Nat.le_add_right _ _) (Nat.le_add_right _ _) hstart hbefore hafter hstop
  refine ⟨x ++ y ++ z, hall.congr ho.symm hend, ?_⟩
  have htext : trimmedText id source s = _ :=
    Nav.bind_ok (trimmedRange_token hp hgreen hmax)
  rw [hy.slice_eq] at htext
  rw [pieces, Nav.bind_ok (Nav.placement_eq hp), Placement.leadingRange_eq hgreen hmax,
    Nav.bind_ofExcept_ok, hx.slice_eq, Nav.bind_ofExcept_ok, Nav.bind_ok htext,
    Placement.trailingRange_eq hgreen hmax, Nav.bind_ofExcept_ok, hz.slice_eq,
    Nav.bind_ofExcept_ok, String.ofList_append, String.ofList_append]
  rfl

end Pieces

structure Spells (root : Green) (s : Session) (id : Nat) (p : Placement) (ids : List Nat) :
    Prop where
  tokens : List.Forall₂ (fun id g => ∃ r, s.placements[id]? = some r ∧ r.green = g) ids
    p.green.leaves
  tiled : ∃ rs, List.Forall₂ (fun id range => ∃ r, s.placements[id]? = some r ∧
    r.textRange = .ok range) ids rs ∧ TextRange.Tiled (p.offset + p.green.width) p.offset rs
  empty : ids = [] → p.green.width = 0
  text : ∀ source, root.CutsBetween source → ∃ x, transcript source ids s = .ok x s ∧
    Session.text id source s = .ok x s ∧
    (id = rootId → ∃ rest, source = x ++ rest ∧ x.utf8ByteSize = root.width)

def Tokens (s : Session) (ids : List Nat) (xs : List Green.Entry) : Prop :=
  List.Forall₂ (fun id x => s.At x.1 id ∧ s.root.descend? x.1 = some x.2 ∧ x.2.isToken = true)
    ids xs

variable {ids : List Nat} {xs : List Green.Entry}

theorem Tokens.of_entries (h : List.Forall₂ (fun id x => s.At x.1 id) ids xs)
    (hxs : ∀ x ∈ xs, s.root.descend? x.1 = some x.2 ∧ x.2.isToken = true) : s.Tokens ids xs := by
  induction h with
  | nil => exact .nil
  | cons hat _ ih =>
      obtain ⟨hx, hxs⟩ := List.forall_mem_cons.mp hxs
      exact .cons ⟨hat, hx⟩ (ih hxs)

theorem Tokens.greens (hs : s.Coherent) (hroot : s.root.WellFormed) (h : s.Tokens ids xs) :
    List.Forall₂ (fun id g => ∃ r, s.placements[id]? = some r ∧ r.green = g) ids
      (xs.map Prod.snd) := by
  rw [List.forall₂_map_right_iff]
  refine h.imp ?_
  rintro id x ⟨hat, hx, -⟩
  obtain ⟨p, hp, hm, -⟩ := hat.holds hs hroot
  exact ⟨p, hp, Option.some.inj (hm.symm.trans hx)⟩

theorem Tokens.ranges (hs : s.Coherent) (hroot : s.root.WellFormed) (h : s.Tokens ids xs) :
    List.Forall₂ (fun id range => ∃ r, s.placements[id]? = some r ∧ r.textRange = .ok range) ids
      (xs.map fun x => s.root.rangeAt x.1) := by
  rw [List.forall₂_map_right_iff]
  refine h.imp ?_
  rintro id x ⟨hat, -, -⟩
  obtain ⟨p, hp, hm, ho⟩ := hat.holds hs hroot
  obtain ⟨r, hr, -, hrange⟩ := Edit.textRange_of_holds hroot hm ⟨p, hp, rfl, ho⟩
  exact ⟨r, hr, hrange⟩

theorem Tokens.transcript (hs : s.Coherent) (hroot : s.root.WellFormed)
    (hcuts : s.root.CutsBetween source) (h : s.Tokens ids xs) :
    ∃ ys, List.Forall₂ (fun r y => r.Holds source.toList y)
        (xs.map fun x => s.root.rangeAt x.1) ys ∧
      Session.transcript source ids s = .ok (String.ofList ys.flatten) s := by
  induction h with
  | nil => exact ⟨[], .nil, rfl⟩
  | @cons id x ids xs hx _ ih =>
      obtain ⟨hat, hm, htoken⟩ := hx
      obtain ⟨ys, hys, hrest⟩ := ih
      obtain ⟨q, g⟩ := x
      cases g with
      | node stamp kind summary cs ds => exact nomatch htoken
      | token stamp shape ds =>
          obtain ⟨y, hy, hpieces⟩ := pieces_eq hs hroot hcuts hat hm
          refine ⟨y :: ys, .cons hy hys, ?_⟩
          rw [Session.transcript, Nav.bind_ok hpieces, Nav.bind_ok hrest, List.flatten_cons,
            String.ofList_append]
          rfl

theorem descendantTokens_eq (hs : s.Reached) (hroom : s.root.size + s.strays ≤ Arena.capacity)
    (h : s.At q id) (hm : s.root.descend? q = some m) :
    ∃ ids t, descendantTokens id s = .ok ids t ∧ Explored s t ∧
      t.Tokens ids (Green.tokenEntries (m.listing q)) := by
  obtain ⟨ids, t, hrun, hst, hlist⟩ := (Confined.of_fits hs hroom).gather h hm (lists_paths hm)
    fun g => !g.isNode
  have hids : descendantTokens id s = _ := Nav.bind_ok hrun
  rw [List.reverse_reverse] at hids
  refine ⟨ids, t, hids, hst, .of_entries (Green.tokenEntries_eq _ ▸ hlist) ?_⟩
  intro x hx
  obtain ⟨hlisted, htoken⟩ := List.mem_filter.mp hx
  rw [hst.grown.root]
  exact ⟨Green.descend?_of_mem_listing hm hlisted, htoken⟩

theorem text_eq {x : List Char} (hs : s.Coherent) (hroot : s.root.WellFormed) (h : s.At q id)
    (hx : (s.root.rangeAt q).Holds source.toList x) :
    Session.text id source s = .ok (String.ofList x) s := by
  obtain ⟨p, hp, hm, ho⟩ := h.holds hs hroot
  obtain ⟨r, hr, -, hrange⟩ := Edit.textRange_of_holds hroot hm ⟨p, hp, rfl, ho⟩
  have htext : Session.text id source s = _ := Nav.bind_ok (Nav.placement_eq hr)
  rwa [hrange, Nav.bind_ofExcept_ok, hx.slice_eq] at htext

theorem tokens_lossless (hs : s.Reached) (hroom : s.root.size + s.strays ≤ Arena.capacity)
    (ha : s.Attached id) {p : Placement} (hp : s.placements[id]? = some p)
    (hn : p.isNode = true) :
    ∃ ids t, descendantTokens id s = .ok ids t ∧ Spells s.root t id p ids := by
  have hat := ha.at_path hs.coherent
  generalize (s.path id).indices = q at hat
  obtain ⟨p', hp', hm, ho⟩ := hat.holds hs.coherent hs.root_wellFormed
  obtain rfl := Option.some.inj (hp.symm.trans hp')
  obtain ⟨ids, t, hids, hst, htokens⟩ := descendantTokens_eq hs hroom hat hm
  have ht := hst.coherent
  have hroot := hst.grown.root
  have hwf : t.root.WellFormed := hroot ▸ hs.root_wellFormed
  have htiled := Green.tiled_listing hs.root_wellFormed hm
  have hranges := htokens.ranges ht hwf
  rw [hroot] at hranges
  refine ⟨ids, t, hids, ?_, ⟨_, hranges, ho ▸ htiled⟩, ?_, ?_⟩
  · rw [Green.leaves_eq_tokensIn hn q]
    exact htokens.greens ht hwf
  · rintro rfl
    rw [Green.tokenRanges, List.forall₂_nil_left_iff.mp htokens] at htiled
    have hstop := htiled.eq_of_nil
    omega
  · intro source hcuts
    obtain ⟨ys, hys, hread⟩ := htokens.transcript ht hwf (hroot ▸ hcuts)
    rw [hroot] at hys
    have hstart := hcuts.start hs.root_wellFormed hm
    have hall := htiled.holds_flatten hys hstart rfl (Green.stop_rangeAt hm)
    refine ⟨_, hread, text_eq ht hwf (hat.mono hst.grown) (hroot ▸ hall), ?_⟩
    rintro rfl
    obtain rfl := hat.path_unique hs.coherent .root
    obtain ⟨rest, hsplit, hbytes⟩ := hall.eq_append rfl
    rw [Green.rangeAt_length, Green.widthAt_eq (Green.descend?_nil _)] at hbytes
    exact ⟨rest, hsplit, hbytes⟩

end Session

namespace Sample

theorem assignment_cuts : assignment.CutsBetween "x=12;" := by
  intro q stamp shape ds hm
  have hle := Green.offsetAt_add_width_le assignment_wellFormed hm
  have hwidth : assignment.width = 5 := rfl
  have htoken : (Green.token stamp shape ds).width = shape.leading + shape.text + shape.trailing :=
    rfl
  have hbytes : ∀ n ≤ 5, Slice.byteLength ("x=12;".toList.take n) = n := by decide
  intro start n hn
  refine ⟨"x=12;".toList.take n, "x=12;".toList.drop n, (List.take_append_drop _ _).symm, ?_⟩
  refine hbytes n ?_
  simp only [List.mem_cons, List.not_mem_nil, or_false, TokenShape.width, start] at hn
  omega

theorem assignment_spelled : session.Reached ∧ assignment.CutsBetween "x=12;" ∧
    ∃ ids t, Session.descendantTokens Session.rootId session = .ok ids t ∧
      Session.Spells assignment t Session.rootId (Placement.make assignment 0 none 0) ids := by
  have ho : Session.ofRoot assignment ⟨7⟩ = .ok (session, ⟨8⟩) := rfl
  have hroom : session.root.size + session.strays ≤ Arena.capacity := by
    rw [Session.strays_of_ofRoot ho]
    decide
  have hroot := Session.At.root.attached session_reached.coherent
  exact ⟨session_reached, assignment_cuts,
    Session.tokens_lossless session_reached hroom hroot rfl rfl⟩

end Sample

end LosslessSyntax
