import LosslessSyntax.Text.Range

namespace LosslessSyntax

namespace Slice

def byteLength : List Char → Nat
  | [] => 0
  | c :: cs => c.utf8Size + byteLength cs

def dropBytes? : Nat → List Char → Option (List Char)
  | 0, cs => some cs
  | _ + 1, [] => none
  | n + 1, c :: cs => if c.utf8Size ≤ n + 1 then dropBytes? (n + 1 - c.utf8Size) cs else none

def takeBytes? : Nat → List Char → Option (List Char)
  | 0, _ => some []
  | _ + 1, [] => none
  | n + 1, c :: cs =>
      if c.utf8Size ≤ n + 1 then (takeBytes? (n + 1 - c.utf8Size) cs).map (c :: ·) else none

theorem dropBytes?_append (pre post : List Char) :
    dropBytes? (byteLength pre) (pre ++ post) = some post := by
  induction pre with
  | nil =>
      cases post <;> rfl
  | cons c cs ih =>
      obtain ⟨n, hn⟩ : ∃ n, byteLength (c :: cs) = n + 1 :=
        ⟨byteLength (c :: cs) - 1, by
          have := c.utf8Size_pos
          simp [byteLength]
          omega⟩
      have hsum : byteLength (c :: cs) = c.utf8Size + byteLength cs := rfl
      rw [hn, List.cons_append, dropBytes?, if_pos (by omega),
        show n + 1 - c.utf8Size = byteLength cs by omega, ih]

theorem takeBytes?_append (pre post : List Char) :
    takeBytes? (byteLength pre) (pre ++ post) = some pre := by
  induction pre with
  | nil =>
      cases post <;> rfl
  | cons c cs ih =>
      obtain ⟨n, hn⟩ : ∃ n, byteLength (c :: cs) = n + 1 :=
        ⟨byteLength (c :: cs) - 1, by
          have := c.utf8Size_pos
          simp [byteLength]
          omega⟩
      have hsum : byteLength (c :: cs) = c.utf8Size + byteLength cs := rfl
      rw [hn, List.cons_append, takeBytes?, if_pos (by omega),
        show n + 1 - c.utf8Size = byteLength cs by omega, ih]
      rfl

end Slice

def TextRange.sliceChars? (r : TextRange) (source : List Char) : Option (List Char) :=
  (Slice.dropBytes? r.start source).bind (Slice.takeBytes? r.length)

theorem TextRange.sliceChars?_append {r : TextRange} {pre mid post : List Char}
    (hs : r.start = Slice.byteLength pre) (hl : r.length = Slice.byteLength mid) :
    r.sliceChars? (pre ++ (mid ++ post)) = some mid := by
  simp [sliceChars?, hs, hl, Slice.dropBytes?_append, Slice.takeBytes?_append]

def TextRange.slice? (r : TextRange) (source : String) : Option String :=
  (r.sliceChars? source.toList).map String.ofList

end LosslessSyntax
