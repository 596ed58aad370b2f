import LosslessSyntax.Text.Range

namespace LosslessSyntax

namespace Arena

def firstBlock : Nat := 32

def blockCount : Nat := 27

def blockSize (block : Nat) : Nat := firstBlock <<< block

def locate (index : Nat) : Nat × Nat :=
  let biased := index + firstBlock
  let bit := Nat.log2 biased
  (bit - Nat.log2 firstBlock, biased - (1 <<< bit))

def admits (index : Nat) : Bool :=
  decide ((locate index).1 < blockCount) && decide (index ≤ maxSize)

end Arena

end LosslessSyntax
