import LosslessSyntax.Green.Basic

namespace LosslessSyntax

namespace Green

mutual

def alike : Green → Green → Bool
  | token i s ds, token j t es => i == j || (s == t && ds == es)
  | node i k s cs ds, node j l t bs es =>
      i == j || (k == l && s == t && allAlike cs bs && ds == es)
  | _, _ => false

def allAlike : List Green → List Green → Bool
  | [], [] => true
  | c :: cs, b :: bs => alike c b && allAlike cs bs
  | _, _ => false

end

mutual

def contentHash : Green → UInt64
  | token _ shape ds => mixHash 1 (mixHash (hash shape) (hash ds))
  | node _ kind summary cs ds =>
      mixHash 0 (mixHash (hash kind) (mixHash (hash summary)
        (mixHash (contentHashes cs) (hash ds))))

def contentHashes : List Green → UInt64
  | [] => 0
  | c :: cs => mixHash (contentHash c) (contentHashes cs)

end

end Green

end LosslessSyntax
