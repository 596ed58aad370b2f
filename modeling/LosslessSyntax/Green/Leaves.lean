import LosslessSyntax.Green.Basic

namespace LosslessSyntax

namespace Green

def pending : List (List Green) → Nat
  | [] => 0
  | gs :: stack => 2 * sizes gs + 1 + pending stack

def leavesOf : List (List Green) → List Green
  | [] => []
  | [] :: stack => leavesOf stack
  | (token i s ds :: gs) :: stack => token i s ds :: leavesOf (gs :: stack)
  | (node _ _ _ cs _ :: gs) :: stack => leavesOf (cs :: gs :: stack)
termination_by stack => pending stack
decreasing_by
  all_goals simp [pending, sizes, size]
  all_goals omega

def leaves (g : Green) : List Green := leavesOf [g.children]

end Green

end LosslessSyntax
