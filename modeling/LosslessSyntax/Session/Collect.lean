import LosslessSyntax.Session.Trivia
import LosslessSyntax.Session.Walk

namespace LosslessSyntax

namespace Session

def locateOwn (id : Nat) : Nav (List LocatedDiagnostic) := do
  let p ← Nav.placement id
  let range ← trimmedRange id
  pure (p.green.diagnostics.map fun d => d.locate range)

def collectVisit : Event → List LocatedDiagnostic → Nav (List LocatedDiagnostic × Bool)
  | .leave _, found => pure (found, false)
  | .enter id, found => do
      let p ← Nav.placement id
      if p.green.containsDiagnostics then
        let own ← locateOwn id
        pure (found ++ own, false)
      else pure (found, true)

def diagnostics (id : Nat) : Nav (List LocatedDiagnostic) := do
  let p ← Nav.placement id
  if p.isNode then
    if p.green.containsDiagnostics then walk (Walk.ofNode id) collectVisit [] else pure []
  else locateOwn id

end Session

end LosslessSyntax
