import LosslessSyntax.Edit

namespace LosslessSyntax

structure Document where
  root : Green
  version : UInt64

/-- What is done with a document may have changed it even if it fails later on. -/
abbrev Revision := EStateM Failure Document

namespace Revision

def ofExcept {α : Type} : Except Failure α → Revision α
  | .ok a => fun d => .ok a d
  | .error e => fun d => .error e d

def setRoot (root : Green) : Revision Unit := fun d => .ok () { d with root }

def countUp : Revision Unit := fun d =>
  if d.version.toNat + 1 < UInt64.size then .ok () { d with version := d.version + 1 }
  else .error (.aborted .versionOverflow) d

end Revision

namespace Document

def ofRoot (root : Green) : Document := ⟨root, 0⟩

def session (d : Document) : Mint Session := Session.ofRoot d.root

def modify (edits : List (Path × Green)) (supply : Supply) : Revision (Session × Supply) := do
  let (session, supply) ← Revision.ofExcept (((← get).session).run supply)
  if edits.isEmpty then pure (session, supply)
  else
    let batch := edits.map fun (path, g) => Edit.atPath path g
    let (edited, supply) ← Revision.ofExcept (Nav.answer (Session.apply batch supply) session)
    Revision.setRoot edited.root
    Revision.countUp
    pure (edited, supply)

def display (d : Document) : String :=
  "SyntaxDocument \x7b root: " ++ d.root.display ++ ", version: " ++ toString d.version ++ " \x7d"

end Document

end LosslessSyntax
