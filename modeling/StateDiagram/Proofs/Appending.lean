import StateDiagram.Proofs.Resolution

namespace StateDiagram

instance : Append Machine := ⟨fun older newer => ⟨older.statements ++ newer.statements⟩⟩

/-- An edge by the names of its ends. It starts at the start mark if it has no source. -/
structure Link where
  source : Option String
  target : String
  /-- What stands behind the ends on its line. -/
  text : String
deriving DecidableEq, Repr

def Link.line (id : String → String) (link : Link) : String :=
  let source := (link.source.map id).getD Diagram.startMark
  Diagram.indent ++ source ++ Diagram.arrow ++ id link.target ++ link.text

namespace Machine

/-- The declaration lines of the states, if they are numbered from `start` on. -/
def declarations (machine : Machine) (start : Nat) : List String :=
  machine.states.mapIdx fun index state =>
    Diagram.declarationLine (start + index) (Label.ofState state)

variable (older newer machine : Machine)

end Machine

end StateDiagram
