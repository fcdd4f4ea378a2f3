import Interleave.Row
import Interleave.Query.Error

/-!
How far an operator has come: closed, running or exhausted, with the row that it produced last.
Every operator keeps one of these and follows its rules.
-/

namespace Interleave.Pipeline

inductive Phase where
  | closed
  | running
  | exhausted
deriving DecidableEq

/-- An exhausted operator is still open. -/
def Phase.isOpen : Phase → Bool
  | closed => false
  | _ => true

def Phase.display : Phase → String
  | closed => "Closed"
  | running => "Open"
  | exhausted => "Exhausted"

/-- `produced` counts rows since the operator was last opened, in a natural number like all counts
here. -/
structure Progress where
  phase : Phase
  current : Option Row
  produced : Nat

namespace Progress

def fresh : Progress := ⟨.closed, none, 0⟩

def isOpen (p : Progress) : Bool := p.phase.isOpen

def checkClosed (operator : String) (p : Progress) : Except QueryError Unit :=
  if p.isOpen then .error (.usage (.openedTwice operator)) else .ok ()

def start (_ : Progress) : Progress := ⟨.running, none, 0⟩

/-- Whether the operator may look for a row. The current row is given up in any case. -/
def begin (operator : String) (p : Progress) : Except QueryError Bool × Progress :=
  let answer := match p.phase with
    | .closed => .error (.usage (.advancedClosed operator))
    | .exhausted => .ok false
    | .running => .ok true
  (answer, { p with current := none })

def emit (p : Progress) (row : Row) : Progress :=
  { p with current := some row, produced := p.produced + 1 }

def exhaust (p : Progress) : Progress := { p with phase := .exhausted, current := none }

def close (p : Progress) : Progress := { p with phase := .closed, current := none }

def row (operator : String) (p : Progress) : Except QueryError Row :=
  match p.current with
  | some row => .ok row
  | none => .error (.usage (.noCurrentRow operator))

end Progress

end Interleave.Pipeline
