import Interleave.Pipeline.Progress
import Interleave.Store.Traversal

/-!
Operators as machines. A machine is opened on a store and bindings, asked for one row at a time,
and closed. Each call answers and leaves a state, also when it fails, and the machine may be asked
again after an error.
-/

namespace Interleave.Pipeline

/-- Counts that a machine keeps over all its runs: rows read from the store and rows dropped. They
are natural numbers and stand for atomic counters of 64 bits, which would start again from 0. -/
structure Counters where
  read : Nat
  filtered : Nat
deriving DecidableEq

def Counters.add (a b : Counters) : Counters := ⟨a.read + b.read, a.filtered + b.filtered⟩

/-- `ahead` is no fewer than the rows that are still to come, while the store does not change and
if they come to an end. -/
structure Machine (σ : Type) where
  name : String
  fresh : σ
  launch : Store → Bindings → σ → Except QueryError Unit × σ
  advance : Store → σ → Except QueryError (Option Row) × σ
  close : σ → Except QueryError Unit × σ
  progress : σ → Progress
  counters : σ → Counters
  ahead : Store → σ → Nat

end Interleave.Pipeline
