import Interleave.Query.Error

/-!
Settings of an execution.
-/

namespace Interleave

/-- `batchSize` is the number of stored entries that a traversal reads at a time. -/
structure Config where
  batchSize : Nat
  collectStats : Bool
deriving DecidableEq

namespace Config

def standard : Config := ⟨256, false⟩

def validate (c : Config) : Except QueryError Unit :=
  if c.batchSize = 0 then .error (.config .zeroBatch) else .ok ()

end Config

end Interleave
