import Interleave.Bindings
import Interleave.Fault
import Interleave.RowKey.Segments
import Interleave.Storage.Transaction

/-!
What can go wrong in building and running a query, or in changing stored rows. Each error is a
cause; the wording stands in one function for each type. A loop that uses up its fuel before its
input ends answers `unfinished`: nobody broke a rule, but it cannot go on.
-/

namespace Interleave

/-- A caller broke a rule. -/
inductive UsageFault where
  | unknownTable (table : TableId)
  | unknownGroup (group : GroupId)
  | unknownIndex (index : IndexId)
  | noGroup (table : String)
  | valueCount (table : String) (columns values : Nat)
  | duplicateKey (key : Value) (table : String)
  | emptyLookup
  | unpositioned
  | openedTwice (operator : String)
  | advancedClosed (operator : String)
  | noCurrentRow (operator : String)
  | noTraversal (scan : String)
  | notIndex (rowType : String)
  | notKnownIndex (rowType : String)
  | rowWithoutKey
  | offPath (table : TableId) (key : RowKey)
  | notParentAndChild (child parent : String)
  | noIndexRows (operator : String)
  | outsideGroup (group : GroupId)
  | notAncestor (rowType : String)
  | boundWhileOpen
  | treeOpenedTwice
  | fieldRange (field : Nat) (rowType : String) (count : Nat)
  | other (text : String)
deriving DecidableEq

inductive ConfigFault where
  | zeroBatch
  | unreadable
  | other (text : String)
deriving DecidableEq

inductive QueryError where
  | usage (fault : UsageFault)
  | adapter (text : String)
  | rowNotFound (key : RowKey)
  | binding (fault : BindingFault)
  | data (error : DataError)
  | config (fault : ConfigFault)
  | unfinished
deriving DecidableEq

namespace UsageFault

def message : UsageFault → String
  | unknownTable table => "unknown table " ++ table.display
  | unknownGroup group => "unknown group " ++ toString group.num
  | unknownIndex index => "unknown index " ++ toString index.num
  | noGroup table => "table " ++ table ++ " has no group"
  | valueCount table columns values =>
    "table " ++ table ++ " has " ++ toString columns ++ " columns, got " ++ toString values ++ " values"
  | duplicateKey key table => "duplicate primary key " ++ key.display ++ " in table " ++ table
  | emptyLookup => "point lookup with an empty key"
  | unpositioned => "traversal is not positioned on an entry"
  | openedTwice operator => operator ++ " cursor opened twice without close"
  | advancedClosed operator => operator ++ " cursor advanced while closed"
  | noCurrentRow operator => operator ++ " cursor has no current row; call advance first"
  | noTraversal scan => scan ++ " scan has no open traversal"
  | notIndex rowType => rowType ++ " is not an index"
  | notKnownIndex rowType => rowType ++ " is not a known index"
  | rowWithoutKey => "index lookup input row has no hkey"
  | offPath table key => "table " ++ table.display ++ " is not on the path of " ++ key.display
  | notParentAndChild child parent =>
    "cannot flatten " ++ child ++ " into " ++ parent ++ ": not a parent and child"
  | noIndexRows operator => operator ++ " input of index lookup does not produce index rows"
  | outsideGroup group =>
    "index lookup in group " ++ toString group.num ++ " over an index on a table outside it"
  | notAncestor rowType => rowType ++ " is not an ancestor of the indexed table"
  | boundWhileOpen => "bindings cannot change while the tree is open"
  | treeOpenedTwice => "tree opened twice without close"
  | fieldRange field rowType count =>
    "field " ++ toString field ++ " out of range for " ++ rowType ++ " with " ++ toString count ++ " fields"
  | other text => text

end UsageFault

def ConfigFault.message : ConfigFault → String
  | zeroBatch => "batch_size must be at least 1"
  | unreadable => "unreadable configuration"
  | other text => text

namespace QueryError

def kind : QueryError → String
  | usage _ => "Usage"
  | adapter _ => "Adapter"
  | rowNotFound _ => "RowNotFound"
  | binding _ => "Binding"
  | data _ => "Encoding"
  | config _ => "Config"
  | unfinished => "Unfinished"

def message : QueryError → String
  | usage fault => "usage error: " ++ fault.message
  | adapter text => "adapter error: " ++ text
  | rowNotFound key => "row not found at " ++ key.display
  | binding fault => "binding error: " ++ fault.message
  | data error => error.message
  | config fault => "configuration error: " ++ fault.message
  | unfinished => "unfinished"

/-- An error of a given kind, with a free text. A missing row has no text but a key. -/
def ofKind? (kind text : String) : Option QueryError :=
  [usage (.other text), adapter text, binding (.other text), data (.encoding (.other text)),
    config (.other text)].find? (·.kind = kind)

def encoding (fault : EncodingFault) : QueryError := data (.encoding fault)

def ofStorage (error : Storage.StorageError) : QueryError := adapter error.message

end QueryError

/-- Reads an encoding result as a query result. -/
def EncodingFault.lift {α : Type} : Except EncodingFault α → Except QueryError α
  | .ok a => .ok a
  | .error fault => .error (.encoding fault)

end Interleave
