import Interleave.Storage.Cursor

/-!
Transactions over an engine's one key space. A transaction works on the contents committed when it
began; nothing of a write transaction is seen until it commits, and a dropped one leaves no trace.
-/

namespace Interleave.Storage

inductive StorageError where
  | openFailed (text : String)
  | transaction (text : String)
  | readOnly
  | internal (text : String)
  | io (text : String)
  | serialization (text : String)
  | unsupported (text : String)
deriving DecidableEq

def StorageError.kind : StorageError → String
  | openFailed _ => "Open"
  | transaction _ => "Transaction"
  | readOnly => "ReadOnly"
  | internal _ => "Internal"
  | io _ => "Io"
  | serialization _ => "Serialization"
  | unsupported _ => "Unsupported"

def StorageError.message : StorageError → String
  | openFailed text => "failed to open database: " ++ text
  | transaction text => "transaction error: " ++ text
  | readOnly => "cannot write in a read-only transaction"
  | internal text => "internal storage error: " ++ text
  | io text => "I/O error: " ++ text
  | serialization text => "serialization error: " ++ text
  | unsupported text => "operation not supported: " ++ text

/-- An error of a given kind, with a free text. -/
def StorageError.ofKind? (kind text : String) : Option StorageError :=
  [openFailed text, transaction text, readOnly, internal text, io text, serialization text,
    unsupported text].find? (·.kind = kind)

/-- `cursorBatch` is the number of entries that a cursor loads at a time; `maxSize` limits the
size of a file that may be opened. -/
structure EngineConfig where
  cursorBatch : Option Nat
  maxSize : Option Nat

namespace EngineConfig

def standard : EngineConfig := ⟨none, none⟩

def defaultCursorBatch : Nat := 1000

def effectiveBatch (c : EngineConfig) : Nat := max (c.cursorBatch.getD defaultCursorBatch) 1

end EngineConfig

structure Engine where
  committed : ByteMap
  cursorBatch : Nat

structure Transaction where
  readOnly : Bool
  contents : ByteMap
  cursorBatch : Nat

namespace Transaction

def get? (tx : Transaction) (table : String) (key : Bytes) : Option Bytes :=
  tx.contents.getIn? table key

def put (tx : Transaction) (table : String) (key value : Bytes) :
    Except StorageError Transaction :=
  if tx.readOnly then .error .readOnly
  else .ok { tx with contents := tx.contents.putIn table key value }

/-- Also answers whether the key was there. -/
def delete (tx : Transaction) (table : String) (key : Bytes) :
    Except StorageError (Bool × Transaction) :=
  if tx.readOnly then .error .readOnly
  else .ok (tx.contents.containsIn table key, { tx with contents := tx.contents.eraseIn table key })

def range (tx : Transaction) (table : String) (low high : Bound) : Cursor :=
  .between tx.contents tx.cursorBatch table low high

def cursor (tx : Transaction) (table : String) : Cursor := tx.range table .unbounded .unbounded

end Transaction

namespace Engine

/-- A new engine: in memory, or in a file that did not exist. -/
def create (config : EngineConfig) : Engine := ⟨.empty, config.effectiveBatch⟩

/-- No file is smaller than this, in bytes. -/
def leastFileSize : Nat := 1048576

/-- Opens the contents of an existing file again. -/
def reopen (e : Engine) (config : EngineConfig) : Except StorageError Engine :=
  match config.maxSize with
  | some limit =>
    if limit < leastFileSize then
      .error (.openFailed ("file over the configured maximum of " ++ toString limit))
    else .ok ⟨e.committed, config.effectiveBatch⟩
  | none => .ok ⟨e.committed, config.effectiveBatch⟩

def beginRead (e : Engine) : Transaction := ⟨true, e.committed, e.cursorBatch⟩

def beginWrite (e : Engine) : Transaction := ⟨false, e.committed, e.cursorBatch⟩

def commit (e : Engine) (tx : Transaction) : Engine :=
  if tx.readOnly then e else { e with committed := tx.contents }

end Engine

end Interleave.Storage
