import Interleave.Text.Utf8
import Interleave.RowKey

/-!
What can be wrong with stored data and with declarations. Each fault is a cause with its details;
the wording stands in one function for each type.
-/

namespace Interleave

/-- What makes bytes unreadable, or a value impossible to write. -/
inductive EncodingFault where
  | endOfInput
  | endOfLength
  | badText (fault : Text.Utf8Fault)
  | unknownTag (tag : UInt8)
  | tooLong (what : String)
  | emptyRow
  | rowVersion (version : UInt8)
  | afterRow (count : Nat)
  | emptySortable
  | truncatedSortable
  | badBool (byte : UInt8)
  | badEscape (byte : UInt8)
  | unterminated
  | unknownSortableTag (tag : UInt8)
  | afterSortable (count : Nat)
  | truncatedSegment (offset : Nat)
  | emptyStoredKey
  | storedKeyTable (table : TableId)
  | storedKeyPath (shown : String)
  | other (text : String)
deriving DecidableEq

/-- What makes a list of declarations no catalog. -/
inductive CatalogFault where
  | tooManyGroups
  | tooManyTables
  | tooManyIndexes
  | duplicateGroup (group : String)
  | duplicateTable (table : String)
  | duplicateColumn (table column : String)
  | duplicateIndex (index : String)
  | unknownGroup (table group : String)
  | missingGroup (group : String)
  | unknownParent (table parent : String)
  | unknownColumn (table column : String)
  | unknownIndexedTable (index table : String)
  | secondRoot (group : String)
  | noRoot (group : String)
  | noIndexColumns (index : String)
  | other (text : String)
deriving DecidableEq

inductive DataError where
  | encoding (fault : EncodingFault)
  | mismatch (expected actual : String) (value : Option String)
  | validation (fault : CatalogFault)
deriving DecidableEq

namespace EncodingFault

def message : EncodingFault → String
  | endOfInput => "unexpected end of input"
  | endOfLength => "unexpected end of input reading length"
  | badText fault => "invalid UTF-8: " ++ fault.message
  | unknownTag tag => "unknown value tag: " ++ Bytes.hexNumber tag
  | tooLong what => what ++ " too long"
  | emptyRow => "empty row body"
  | rowVersion version => "unsupported row format version " ++ toString version.toNat
  | afterRow count => toString count ++ " trailing bytes after row body"
  | emptySortable => "empty sortable value"
  | truncatedSortable => "truncated sortable value"
  | badBool byte => "invalid bool byte " ++ Bytes.hexNumber byte
  | badEscape byte => "invalid escape sequence 0x00 " ++ Bytes.hexNumber byte
  | unterminated => "unterminated escaped field"
  | unknownSortableTag tag => "unknown sortable tag " ++ Bytes.hexNumber tag
  | afterSortable count => toString count ++ " trailing bytes after sortable value"
  | truncatedSegment offset => "truncated hkey segment at offset " ++ toString offset
  | emptyStoredKey => "stored row has an empty key"
  | storedKeyTable table => "stored key names unknown table " ++ table.display
  | storedKeyPath shown => "stored key " ++ shown ++ " names no table"
  | other text => text

end EncodingFault

namespace CatalogFault

def quoted (name : String) : String := "'" ++ name ++ "'"

def message : CatalogFault → String
  | tooManyGroups => "too many groups"
  | tooManyTables => "too many tables"
  | tooManyIndexes => "too many indexes"
  | duplicateGroup group => "duplicate group " ++ quoted group
  | duplicateTable table => "duplicate table " ++ quoted table
  | duplicateColumn table column =>
    "table " ++ quoted table ++ " declares column " ++ quoted column ++ " twice"
  | duplicateIndex index => "duplicate index " ++ quoted index
  | unknownGroup table group =>
    "table " ++ quoted table ++ " refers to unknown group " ++ quoted group
  | missingGroup group => "unknown group " ++ quoted group
  | unknownParent table parent =>
    "table " ++ quoted table ++ " refers to unknown parent " ++ quoted parent
  | unknownColumn table column => "table " ++ quoted table ++ " has no column " ++ quoted column
  | unknownIndexedTable index table =>
    "index " ++ quoted index ++ " refers to unknown table " ++ quoted table
  | secondRoot group => "group " ++ quoted group ++ " already has a root table"
  | noRoot group => "group " ++ quoted group ++ " has no root table"
  | noIndexColumns index => "index " ++ quoted index ++ " has no columns"
  | other text => text

end CatalogFault

namespace DataError

def kind : DataError → String
  | encoding _ => "Encoding"
  | mismatch .. => "TypeMismatch"
  | validation _ => "Validation"

/-- The longest value text that an error quotes whole, in bytes. -/
def quotedLength : Nat := 100

/-- The characters of a text that fit in `room` bytes. -/
def fitting : Nat → List Char → List Char
  | _, [] => []
  | room, c :: rest => if c.utf8Size ≤ room then c :: fitting (room - c.utf8Size) rest else []

/-- A mismatch that quotes the value, cut short when it is long. -/
def mismatchOf (expected actual shown : String) : DataError :=
  mismatch expected actual
    (some (if quotedLength < shown.utf8ByteSize then
      String.ofList (fitting quotedLength shown.toList) ++ "..." else shown))

def message : DataError → String
  | encoding fault => "encoding error: " ++ fault.message
  | mismatch expected actual none => "type mismatch: expected " ++ expected ++ ", got " ++ actual
  | mismatch expected actual (some value) =>
    "type mismatch: expected " ++ expected ++ ", got " ++ actual ++ " (value: " ++ value ++ ")"
  | validation fault => "validation error: " ++ fault.message

end DataError

end Interleave
