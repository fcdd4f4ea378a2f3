import Interleave.Config

/-!
Settings from text, in the part of TOML that settings need: one assignment a line, comments, bare
and quoted keys, whole numbers in four bases and truth values. Every other form of value would
have the wrong type and every other key is unknown, so a text that leaves this part is refused.
-/

namespace Interleave.Config

/-- A setting that one line makes. -/
inductive Setting where
  | batchSize (n : Nat)
  | collectStats (on : Bool)
deriving DecidableEq

namespace Reader

def isBlank (c : Char) : Bool := c = ' ' || c = '\t'

/-- A control character other than a tab may not stand in a comment. -/
def isCommentChar (c : Char) : Bool := c = '\t' || (0x20 ≤ c.toNat && c.toNat ≠ 0x7F)

def skipBlanks (cs : List Char) : List Char := cs.dropWhile isBlank

/-- Whether nothing but blanks and a comment is left of a line. -/
def isLineEnd (cs : List Char) : Bool :=
  match skipBlanks cs with
  | [] => true
  | c :: rest => c = '#' && rest.all isCommentChar

def isBareKeyChar (c : Char) : Bool := c.isAlphanum || c = '_' || c = '-'

def digit? (base : Nat) (c : Char) : Option Nat := (Bytes.hexValue? c).filter (· < base)

/-- Digits of a number, with single underscores between them. `seen` is the number so far. -/
def digits? (base : Nat) : Option Nat → List Char → Option Nat
  | seen, [] => seen
  | some n, '_' :: c :: rest =>
    (digit? base c).bind fun d => digits? base (some (n * base + d)) rest
  | seen, c :: rest => (digit? base c).bind fun d => digits? base (some (seen.getD 0 * base + d)) rest

/-- A decimal number has no superfluous zero in front. -/
def decimal? : List Char → Option Nat
  | ['0'] => some 0
  | '0' :: _ => none
  | cs => digits? 10 none cs

/-- A number that is not negative and has 64 bits, one of them for the sign. -/
def natural? (cs : List Char) : Option Nat :=
  let n := match cs with
    | '0' :: 'x' :: rest => digits? 16 none rest
    | '0' :: 'o' :: rest => digits? 8 none rest
    | '0' :: 'b' :: rest => digits? 2 none rest
    | '+' :: rest => decimal? rest
    | ['-', '0'] => some 0
    | _ => decimal? cs
  n.filter fun n => n ≤ Int64.maxValue.toInt

def truth? (cs : List Char) : Option Bool :=
  if cs = "true".toList then some true else if cs = "false".toList then some false else none

def codePoint? (cs : List Char) : Option Char :=
  (cs.foldl (fun n c => n.bind fun n => (digit? 16 c).map (n * 16 + ·)) (some 0)).bind fun n =>
    if n.isValidChar then some (Char.ofNat n) else none

/-- The rest of a key in double quotes. The one kind of escape that a known key can hold names a
character by its number. -/
def quotedKey? : List Char → Option (List Char × List Char)
  | [] => none
  | '"' :: rest => some ([], rest)
  | '\\' :: 'u' :: a :: b :: c :: d :: rest =>
    (codePoint? [a, b, c, d]).bind fun x => (quotedKey? rest).map fun (key, rest) => (x :: key, rest)
  | '\\' :: 'U' :: a :: b :: c :: d :: e :: f :: g :: h :: rest =>
    (codePoint? [a, b, c, d, e, f, g, h]).bind fun x =>
      (quotedKey? rest).map fun (key, rest) => (x :: key, rest)
  | '\\' :: _ => none
  | x :: rest => (quotedKey? rest).map fun (key, rest) => (x :: key, rest)

def singleQuote : Char := Char.ofNat 39

/-- A key, and the line after it. -/
def key? (cs : List Char) : Option (List Char × List Char) :=
  match cs with
  | [] => none
  | c :: rest =>
    if c = '"' then quotedKey? rest
    else if c = singleQuote then
      match rest.dropWhile (· ≠ singleQuote) with
      | [] => none
      | _ :: after => some (rest.takeWhile (· ≠ singleQuote), after)
    else some (cs.takeWhile isBareKeyChar, cs.dropWhile isBareKeyChar)

def isValueChar (c : Char) : Bool := !isBlank c && c ≠ '#'

def setting? (key value : List Char) : Option Setting :=
  if key = "batch_size".toList then (natural? value).map .batchSize
  else if key = "collect_stats".toList then (truth? value).map .collectStats
  else none

/-- An assignment, up to the end of its line. -/
def assignment? (cs : List Char) : Option Setting :=
  match key? cs with
  | none => none
  | some (key, rest) =>
    match skipBlanks rest with
    | '=' :: rest =>
      let value := skipBlanks rest
      if isLineEnd (value.dropWhile isValueChar) then setting? key (value.takeWhile isValueChar)
      else none
    | _ => none

/-- The settings of a line: none on an empty line, one on any other. -/
def line? (cs : List Char) : Option (List Setting) :=
  if isLineEnd cs then some [] else (assignment? (skipBlanks cs)).map fun s => [s]

/-- The lines of a text. A carriage return belongs to the line feed after it. -/
def lines : List Char → List (List Char)
  | [] => [[]]
  | '\n' :: rest => [] :: lines rest
  | '\r' :: '\n' :: rest => [] :: lines rest
  | c :: rest =>
    match lines rest with
    | [] => [[c]]
    | first :: others => (c :: first) :: others

def settings? : List (List Char) → Option (List Setting)
  | [] => some []
  | cs :: rest => (line? cs).bind fun here => (settings? rest).map (here ++ ·)

/-- A byte order mark may come first. -/
def withoutMark : List Char → List Char
  | c :: rest => if c.toNat = 0xFEFF then rest else c :: rest
  | [] => []

def batchSizes (settings : List Setting) : List Nat :=
  settings.filterMap fun
    | .batchSize n => some n
    | _ => none

def statsChoices (settings : List Setting) : List Bool :=
  settings.filterMap fun
    | .collectStats on => some on
    | _ => none

/-- At most one line may speak of a setting; one that is not spoken of keeps its default. -/
def once? {α : Type} (default : α) : List α → Option α
  | [] => some default
  | [a] => some a
  | _ => none

def config? (text : String) : Option Config := do
  let settings ← settings? (lines (withoutMark text.toList))
  let batchSize ← once? standard.batchSize (batchSizes settings)
  let collectStats ← once? standard.collectStats (statsChoices settings)
  return ⟨batchSize, collectStats⟩

end Reader

def ofText (text : String) : Except QueryError Config := do
  match Reader.config? text with
  | none => throw (.config .unreadable)
  | some config =>
    config.validate
    return config

end Interleave.Config
