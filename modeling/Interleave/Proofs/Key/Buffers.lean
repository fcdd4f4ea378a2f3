import Mathlib.Logic.Function.Basic
import Interleave.Proofs.Key.SegmentEnds

/-!
Keys as they lie in memory: the bytes, and beside them the offsets where the segments end. Every operation
changes both. Main statement: whatever is done to keys in named registers, in every register the offsets are
the ones that the bytes tell, so that keys are equal just if their bytes are, no look at a segment leaves the
key, and what is cut off at a segment is the key of the segments before it.
-/

namespace Interleave

open RowKey (segmentEnd? segmentEnds? endsFrom)

/-- The bytes of a key and the end of each of its segments. -/
structure KeyBuffer where
  bytes : Bytes
  ends : List Nat
deriving DecidableEq

/-- The bytes from one offset to another, unless one of them is out of range. -/
def Bytes.between? (b : Bytes) (start stop : Nat) : Option Bytes :=
  if start ≤ stop ∧ stop ≤ b.length then some ((b.take stop).drop start) else none

namespace KeyBuffer

def empty : KeyBuffer := ⟨[], []⟩

def depth (b : KeyBuffer) : Nat := b.ends.length

/-- Where the segment at a depth starts, unless there is none above it. -/
def start? (b : KeyBuffer) : Nat → Option Nat
  | 0 => some 0
  | depth + 1 => b.ends[depth]?

def push (b : KeyBuffer) (table : TableId) (value : Value) : KeyBuffer :=
  let bytes := b.bytes ++ (Bytes.bigEndian 2 table.toNat ++ Codec.Sortable.encode value)
  ⟨bytes, b.ends ++ [bytes.length]⟩

def ofSegments (path : List (TableId × Value)) : KeyBuffer :=
  path.foldl (fun b (table, value) => b.push table value) empty

/-- Puts down the end of each segment of new bytes, and the bytes when all are found. The ends are given up
at a segment that does not read. -/
def load (input : Bytes) : Nat → Nat → KeyBuffer → Option (KeyBuffer × Option EncodingFault)
  | turns, offset, b =>
    if input.length ≤ offset then some ({ b with bytes := b.bytes ++ input }, none)
    else match turns with
      | 0 => none
      | turns + 1 =>
        match segmentEnd? input offset with
        | none => none
        | some (.error fault) => some ({ b with ends := [] }, some fault)
        | some (.ok next) => load input turns next { b with ends := b.ends ++ [next] }

/-- Reads new bytes into a key, which is emptied first. -/
def reset? (b : KeyBuffer) (input : Bytes) : Option (KeyBuffer × Option EncodingFault) :=
  load input input.length 0 { b with bytes := [], ends := [] }

def ofBytes? (input : Bytes) : Option (Except EncodingFault KeyBuffer) :=
  (empty.reset? input).map fun (b, fault) =>
    match fault with
    | none => .ok b
    | some fault => .error fault

/-- Cuts a key off after its first segments. -/
def truncate? (b : KeyBuffer) (depth : Nat) : Option KeyBuffer :=
  if depth < b.depth then
    (b.start? depth).map fun stop => ⟨b.bytes.take stop, b.ends.take depth⟩
  else some b

/-- A copy that is cut off, if there is something to cut off. -/
def ancestor? (b : KeyBuffer) (depth : Nat) : Option (Option KeyBuffer) :=
  if depth < b.depth then (b.truncate? depth).map some else some none

def tableAt? (b : KeyBuffer) (depth : Nat) : Option (Option TableId) :=
  if depth < b.depth then do
    let start ← b.start? depth
    let high ← b.bytes[start]?
    let low ← b.bytes[start + 1]?
    return some (TableId.ofNat (Bytes.ofBigEndian [high, low]))
  else some none

def valueAt? (b : KeyBuffer) (depth : Nat) : Option (Except EncodingFault (Option Value)) :=
  if depth < b.depth then do
    let start ← b.start? depth
    let stop ← b.ends[depth]?
    let input ← b.bytes.between? (start + 2) stop
    return (Codec.Sortable.readPrefix input).map fun (v, _) => some v
  else some (.ok none)

def segmentAt? (b : KeyBuffer) (depth : Nat) : Option (Except EncodingFault (TableId × Value)) :=
  match b.tableAt? depth with
  | none => none
  | some none => some (.error (.other ("missing hkey segment at depth " ++ toString depth)))
  | some (some table) => (b.valueAt? depth).map (Except.map fun v => (table, v.getD .null))

/-- The segments at certain depths, up to the first that does not read. -/
def segmentsAt? (b : KeyBuffer) : List Nat → Option (Except EncodingFault (List (TableId × Value)))
  | [] => some (.ok [])
  | depth :: rest =>
    match b.segmentAt? depth with
    | none => none
    | some (.error fault) => some (.error fault)
    | some (.ok s) => (b.segmentsAt? rest).map (Except.map (s :: ·))

def segments? (b : KeyBuffer) : Option (Except EncodingFault (List (TableId × Value))) :=
  b.segmentsAt? (List.range b.depth)

end KeyBuffer

/-- What can be done to keys in named registers. -/
inductive KeyOperation where
  | new (target : String)
  | ofSegments (target : String) (path : List (TableId × Value))
  | ofBytes (target : String) (input : Bytes)
  | snapshot (source target : String)
  | ancestor (source : String) (depth : Nat) (target : String)
  | push (key : String) (table : TableId) (value : Value)
  | truncate (key : String) (depth : Nat)
  | reset (key : String) (input : Bytes)

namespace KeyOperation

/-- The register that an operation may change. -/
def target : KeyOperation → String
  | new target => target
  | ofSegments target _ => target
  | ofBytes target _ => target
  | snapshot _ target => target
  | ancestor _ _ target => target
  | push key _ _ => key
  | truncate key _ => key
  | reset key _ => key

/-- The key that an operation leaves in its register. Bytes that do not read leave what was there, as does a
key with nothing to cut off. -/
def outcome (keys : String → RowKey) : KeyOperation → RowKey
  | new _ => .empty
  | ofSegments _ path => .ofSegments path
  | ofBytes target input =>
    match RowKey.ofBytes input with
    | .ok k => k
    | .error _ => keys target
  | snapshot source _ => keys source
  | ancestor source depth target => ((keys source).ancestor? depth).getD (keys target)
  | push key table value => (keys key).push table value
  | truncate key depth => (keys key).truncate depth
  | reset _ input => (RowKey.reset input).1

def run (keys : String → RowKey) (operations : List KeyOperation) : String → RowKey :=
  operations.foldl (fun keys o => Function.update keys o.target (o.outcome keys)) keys

/-- The same in memory. There is no answer when something out of range is looked at. -/
def outcome? (buffers : String → KeyBuffer) : KeyOperation → Option KeyBuffer
  | new _ => some .empty
  | ofSegments _ path => some (.ofSegments path)
  | ofBytes target input => (KeyBuffer.ofBytes? input).map fun read =>
    match read with
    | .ok b => b
    | .error _ => buffers target
  | snapshot source _ => some (buffers source)
  | ancestor source depth target => ((buffers source).ancestor? depth).map fun cut => cut.getD (buffers target)
  | push key table value => some ((buffers key).push table value)
  | truncate key depth => (buffers key).truncate? depth
  | reset key input => ((buffers key).reset? input).map Prod.fst

def run? (buffers : String → KeyBuffer) (operations : List KeyOperation) : Option (String → KeyBuffer) :=
  operations.foldlM (fun buffers o => (o.outcome? buffers).map (Function.update buffers o.target)) buffers

end KeyOperation

namespace RowKey

variable {k : RowKey} {s : Segment} {d : Nat}

theorem endsFrom_append (offset : Nat) (above below : List Segment) :
    endsFrom offset (above ++ below) =
      endsFrom offset above ++ endsFrom (offset + (⟨above⟩ : RowKey).bytes.length) below := by
  induction above generalizing offset with
  | nil => rfl
  | cons s above ih =>
    rw [List.cons_append, endsFrom, endsFrom, ih, bytes_cons, List.length_append, Nat.add_assoc]
    rfl

theorem length_endsFrom (offset : Nat) (segments : List Segment) :
    (endsFrom offset segments).length = segments.length := by
  induction segments generalizing offset with
  | nil => rfl
  | cons s segments ih => rw [endsFrom, List.length_cons, List.length_cons, ih]

theorem bytes_split (k : RowKey) (depth : Nat) :
    k.bytes = (k.truncate depth).bytes ++ (⟨k.segments.drop depth⟩ : RowKey).bytes := by
  rw [truncate, ← bytes_append, List.take_append_drop]

theorem ends_split (k : RowKey) (depth : Nat) :
    k.ends = (k.truncate depth).ends ++
      endsFrom (k.truncate depth).bytes.length (k.segments.drop depth) := by
  have split := endsFrom_append 0 (k.segments.take depth) (k.segments.drop depth)
  rw [List.take_append_drop, Nat.zero_add] at split
  exact split

theorem bytes_truncate_succ (found : k.segments[d]? = some s) :
    (k.truncate (d + 1)).bytes = (k.truncate d).bytes ++ s.bytes := by
  rw [truncate, List.take_add_one, found, Option.toList_some, bytes_append]
  exact congrArg _ (List.append_nil s.bytes)

theorem length_ends_truncate (inside : d < k.depth) : (k.truncate d).ends.length = d := by
  rw [ends, length_endsFrom, truncate, List.length_take_of_le (Nat.le_of_lt inside)]

theorem take_ends (inside : d < k.depth) : k.ends.take d = (k.truncate d).ends := by
  rw [ends_split k d, List.take_left' (length_ends_truncate inside)]

/-- A segment ends where the next one starts. -/
theorem getElem?_ends (found : k.segments[d]? = some s) :
    k.ends[d]? = some (k.truncate (d + 1)).bytes.length := by
  have before := length_ends_truncate (List.getElem?_eq_some_iff.1 found).1
  rw [ends_split k d, List.getElem?_append_right (Nat.le_of_eq before), before, Nat.sub_self,
    bytes_truncate_succ found, List.length_append, List.drop_eq_getElem?_toList_append, found]
  rfl

/-- A path gives segment by segment what the key has at each depth. -/
theorem at_of_path {segments : List Segment} {path : List (TableId × Value)}
    (decoded : decodeSegments segments = .ok path) (d : Nat) :
    (⟨segments⟩ : RowKey).tableAt? d = path[d]?.map Prod.fst ∧
      (⟨segments⟩ : RowKey).valueAt? d = .ok (path[d]?.map Prod.snd) ∧
      decodeSegments (segments.take d) = .ok (path.take d) := by
  induction segments generalizing path d with
  | nil =>
    obtain rfl := Except.ok.inj decoded
    rw [List.take_nil, List.take_nil]
    exact ⟨rfl, rfl, rfl⟩
  | cons s segments ih =>
    rw [decodeSegments] at decoded
    split at decoded
    · cases decoded
    next v rest read =>
    obtain ⟨below, others, rfl⟩ := map_eq_ok decoded
    cases d with
    | zero =>
      refine ⟨rfl, ?_, rfl⟩
      simp only [valueAt?, List.getElem?_cons_zero, read]
      rfl
    | succ d =>
      obtain ⟨table, value, front⟩ := ih others d
      refine ⟨table, value, ?_⟩
      rw [List.take_succ_cons, decodeSegments, read, List.take_succ_cons, front]
      rfl

/-- A key that was made from a path has this path, each value in its canonical form. -/
theorem path_ofSegments (path : List (TableId × Value)) :
    (ofSegments path).path = .ok (path.map fun p => (p.1, p.2.canonical)) := by
  rw [RowKey.path, segments_ofSegments]
  induction path with
  | nil => rfl
  | cons p path ih =>
    have first := Codec.Sortable.read_encode p.2 []
    rw [List.append_nil] at first
    rw [List.map_cons, decodeSegments, ih]
    simp only [Segment.of, first]
    rfl

theorem isAbove_truncate {k : RowKey} {d : Nat} (inside : d < k.depth) :
    (k.truncate d).isAbove k = true := by
  refine (isAbove_iff _ _).2 ⟨_, ?_, bytes_split k d⟩
  rw [List.drop_eq_getElem_cons inside, bytes_cons]
  exact fun none => k.segments[d].bytes_ne_nil (List.append_eq_nil_iff.1 none).1

end RowKey

namespace KeyBuffer

variable {k : RowKey} {s : Segment} {d : Nat}

/-- A key as it lies in memory. -/
def of (k : RowKey) : KeyBuffer := ⟨k.bytes, k.ends⟩

@[simp] theorem depth_of (k : RowKey) : (of k).depth = k.depth := RowKey.length_endsFrom 0 k.segments

/-- A segment starts where the segments above it end. -/
theorem start?_of (inside : d ≤ k.depth) : (of k).start? d = some (k.truncate d).bytes.length := by
  cases d with
  | zero => rfl
  | succ d => exact RowKey.getElem?_ends (List.getElem?_eq_getElem inside)

theorem push_of (k : RowKey) (table : TableId) (value : Value) :
    (of k).push table value = of (k.push table value) := by
  have ends : (k.push table value).ends = k.ends ++ [(k.push table value).bytes.length] := by
    rw [RowKey.ends, RowKey.segments_push, RowKey.endsFrom_append, Nat.zero_add, RowKey.bytes_push,
      List.length_append]
    rfl
  rw [RowKey.bytes_push] at ends
  rw [of.eq_1 (k.push table value), ends, RowKey.bytes_push]
  rfl

theorem ofSegments_of (path : List (TableId × Value)) : ofSegments path = of (.ofSegments path) := by
  change path.foldl _ (of .empty) = of (path.foldl _ .empty)
  exact List.foldl_hom of fun k p => push_of k p.1 p.2

theorem truncate?_of (k : RowKey) (d : Nat) : (of k).truncate? d = some (of (k.truncate d)) := by
  rw [truncate?, depth_of]
  split
  · next inside =>
    have bytes : k.bytes.take (k.truncate d).bytes.length = (k.truncate d).bytes := by
      rw [RowKey.bytes_split k d, List.take_left]
    rw [start?_of (Nat.le_of_lt inside), Option.map_some, of, of, RowKey.take_ends inside, bytes]
  · next outside => rw [RowKey.truncate_of_depth_le (Nat.le_of_not_lt outside)]

theorem ancestor?_of (k : RowKey) (d : Nat) : (of k).ancestor? d = some ((k.ancestor? d).map of) := by
  rw [ancestor?, depth_of, truncate?_of, RowKey.ancestor?]
  split <;> rfl

/-- What is put down turn after turn is what the turns find. -/
theorem load_eq (input : Bytes) (turns offset : Nat) (ends : List Nat) :
    load input turns offset ⟨[], ends⟩ = (RowKey.segmentEnds? input turns offset).map fun read =>
      match read with
      | .ok more => (⟨input, ends ++ more⟩, none)
      | .error fault => (empty, some fault) := by
  induction turns generalizing offset ends with
  | zero =>
    rw [load, segmentEnds?]
    split
    · simp
    · rfl
  | succ turns ih =>
    rw [load, segmentEnds?]
    split
    · simp
    rcases RowKey.segmentEnd? input offset with _ | fault | next
    · rfl
    · rfl
    simp only [ih]
    rcases segmentEnds? input turns next with _ | fault | more
    · rfl
    · rfl
    · simp [Except.map]

/-- A key that is read anew is what its new bytes tell, whatever it was. -/
theorem reset?_eq (b : KeyBuffer) (input : Bytes) :
    b.reset? input = some (of (RowKey.reset input).1, (RowKey.reset input).2) := by
  rw [reset?, load_eq, RowKey.segmentEnds?_ofBytes (Nat.le_refl _), RowKey.reset]
  cases read : RowKey.ofBytes input with
  | error fault => rfl
  | ok k =>
    obtain ⟨bytes, -⟩ := RowKey.ofBytes_eq_ok_iff.1 read
    rw [← bytes]
    rfl

theorem ofBytes?_eq (input : Bytes) : ofBytes? input = some ((RowKey.ofBytes input).map of) := by
  rw [ofBytes?, reset?_eq, RowKey.reset]
  cases RowKey.ofBytes input <;> rfl

/-- The table of a segment lies where the segments above it end. -/
theorem tableAt?_of (k : RowKey) (d : Nat) : (of k).tableAt? d = some (k.tableAt? d) := by
  rw [tableAt?, depth_of]
  split
  · next inside =>
    have found : k.segments[d]? = some k.segments[d] := List.getElem?_eq_getElem inside
    have lies : k.bytes.drop (k.truncate d).bytes.length =
        k.segments[d].bytes ++ (⟨k.segments.drop (d + 1)⟩ : RowKey).bytes := by
      rw [RowKey.bytes_split k d, List.drop_left, List.drop_eq_getElem?_toList_append, found]
      rfl
    have high := congrArg (·[0]?) lies
    have low := congrArg (·[1]?) lies
    simp only [List.getElem?_drop, Nat.add_zero] at high low
    have number : TableId.ofNat (Bytes.ofBigEndian (Bytes.bigEndian 2 k.segments[d].table.toNat)) =
        k.segments[d].table := by
      rw [TableId.ofBigEndian_bigEndian]
      exact congrArg TableId.mk UInt16.ofNat_toNat
    rw [start?_of (Nat.le_of_lt inside), RowKey.tableAt?, found, Option.map_some, ← number]
    simp only [of, Option.bind_eq_bind, Option.bind_some, high, low]
    rfl
  · next outside =>
    rw [RowKey.tableAt?, List.getElem?_eq_none (Nat.le_of_not_lt outside)]
    rfl

/-- The value of a segment lies behind its table, up to where the segment ends. -/
theorem valueAt?_of (k : RowKey) (d : Nat) : (of k).valueAt? d = some (k.valueAt? d) := by
  rw [valueAt?, depth_of]
  split
  · next inside =>
    have found : k.segments[d]? = some k.segments[d] := List.getElem?_eq_getElem inside
    have length := congrArg List.length (RowKey.bytes_truncate_succ found)
    have whole := congrArg List.length (RowKey.bytes_split k (d + 1))
    rw [List.length_append, Segment.length_bytes] at length
    rw [List.length_append] at whole
    have lies : k.bytes.between? ((k.truncate d).bytes.length + 2) (k.truncate (d + 1)).bytes.length =
        some k.segments[d].value := by
      rw [Bytes.between?, if_pos (by omega), RowKey.bytes_split k (d + 1), List.take_left,
        RowKey.bytes_truncate_succ found, ← List.drop_drop, List.drop_left]
      rfl
    rw [start?_of (Nat.le_of_lt inside), RowKey.valueAt?, found]
    simp only [of, Option.bind_eq_bind, Option.bind_some, RowKey.getElem?_ends found, lies]
    rw [Codec.Sortable.readPrefix]
    rcases Codec.Sortable.read k.segments[d].value with fault | ⟨v, rest⟩ <;> rfl
  · next outside => rw [RowKey.valueAt?, List.getElem?_eq_none (Nat.le_of_not_lt outside)]

theorem segmentAt?_of (found : k.segments[d]? = some s) :
    (of k).segmentAt? d = some ((Codec.Sortable.read s.value).map fun (v, _) => (s.table, v)) := by
  rw [segmentAt?, tableAt?_of, valueAt?_of, RowKey.tableAt?, RowKey.valueAt?, found]
  simp only [Option.map_some]
  rcases Codec.Sortable.read s.value with fault | ⟨v, rest⟩ <;> rfl

theorem segmentsAt?_of (above below : List Segment) :
    (of ⟨above ++ below⟩).segmentsAt? (List.range' above.length below.length) =
      some (RowKey.decodeSegments below) := by
  induction below generalizing above with
  | nil => rfl
  | cons s below ih =>
    have found : (above ++ s :: below)[above.length]? = some s := by simp
    have others := ih (above ++ [s])
    rw [List.append_assoc, List.length_append] at others
    rw [List.length_cons, List.range'_succ, segmentsAt?, segmentAt?_of found, RowKey.decodeSegments]
    rcases Codec.Sortable.read s.value with fault | ⟨v, rest⟩
    · rfl
    · exact congrArg (Option.map (Except.map ((s.table, v) :: ·))) others

theorem segments?_of (k : RowKey) : (of k).segments? = some k.path := by
  rw [segments?, depth_of, List.range_eq_range']
  exact segmentsAt?_of [] k.segments

/-- That a buffer holds a key and the key has a path. The buffer is read back from its own bytes, its ends are
the ones that the turns of the reader find, each look at a segment stays inside and gives what the path has
there, and what is cut off at a segment is the key of the segments before it, higher up than the whole. -/
structure Sound (b : KeyBuffer) (k : RowKey) (path : List (TableId × Value)) : Prop where
  key : b = of k
  decoded : k.path = .ok path
  read : RowKey.ofBytes b.bytes = .ok k
  again : ofBytes? b.bytes = some (.ok b)
  ends : segmentEnds? b.bytes b.bytes.length 0 = some (.ok b.ends)
  depth : b.depth = path.length
  tables : ∀ d, b.tableAt? d = some (path[d]?.map Prod.fst)
  values : ∀ d, b.valueAt? d = some (.ok (path[d]?.map Prod.snd))
  segments : b.segments? = some (.ok path)
  above : ∀ d < b.depth, ∃ cut, b.truncate? d = some cut ∧ b.ancestor? d = some (some cut) ∧
    cut = of (k.truncate d) ∧ cut.ends = b.ends.take d ∧ cut.segments? = some (.ok (path.take d)) ∧
    (k.truncate d).isAbove k = true
  whole : ∀ d, b.depth ≤ d → b.truncate? d = some b ∧ b.ancestor? d = some none
  anew : ∀ input, b.reset? input = some (match RowKey.ofBytes input with
    | .ok k => (of k, none)
    | .error fault => (empty, some fault))

theorem sound_of (legible : k.IsLegible) : ∃ path, Sound (of k) k path := by
  obtain ⟨path, decoded, tells⟩ := RowKey.exists_path legible
  have read : RowKey.ofBytes (of k).bytes = .ok k := legible.ofBytes_bytes
  refine ⟨path, ⟨rfl, decoded, read, ?_, ?_, ?_, fun d => ?_, fun d => ?_, ?_, fun d inside => ?_,
    fun d outside => ?_, fun input => ?_⟩⟩
  · rw [ofBytes?_eq, read]
    rfl
  · rw [RowKey.segmentEnds?_ofBytes (Nat.le_refl _), read]
    rfl
  · rw [depth_of]
    exact tells.length_eq
  · rw [tableAt?_of, (RowKey.at_of_path decoded d).1]
  · rw [valueAt?_of, (RowKey.at_of_path decoded d).2.1]
  · rw [segments?_of]
    exact congrArg some decoded
  · rw [depth_of] at inside
    refine ⟨of (k.truncate d), truncate?_of k d, ?_, rfl, ?_, ?_, RowKey.isAbove_truncate inside⟩
    · rw [ancestor?_of, RowKey.ancestor?, if_pos inside]
      rfl
    · exact (RowKey.take_ends inside).symm
    · rw [segments?_of]
      exact congrArg some (RowKey.at_of_path decoded d).2.2
  · rw [depth_of] at outside
    rw [truncate?_of, RowKey.truncate_of_depth_le outside, ancestor?_of, RowKey.ancestor?,
      if_neg (Nat.not_lt.2 outside)]
    exact ⟨rfl, rfl⟩
  · rw [reset?_eq, RowKey.reset]
    cases RowKey.ofBytes input <;> rfl

end KeyBuffer

namespace KeyOperation

variable {keys : String → RowKey}

theorem outcome?_of (keys : String → RowKey) (o : KeyOperation) :
    o.outcome? (fun name => .of (keys name)) = some (.of (o.outcome keys)) := by
  cases o with
  | new target => rfl
  | ofSegments target path => exact congrArg some (KeyBuffer.ofSegments_of path)
  | ofBytes target input =>
    rw [outcome?, outcome, KeyBuffer.ofBytes?_eq]
    cases RowKey.ofBytes input <;> rfl
  | snapshot source target => rfl
  | ancestor source depth target =>
    rw [outcome?, outcome, KeyBuffer.ancestor?_of, Option.map_some, Option.getD_map]
  | push key table value => exact congrArg some (KeyBuffer.push_of (keys key) table value)
  | truncate key depth => exact KeyBuffer.truncate?_of (keys key) depth
  | reset key input =>
    rw [outcome?, outcome, KeyBuffer.reset?_eq]
    rfl

/-- Buffers hold what the keys are, however many operations there were. -/
theorem run?_of (keys : String → RowKey) (operations : List KeyOperation) :
    run? (fun name => .of (keys name)) operations = some fun name => .of (run keys operations name) := by
  induction operations generalizing keys with
  | nil => rfl
  | cons o operations ih =>
    have updated : Function.update (fun name => KeyBuffer.of (keys name)) o.target (.of (o.outcome keys)) =
        fun name => .of (Function.update keys o.target (o.outcome keys) name) :=
      (Function.comp_update KeyBuffer.of keys o.target (o.outcome keys)).symm
    rw [run?, List.foldlM_cons, outcome?_of, Option.map_some, updated]
    exact ih _

theorem outcome_made (made : ∀ name, (keys name).Made) (o : KeyOperation) : (o.outcome keys).Made := by
  cases o with
  | new target => exact .empty
  | ofSegments target path => exact List.foldlRecOn path _ .empty fun k made p _ => made.push p.1 p.2
  | ofBytes target input =>
    rw [outcome]
    split
    · next k read => exact .read read
    · exact made target
  | snapshot source target => exact made source
  | ancestor source depth target =>
    rw [outcome, RowKey.ancestor?]
    split
    · exact (made source).truncate depth
    · exact made target
  | push key table value => exact (made key).push table value
  | truncate key depth => exact (made key).truncate depth
  | reset key input =>
    rw [outcome, RowKey.reset]
    split
    · next k read => exact .read read
    · exact .empty

theorem run_made (made : ∀ name, (keys name).Made) (operations : List KeyOperation) (name : String) :
    (run keys operations name).Made := by
  induction operations generalizing keys with
  | nil => exact made name
  | cons o operations ih =>
    refine ih fun other => ?_
    change (Function.update keys o.target (o.outcome keys) other).Made
    rw [Function.update_apply]
    split
    · exact outcome_made made o
    · exact made other

theorem run_kept {name : String} {operations : List KeyOperation}
    (kept : ∀ o ∈ operations, o.target ≠ name) :
    run keys operations name = keys name := by
  induction operations generalizing keys with
  | nil => rfl
  | cons o operations ih =>
    obtain ⟨first, others⟩ := List.forall_mem_cons.1 kept
    rw [run, List.foldl_cons]
    exact (ih others).trans (Function.update_of_ne first.symm _ _)

/-- Whatever is done to keys, one operation after another, no look at their memory goes out of range, and
every register holds a key that is told by its bytes. Two registers hold the same if their bytes are the
same. What has been copied stays as it was, whatever is done to other registers. -/
theorem run?_sound (operations : List KeyOperation) :
    ∃ buffers, run? (fun _ => .empty) operations = some buffers ∧
      (∀ name, ∃ path, (buffers name).Sound (run (fun _ => .empty) operations name) path) ∧
      (∀ a b, buffers a = buffers b ↔ (buffers a).bytes = (buffers b).bytes) ∧
      ∀ source target later, (∀ o ∈ later, o.target ≠ target) →
        ∃ after, run? (fun _ => .empty) (operations ++ snapshot source target :: later) = some after ∧
          after target = buffers source := by
  have legible (name : String) : (run (fun _ => .empty) operations name).IsLegible :=
    (run_made (fun _ => .empty) operations name).legible
  refine ⟨_, run?_of (fun _ => .empty) operations, fun name => KeyBuffer.sound_of (legible name),
    fun a b => ⟨congrArg KeyBuffer.bytes, fun same => ?_⟩, fun source target later kept => ?_⟩
  · exact congrArg KeyBuffer.of ((legible a).bytes_inj (legible b) same)
  · refine ⟨_, run?_of (fun _ => .empty) _, congrArg KeyBuffer.of ?_⟩
    rw [run, List.foldl_append, List.foldl_cons]
    exact (run_kept kept).trans (Function.update_self _ _ _)

/-- A row below another. -/
def heldPath : List (TableId × Value) := [(⟨1⟩, .int 7), (⟨2⟩, .text "a")]

def heldScript : List KeyOperation := [.ofSegments "row" [(⟨1⟩, .int 7)], .push "row" ⟨2⟩ (.text "a")]

/-- What loses the row again: it is cut off, then read anew from bytes that are no key. -/
def lossScript : List KeyOperation := [.truncate "row" 1, .reset "row" [0, 1, 9]]

/-- A copy keeps what is lost. -/
theorem run?_sound_loss : (∀ o ∈ lossScript, o.target ≠ "copy") ∧
    ∃ buffers after, run? (fun _ => .empty) heldScript = some buffers ∧
      (buffers "row").Sound (.ofSegments heldPath) heldPath ∧
      run? (fun _ => .empty) (heldScript ++ .snapshot "row" "copy" :: lossScript) = some after ∧
      after "copy" = buffers "row" ∧ after "row" = .empty := by
  have kept : ∀ o ∈ lossScript, o.target ≠ "copy" := by decide
  obtain ⟨buffers, ran, sound, -, copied⟩ := run?_sound heldScript
  obtain ⟨after, ranOn, same⟩ := copied "row" "copy" lossScript kept
  obtain ⟨path, holds⟩ := sound "row"
  have row : run (fun _ => .empty) heldScript "row" = .ofSegments heldPath := by decide +kernel
  have told : (RowKey.ofSegments heldPath).path = .ok heldPath := RowKey.path_ofSegments heldPath
  rw [row] at holds
  obtain rfl := Except.ok.inj (holds.decoded.symm.trans told)
  have lost : (run? (fun _ => .empty) (heldScript ++ .snapshot "row" "copy" :: lossScript)).map (· "row") =
      some .empty := by
    decide +kernel
  rw [ranOn] at lost
  exact ⟨kept, buffers, after, ran, holds, ranOn, same, Option.some.inj lost⟩

end KeyOperation

end Interleave
