import Mathlib.Data.List.Sort
import Interleave.Storage.Layout

/-!
Ranges of keys. The byte strings that go on from `p` are those from `p` on and below its successor, so
they lie side by side; so do the physical keys of one logical table. Main statement: a range of a
logical table holds exactly the table's entries between the two ends, in order.
-/

namespace Interleave

namespace Bytes

theorem byte_trichotomy (a b : UInt8) : a < b ∨ a = b ∨ b < a := by
  by_cases same : a = b
  · exact .inr (.inl same)
  · rcases UInt8.lt_or_lt_of_ne same with less | more
    · exact .inl less
    · exact .inr (.inr more)

/-- With a successor the extensions of `p` end before it; without one they go on to the end. -/
theorem prefix_iff_between (p k : Bytes) :
    p <+: k ↔ ¬ k < p ∧ ∀ next, successor? p = some next → k < next := by
  induction p generalizing k with
  | nil => simp [successor?]
  | cons b rest ih =>
    cases k with
    | nil => simp
    | cons c k =>
      rw [List.cons_prefix_cons, ih k, List.cons_lt_cons_iff, successor?]
      have irrefl := UInt8.lt_irrefl c
      have asymm := @UInt8.lt_asymm b c
      rcases byte_trichotomy c b with less | rfl | more
      · have different : ¬ b = c := fun same => irrefl (same ▸ less)
        simp [less, different]
      · cases successor? rest with
        | some next => simp [irrefl]
        | none =>
          by_cases top : c = 255
          · simp [top]
          · have grows : c < c + 1 := by grind
            simp [irrefl, top, List.cons_lt_cons_iff, grows]
      · have different : ¬ b = c := fun same => irrefl (same ▸ more)
        have reverse : ¬ c = b := fun same => different same.symm
        cases successor? rest with
        | some next => simp [different, reverse, asymm more, List.cons_lt_cons_iff]
        | none =>
          by_cases top : b = 255
          · exact absurd more (by grind)
          · have past : ¬ c < b + 1 := by grind
            simp [different, reverse, asymm more, top, List.cons_lt_cons_iff, past]

theorem lt_of_not_lt_of_lt {a b c : Bytes} (ab : ¬ b < a) (bc : b < c) : a < c :=
  List.lt_of_le_of_lt (List.not_lt.1 ab) bc

theorem lt_of_lt_of_not_lt {a b c : Bytes} (ab : a < b) (bc : ¬ c < b) : a < c := by
  rcases List.le_iff_lt_or_eq.1 (List.not_lt.1 bc) with less | rfl
  · exact List.lt_trans ab less
  · exact ab

theorem not_lt_trans {a b c : Bytes} (ab : ¬ b < a) (bc : ¬ c < b) : ¬ c < a :=
  fun less => bc (lt_of_lt_of_not_lt less ab)

@[simp] theorem append_lt_append_iff (p a b : Bytes) : p ++ a < p ++ b ↔ a < b := by
  induction p with
  | nil => rfl
  | cons c p ih => simp [ih]

end Bytes

namespace Storage

theorem Bound.between_extensions (p k : Bytes) :
    ((Bound.included p).below k = true ∧ (Bound.pastExtensions p).above k = true) ↔ p <+: k := by
  rw [Bytes.prefix_iff_between, Bound.below_included, Bound.pastExtensions]
  cases Bytes.successor? p with
  | none => simp [Bound.above]
  | some next => simp [Bound.above_excluded]

theorem Bound.below_mono (low : Bound) {k k' : Bytes} (less : k < k') (first : low.below k = true) :
    low.below k' = true := by
  cases low with
  | unbounded => rfl
  | included b =>
    rw [below_included] at first ⊢
    exact Bytes.not_lt_trans first (List.lt_asymm less)
  | excluded b =>
    rw [below_excluded] at first ⊢
    exact List.lt_trans first less

theorem Bound.above_mono (high : Bound) {k k' : Bytes} (less : k < k')
    (last : high.above k' = true) :
    high.above k = true := by
  cases high with
  | unbounded => rfl
  | included b =>
    rw [above_included] at last ⊢
    exact Bytes.not_lt_trans (List.lt_asymm less) last
  | excluded b =>
    rw [above_excluded] at last ⊢
    exact List.lt_trans less last

/-- Two ends without room between them admit nothing. -/
theorem Bound.not_between_of_disjoint {low high : Bound}
    (apart : low.disjoint high = true) {k : Bytes} (first : low.below k = true)
    (last : high.above k = true) : False := by
  have gt {a b : Bytes} (h : (Bytes.order a b).isGT = true) : b < a :=
    Bytes.order_eq_gt_iff.1 (Ordering.isGT_iff_eq_gt.1 h)
  have ge {a b : Bytes} (h : (Bytes.order a b).isGE = true) : ¬ a < b :=
    fun less => Ordering.isGE_iff_ne_lt.1 h (Bytes.order_eq_lt_iff.2 less)
  cases low with
  | unbounded => cases high <;> simp [disjoint] at apart
  | included a =>
    rw [below_included] at first
    cases high with
    | unbounded => simp [disjoint] at apart
    | included b =>
      rw [above_included] at last
      exact Bytes.not_lt_trans first last (gt apart)
    | excluded b =>
      rw [above_excluded] at last
      exact ge apart (Bytes.lt_of_not_lt_of_lt first last)
  | excluded a =>
    rw [below_excluded] at first
    cases high with
    | unbounded => simp [disjoint] at apart
    | included b =>
      rw [above_included] at last
      exact ge apart (Bytes.lt_of_lt_of_not_lt first last)
    | excluded b =>
      rw [above_excluded] at last
      exact ge apart (List.lt_trans first last)

namespace Layout

/-- Names without a zero byte are the ones whose tables keep apart. -/
def IsPlain (table : String) : Prop := 0 ∉ Text.utf8 table

theorem decodeKey?_encodeKey {table : String} (plain : IsPlain table) (key : Bytes) :
    decodeKey? (encodeKey table key) = some (table, key) := by
  have passed : ∀ b ∈ Text.utf8 table, (b != 0) = true := by
    intro b member
    simpa using fun zero : b = 0 => plain (zero ▸ member)
  have back : (encodeKey table key).dropWhile (· != 0) = 0 :: key := by
    rw [encodeKey, List.dropWhile_append_of_pos passed, List.dropWhile_cons_of_neg (by decide)]
  have front : (encodeKey table key).takeWhile (· != 0) = Text.utf8 table := by
    rw [encodeKey, List.takeWhile_append_of_pos passed, List.takeWhile_cons_of_neg (by decide),
      List.append_nil]
  simp only [decodeKey?, back, front, Text.ofUtf8_utf8]

theorem encodeKey_inj {table table' : String} (plain : IsPlain table) (plain' : IsPlain table')
    {key key' : Bytes} :
    encodeKey table key = encodeKey table' key' ↔ table = table' ∧ key = key' := by
  constructor
  · intro same
    have decoded := decodeKey?_encodeKey plain key
    rw [same, decodeKey?_encodeKey plain'] at decoded
    exact ⟨(Prod.mk.inj (Option.some.inj decoded)).1.symm,
      (Prod.mk.inj (Option.some.inj decoded)).2.symm⟩
  · rintro ⟨rfl, rfl⟩
    rfl

theorem encodeKey_lt_iff (table : String) (a b : Bytes) :
    encodeKey table a < encodeKey table b ↔ a < b := by
  rw [encodeKey, encodeKey, Bytes.append_lt_append_iff, List.cons_lt_cons_iff]
  simp

theorem firstKey_prefix_iff (table : String) (physical : Bytes) :
    firstKey table <+: physical ↔ ∃ key, physical = encodeKey table key := by
  constructor
  · rintro ⟨key, same⟩
    exact ⟨key, by rw [← same]; simp [firstKey, encodeKey]⟩
  · rintro ⟨key, rfl⟩
    exact ⟨key, by simp [firstKey, encodeKey]⟩

theorem successor?_firstKey (table : String) :
    Bytes.successor? (firstKey table) = some (endKey table) := by
  unfold firstKey encodeKey endKey
  induction Text.utf8 table with
  | nil => rfl
  | cons b rest ih => simp [Bytes.successor?, ih]

theorem below_lowBound_encodeKey (table : String) (low : Bound) (key : Bytes) :
    (lowBound table low).below (encodeKey table key) = low.below key := by
  rw [Bool.eq_iff_iff]
  cases low with
  | unbounded =>
    rw [lowBound, Bound.below_included, firstKey, encodeKey_lt_iff]
    simp [Bound.below]
  | included b => rw [lowBound, Bound.below_included, Bound.below_included, encodeKey_lt_iff]
  | excluded b => rw [lowBound, Bound.below_excluded, Bound.below_excluded, encodeKey_lt_iff]

theorem encodeKey_lt_endKey (table : String) (key : Bytes) :
    encodeKey table key < endKey table := by
  rw [encodeKey, endKey, Bytes.append_lt_append_iff, List.cons_lt_cons_iff]
  exact .inl (by decide)

theorem above_highBound_encodeKey (table : String) (high : Bound) (key : Bytes) :
    (highBound table high).above (encodeKey table key) = high.above key := by
  rw [Bool.eq_iff_iff]
  cases high with
  | unbounded =>
    rw [highBound, Bound.above_excluded]
    simp [encodeKey_lt_endKey, Bound.above]
  | included b => rw [highBound, Bound.above_included, Bound.above_included, encodeKey_lt_iff]
  | excluded b => rw [highBound, Bound.above_excluded, Bound.above_excluded, encodeKey_lt_iff]

/-- Between two ends of one table lie keys of that table only. -/
theorem firstKey_prefix_of_between {table : String} {low high : Bound} {physical : Bytes}
    (first : (lowBound table low).below physical = true)
    (last : (highBound table high).above physical = true) :
    firstKey table <+: physical := by
  have from_first (key : Bytes) : ¬ encodeKey table key < firstKey table := by
    simp [firstKey, encodeKey_lt_iff]
  rw [Bytes.prefix_iff_between, successor?_firstKey]
  refine ⟨?_, fun next found => ?_⟩
  · cases low with
    | unbounded => exact Bound.below_included.1 first
    | included b => exact Bytes.not_lt_trans (from_first b) (Bound.below_included.1 first)
    | excluded b =>
      exact Bytes.not_lt_trans (from_first b) (List.lt_asymm (Bound.below_excluded.1 first))
  · obtain rfl := Option.some.inj found
    cases high with
    | unbounded => exact Bound.above_excluded.1 last
    | included b =>
      exact Bytes.lt_of_not_lt_of_lt (Bound.above_included.1 last) (encodeKey_lt_endKey table b)
    | excluded b => exact List.lt_trans (Bound.above_excluded.1 last) (encodeKey_lt_endKey table b)

/-- The logical key of a physical key of a table. -/
def keyIn? (table : String) (physical : Bytes) : Option Bytes :=
  if firstKey table <+: physical then some (physical.drop (firstKey table).length) else none

theorem keyIn?_eq_some_iff {table : String} {physical key : Bytes} :
    keyIn? table physical = some key ↔ physical = encodeKey table key := by
  have whole (k : Bytes) : encodeKey table k = firstKey table ++ k := by simp [firstKey, encodeKey]
  unfold keyIn?
  split
  · next inside =>
    obtain ⟨k, rfl⟩ := (firstKey_prefix_iff table physical).1 inside
    rw [whole, whole, List.drop_left, List.append_cancel_left_eq, Option.some.injEq]
  · next outside =>
    simp only [reduceCtorEq, false_iff]
    rintro rfl
    exact outside ((firstKey_prefix_iff table _).2 ⟨key, rfl⟩)

end Layout

namespace ByteMap

theorem mem_entries_iff (m : ByteMap) (key value : Bytes) :
    (key, value) ∈ m.entries ↔ m.get? key = some value := by
  constructor
  · intro member
    have found : m.entries.find? (·.1 = key) = some (key, value) := by
      rw [List.find?_eq_some_iff_append]
      obtain ⟨before, after, split⟩ := List.append_of_mem member
      refine ⟨by simp, before, after, split, fun e earlier => ?_⟩
      have sorted := m.sorted
      rw [split, List.pairwise_append] at sorted
      have less := sorted.2.2 e earlier (key, value) List.mem_cons_self
      simpa using fun same : e.1 = key => List.lt_irrefl key (same ▸ less)
    simp [get?, found]
  · intro found
    obtain ⟨e, search, same⟩ := Option.map_eq_some_iff.1 found
    have key_eq : e.1 = key := by simpa using List.find?_some search
    rw [← key_eq, ← same]
    exact List.mem_of_find?_eq_some search

/-- A map is what reading its keys gives. -/
theorem ext_get? {m m' : ByteMap} (same : ∀ key, m.get? key = m'.get? key) : m = m' := by
  have entries : m.entries = m'.entries := by
    have irrefl : Std.Irrefl fun a b : Entry => a.1 < b.1 := ⟨fun e => List.lt_irrefl e.1⟩
    have asymm : Std.Antisymm fun a b : Entry => a.1 < b.1 :=
      ⟨fun a b ab ba => absurd ba (List.lt_asymm ab)⟩
    exact m.sorted.eq_of_mem_iff m'.sorted fun e => by
      rw [m.mem_entries_iff e.1 e.2, m'.mem_entries_iff e.1 e.2, same]
  cases m
  cases m'
  simpa using entries

/-- The entries of a logical table under their logical keys, in order. -/
def entriesIn (m : ByteMap) (table : String) : List Entry :=
  m.entries.filterMap fun e => (Layout.keyIn? table e.1).map (·, e.2)

theorem mem_entriesIn_iff (m : ByteMap) (table : String) (key value : Bytes) :
    (key, value) ∈ m.entriesIn table ↔ m.getIn? table key = some value := by
  rw [getIn?, ← mem_entries_iff, entriesIn, List.mem_filterMap]
  constructor
  · rintro ⟨e, member, found⟩
    obtain ⟨k, inside, same⟩ := Option.map_eq_some_iff.1 found
    obtain ⟨rfl, rfl⟩ := Prod.mk.inj same
    rwa [← Layout.keyIn?_eq_some_iff.1 inside]
  · intro member
    exact ⟨_, member, by rw [Layout.keyIn?_eq_some_iff.2 rfl]; rfl⟩

theorem entriesIn_sorted (m : ByteMap) (table : String) :
    (m.entriesIn table).Pairwise (·.1 < ·.1) := by
  refine m.sorted.filterMap _ fun a b less c found d found' => ?_
  obtain ⟨k, inside, rfl⟩ := Option.map_eq_some_iff.1 found
  obtain ⟨k', inside', rfl⟩ := Option.map_eq_some_iff.1 found'
  rw [Layout.keyIn?_eq_some_iff.1 inside, Layout.keyIn?_eq_some_iff.1 inside',
    Layout.encodeKey_lt_iff] at less
  exact less

theorem dropWhile_eq_filter {entries : List Entry} (sorted : entries.Pairwise (·.1 < ·.1))
    (low : Bound) :
    (entries.dropWhile fun e => !low.below e.1) = entries.filter fun e => low.below e.1 := by
  induction entries with
  | nil => rfl
  | cons e rest ih =>
    have ⟨front, back⟩ := List.pairwise_cons.1 sorted
    by_cases first : low.below e.1 = true
    · have all : (rest.filter fun e => low.below e.1) = rest :=
        List.filter_eq_self.2 fun f member => low.below_mono (front f member) first
      simp [first, all]
    · simp [first, ih back]

theorem takeWhile_eq_filter {entries : List Entry} (sorted : entries.Pairwise (·.1 < ·.1))
    (high : Bound) :
    (entries.takeWhile fun e => high.above e.1) = entries.filter fun e => high.above e.1 := by
  induction entries with
  | nil => rfl
  | cons e rest ih =>
    have ⟨front, back⟩ := List.pairwise_cons.1 sorted
    by_cases last : high.above e.1 = true
    · simp [last, ih back]
    · have none : (rest.filter fun e => high.above e.1) = [] :=
        List.filter_eq_nil_iff.2 fun f member above => last (high.above_mono (front f member) above)
      simp [last, none]

section Range

variable {table : String} (plain : Layout.IsPlain table) (low high : Bound)
include plain

/-- The physical ends keep the entries of the table between the logical ends, and no others. -/
theorem decode_between (e : Entry) :
    (if ((Layout.highBound table high).above e.1 &&
          (Layout.lowBound table low).below e.1) = true then
        (Layout.decodeKey? e.1).map fun (_, key) => (key, e.2)
      else none) =
    ((Layout.keyIn? table e.1).map (·, e.2)).filter fun e => low.below e.1 && high.above e.1 := by
  cases inside : Layout.keyIn? table e.1 with
  | some key =>
    rw [Layout.keyIn?_eq_some_iff.1 inside, Layout.below_lowBound_encodeKey,
      Layout.above_highBound_encodeKey, Layout.decodeKey?_encodeKey plain, Bool.and_comm]
    rfl
  | none =>
    refine (if_neg fun between => ?_).trans rfl
    rw [Bool.and_eq_true] at between
    have inTable := Layout.firstKey_prefix_of_between between.2 between.1
    simp [Layout.keyIn?, inTable] at inside

theorem filterMap_between (m : ByteMap) :
    ((m.startingAt (Layout.lowBound table low)).takeWhile
        fun e => (Layout.highBound table high).above e.1).filterMap
        (fun e => (Layout.decodeKey? e.1).map fun (_, key) => (key, e.2)) =
      (m.entriesIn table).filter fun e => low.below e.1 && high.above e.1 := by
  rw [startingAt, dropWhile_eq_filter m.sorted, takeWhile_eq_filter (m.sorted.filter _),
    List.filter_filter, List.filterMap_filter, entriesIn, List.filter_filterMap]
  exact congrArg (fun f => m.entries.filterMap f) (funext (decode_between plain low high))

/-- Reading a range of a logical table is reading its entries between the ends. -/
theorem rangeIn_eq (m : ByteMap) (limit : Nat) :
    m.rangeIn table low high limit =
      ((m.entriesIn table).filter fun e => low.below e.1 && high.above e.1).take limit := by
  rw [← filterMap_between plain]
  by_cases apart : (Layout.lowBound table low).disjoint (Layout.highBound table high) = true
  · have nothing : ((m.startingAt (Layout.lowBound table low)).takeWhile
        fun e => (Layout.highBound table high).above e.1) = [] := by
      rw [startingAt, dropWhile_eq_filter m.sorted, takeWhile_eq_filter (m.sorted.filter _),
        List.filter_filter]
      refine List.filter_eq_nil_iff.2 fun e _ between => ?_
      rw [Bool.and_eq_true] at between
      exact Bound.not_between_of_disjoint apart between.2 between.1
    simp [rangeIn, apart, nothing]
  · simp only [rangeIn, if_neg apart, readBelow_eq_take]

end Range

end ByteMap

end Storage

end Interleave
