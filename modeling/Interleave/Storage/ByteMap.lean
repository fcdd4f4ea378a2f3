import Interleave.Storage.Bound

/-!
Ordered maps from byte strings to byte strings, held as their entries in key order. Main
statement: reading after a write gives the value written at that key and the old value at every
other, and reading after an erasure finds nothing at that key.
-/

namespace Interleave.Storage

abbrev Entry := Bytes × Bytes

/-- The entries with one added, or replaced in place. -/
def insertEntry (key value : Bytes) : List Entry → List Entry
  | [] => [(key, value)]
  | e :: rest =>
    match Bytes.order key e.1 with
    | .lt => (key, value) :: e :: rest
    | .eq => (key, value) :: rest
    | .gt => e :: insertEntry key value rest

theorem mem_insertEntry {key value : Bytes} {entries : List Entry} {e : Entry} :
    e ∈ insertEntry key value entries → e = (key, value) ∨ e ∈ entries := by
  induction entries with
  | nil => simp [insertEntry]
  | cons f rest ih =>
    unfold insertEntry
    split
    · simp
    · intro h
      rcases List.mem_cons.1 h with h | h
      · exact .inl h
      · exact .inr (List.mem_cons_of_mem _ h)
    · intro h
      rcases List.mem_cons.1 h with h | h
      · exact .inr (h ▸ List.mem_cons_self)
      · exact (ih h).imp_right (List.mem_cons_of_mem _)

theorem insertEntry_sorted {key value : Bytes} {entries : List Entry}
    (sorted : entries.Pairwise (·.1 < ·.1)) :
    (insertEntry key value entries).Pairwise (·.1 < ·.1) := by
  induction entries with
  | nil => simp [insertEntry]
  | cons f rest ih =>
    have ⟨front, back⟩ := List.pairwise_cons.1 sorted
    unfold insertEntry
    split
    · next lower =>
      refine List.pairwise_cons.2 ⟨?_, sorted⟩
      intro e member
      have least := Bytes.order_eq_lt_iff.1 lower
      rcases List.mem_cons.1 member with rfl | member
      · exact least
      · exact List.lt_trans least (front e member)
    · next same =>
      have key_eq := Bytes.order_eq_eq_iff.1 same
      exact List.pairwise_cons.2 ⟨fun e member => key_eq ▸ front e member, back⟩
    · next higher =>
      refine List.pairwise_cons.2 ⟨?_, ih back⟩
      intro e member
      rcases mem_insertEntry member with rfl | member
      · exact Bytes.order_eq_gt_iff.1 higher
      · exact front e member

theorem find?_insertEntry (key value other : Bytes) (entries : List Entry) :
    (insertEntry key value entries).find? (·.1 = other) =
      if key = other then some (key, value) else entries.find? (·.1 = other) := by
  induction entries with
  | nil => by_cases same : key = other <;> simp [insertEntry, same]
  | cons f rest ih =>
    unfold insertEntry
    split
    · by_cases same : key = other <;> simp [same]
    · next equal =>
      have key_eq := Bytes.order_eq_eq_iff.1 equal
      by_cases same : key = other
      · simp [same]
      · simp [same, key_eq ▸ same]
    · next higher =>
      have different : f.1 ≠ key := fun h => by simp [← h, Bytes.order_self] at higher
      rw [List.find?_cons, List.find?_cons, ih]
      by_cases same : key = other
      · simp [same, same ▸ different]
      · simp [same]

structure ByteMap where
  entries : List Entry
  sorted : entries.Pairwise (·.1 < ·.1) := by simp

namespace ByteMap

def empty : ByteMap := { entries := [] }

def size (m : ByteMap) : Nat := m.entries.length

def get? (m : ByteMap) (key : Bytes) : Option Bytes :=
  (m.entries.find? (·.1 = key)).map (·.2)

def contains (m : ByteMap) (key : Bytes) : Bool := m.entries.any (·.1 = key)

def insert (m : ByteMap) (key value : Bytes) : ByteMap :=
  ⟨insertEntry key value m.entries, insertEntry_sorted m.sorted⟩

def erase (m : ByteMap) (key : Bytes) : ByteMap :=
  ⟨m.entries.filter (·.1 ≠ key), m.sorted.filter _⟩

/-- The entries from a lower end on, in order. -/
def startingAt (m : ByteMap) (low : Bound) : List Entry :=
  m.entries.dropWhile fun e => !low.below e.1

theorem get?_insert_self (m : ByteMap) (key value : Bytes) :
    (m.insert key value).get? key = some value := by
  simp [get?, insert, find?_insertEntry]

theorem get?_insert_of_ne (m : ByteMap) {key other : Bytes} (value : Bytes) (h : key ≠ other) :
    (m.insert key value).get? other = m.get? other := by
  simp [get?, insert, find?_insertEntry, h]

theorem get?_erase_self (m : ByteMap) (key : Bytes) : (m.erase key).get? key = none := by
  simp [get?, erase, List.find?_eq_none]

theorem get?_erase_of_ne (m : ByteMap) {key other : Bytes} (h : key ≠ other) :
    (m.erase key).get? other = m.get? other := by
  have agree (e : Entry) : (!decide (e.1 = key) && decide (e.1 = other)) = decide (e.1 = other) := by
    by_cases same : e.1 = other <;> simp [same, h.symm]
  simp [get?, erase, List.find?_filter, agree]

end ByteMap

end Interleave.Storage
