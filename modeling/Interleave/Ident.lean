/-!
Numbers that name groups, tables and indexes. A catalog counts each from 1 in the order of
declaration. A table's number is part of every row key, which leaves it sixteen bits.
-/

namespace Interleave

structure GroupId where
  num : Nat
deriving DecidableEq

structure TableId where
  num : UInt16
deriving DecidableEq

structure IndexId where
  num : Nat
deriving DecidableEq

namespace TableId

def toNat (id : TableId) : Nat := id.num.toNat

def ofNat (n : Nat) : TableId := ⟨UInt16.ofNat n⟩

def display (id : TableId) : String := toString id.toNat

theorem toNat_ofNat {n : Nat} (h : n < UInt16.size) : (ofNat n).toNat = n := by
  show (UInt16.ofNat n).toNat = n
  rw [UInt16.toNat_ofNat', Nat.mod_eq_of_lt h]

theorem toNat_inj {a b : TableId} : a.toNat = b.toNat ↔ a = b := by
  cases a
  cases b
  simp [toNat, UInt16.toNat_inj]

end TableId

def GroupId.display (id : GroupId) : String := "group#" ++ toString id.num

def IndexId.display (id : IndexId) : String := "index#" ++ toString id.num

end Interleave
