import Interleave.IndexRange

/-!
Parameters of a run. A plan leaves the ranges of its index scans open; they are bound by the
identity of the scan or by a slot that several scans may share.
-/

namespace Interleave

inductive BindingKey where
  | operator (id : Nat)
  | slot (num : Nat)
deriving DecidableEq

def BindingKey.display : BindingKey → String
  | operator id => "operator #" ++ toString id
  | slot num => "slot " ++ toString num

inductive Binding where
  | range (range : IndexRange)
  | value (value : Value)
deriving DecidableEq

/-- What a binding holds, or what a reader of it needs. -/
inductive BindingShape where
  | range
  | value
deriving DecidableEq

def BindingShape.display : BindingShape → String
  | range => "range"
  | value => "value"

def Binding.shape : Binding → BindingShape
  | range _ => .range
  | value _ => .value

/-- A parameter that does not suit the operator reading it. -/
inductive BindingFault where
  | shape (key : BindingKey) (bound expected : BindingShape)
  | unbound (index : String) (key : BindingKey)
  | tooWide (key : BindingKey) (values : Nat) (index : String) (columns : Nat)
  | other (text : String)
deriving DecidableEq

def BindingFault.message : BindingFault → String
  | shape key bound expected =>
    key.display ++ " is bound to a " ++ bound.display ++ ", expected a " ++ expected.display
  | unbound index key => "index scan on " ++ index ++ " requires a range bound to " ++ key.display
  | tooWide key values index columns =>
    "range bound to " ++ key.display ++ " has " ++ toString values ++ " values but index " ++ index ++
      " has " ++ toString columns ++ " key columns"
  | other text => text

/-- Each key occurs once. -/
structure Bindings where
  entries : List (BindingKey × Binding)

namespace Bindings

def empty : Bindings := ⟨[]⟩

def size (b : Bindings) : Nat := b.entries.length

def isEmpty (b : Bindings) : Bool := b.entries.isEmpty

def get? (b : Bindings) (key : BindingKey) : Option Binding :=
  (b.entries.find? (·.1 = key)).map (·.2)

def erase (b : Bindings) (key : BindingKey) : Bindings := ⟨b.entries.filter (·.1 ≠ key)⟩

def set (b : Bindings) (key : BindingKey) (binding : Binding) : Bindings :=
  ⟨(key, binding) :: (b.erase key).entries⟩

def range? (b : Bindings) (key : BindingKey) : Except BindingFault (Option IndexRange) :=
  match b.get? key with
  | none => .ok none
  | some (.range range) => .ok (some range)
  | some other => .error (.shape key other.shape .range)

def value? (b : Bindings) (key : BindingKey) : Except BindingFault (Option Value) :=
  match b.get? key with
  | none => .ok none
  | some (.value value) => .ok (some value)
  | some other => .error (.shape key other.shape .value)

theorem get?_set (b : Bindings) (key : BindingKey) (binding : Binding) :
    (b.set key binding).get? key = some binding := by
  simp [set, get?]

theorem get?_erase (b : Bindings) (key : BindingKey) : (b.erase key).get? key = none := by
  simp [erase, get?, List.find?_eq_none]

end Bindings

end Interleave
