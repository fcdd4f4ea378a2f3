import Mathlib.Data.List.Basic
import Mathlib.Order.Basic
import Interleave.Pipeline.Flatten

/-!
Joining over a whole stream. A stream that goes over a hierarchy meets the rows below a parent one
after another, with no other parent in between, so one parent in sight is enough. A parent that is let
go late stands after everything below it. Main statement: what goes out of a join, and that it goes out
in the order of these places.
-/

namespace Interleave

namespace Pipeline

/-- What comes between a list and one that goes on from it goes on from it too. -/
theorem isPrefix_of_between {a b c : List Nat} (first : a < b) (last : b < c) (inside : a <+: c) :
    a <+: b := by
  induction a generalizing b c with
  | nil => exact List.nil_prefix
  | cons x a ih =>
    obtain ⟨rest, rfl⟩ := inside
    cases b with
    | nil => simp at first
    | cons y b =>
      rw [List.cons_lt_cons_iff] at first
      rw [List.cons_append, List.cons_lt_cons_iff] at last
      have same : x = y := by omega
      subst same
      have first' : a < b := by simpa using first
      have last' : b < a ++ rest := by simpa using last
      exact List.cons_prefix_cons.2 ⟨rfl, ih first' last' (List.prefix_append a rest)⟩

theorem append_lt_of_not_isPrefix {a b : List Nat} (less : a < b) (apart : ¬ a <+: b)
    (c : List Nat) : a ++ c < b := by
  induction a generalizing b with
  | nil => exact absurd List.nil_prefix apart
  | cons x a ih =>
    cases b with
    | nil => simp at less
    | cons y b =>
      rw [List.cons_append, List.cons_lt_cons_iff]
      rw [List.cons_lt_cons_iff] at less
      rw [List.cons_prefix_cons] at apart
      rcases less with less | ⟨rfl, less⟩
      · exact .inl less
      · exact .inr ⟨rfl, ih less fun inside => apart ⟨rfl, inside⟩⟩

end Pipeline

namespace Row

/-- The bytes of a row's key. -/
def spot (row : Row) : List Nat := (row.key.elim [] RowKey.bytes).map UInt8.toNat

/-- Where a row stands in a stream: at its key, or after all that goes on from its key if rows of its type
are let go late. -/
def place (late : List RowType) (row : Row) : List Nat :=
  row.spot ++ if late.any row.rowType.same then [256] else []

theorem lt_of_mem_spot (row : Row) {n : Nat} (member : n ∈ row.spot) : n < 256 := by
  obtain ⟨b, _, rfl⟩ := List.mem_map.1 member
  exact b.toNat_lt

theorem spot_eq {row : Row} {k : RowKey} (key : row.key = some k) :
    row.spot = k.bytes.map UInt8.toNat := by
  rw [spot, key]
  rfl

theorem spot_inj {a b : Row} {k k' : RowKey} (key : a.key = some k) (key' : b.key = some k') :
    a.spot = b.spot ↔ k.bytes = k'.bytes := by
  rw [spot_eq key, spot_eq key']
  exact List.map_inj_right fun _ _ same => UInt8.toNat_inj.1 same

theorem map_toNat_lt_iff (a b : Bytes) : a.map UInt8.toNat < b.map UInt8.toNat ↔ a < b := by
  induction a generalizing b with
  | nil => cases b <;> simp
  | cons x a ih =>
    cases b with
    | nil => simp
    | cons y b =>
      rw [List.map_cons, List.map_cons, List.cons_lt_cons_iff, List.cons_lt_cons_iff, ih,
        UInt8.lt_iff_toNat_lt, UInt8.toNat_inj]

theorem spot_lt_iff {a b : Row} {k k' : RowKey} (key : a.key = some k) (key' : b.key = some k') :
    a.spot < b.spot ↔ k.bytes < k'.bytes := by
  rw [spot_eq key, spot_eq key', map_toNat_lt_iff]

theorem spot_join (parent child : Row) (rowType : RowType) :
    (parent.join child rowType).spot = child.spot := rfl

theorem isAbove_iff_spot {p r : Row} (keyed : p.key.isSome) (keyed' : r.key.isSome) :
    p.isAbove r = true ↔ p.spot <+: r.spot ∧ p.spot ≠ r.spot := by
  obtain ⟨a, foundA⟩ := Option.isSome_iff_exists.1 keyed
  obtain ⟨b, foundB⟩ := Option.isSome_iff_exists.1 keyed'
  have injective : Function.Injective UInt8.toNat := fun _ _ same => UInt8.toNat_inj.1 same
  simp only [isAbove, spot, foundA, foundB, Option.elim_some]
  rw [RowKey.isAbove_iff, List.prefix_map_iff_of_injective injective, Ne,
    List.map_inj_right fun _ _ same => injective same]
  constructor
  · rintro ⟨below, nonempty, same⟩
    rw [same]
    exact ⟨List.prefix_append _ _, fun whole => nonempty (List.self_eq_append_right.1 whole)⟩
  · rintro ⟨⟨below, same⟩, different⟩
    refine ⟨below, ?_, same.symm⟩
    rintro rfl
    exact different (by rw [← same, List.append_nil])

variable {late : List RowType}

theorem place_of_punctual {row : Row} (punctual : late.any row.rowType.same = false) :
    row.place late = row.spot := by
  simp [place, punctual]

theorem spot_isPrefix_place (late : List RowType) (row : Row) : row.spot <+: row.place late :=
  List.prefix_append _ _

theorem place_cons_of_same {row : Row} {rowType : RowType}
    (same : row.rowType.same rowType = true) :
    row.place (rowType :: late) = row.spot ++ [256] := by
  simp [place, same]

theorem place_cons_of_other {row : Row} {rowType : RowType}
    (other : row.rowType.same rowType = false) :
    row.place (rowType :: late) = row.place late := by
  simp [place, other]

theorem spot_lt_late (row : Row) : row.spot < row.spot ++ [256] := by
  conv_lhs => rw [← List.append_nil row.spot]
  exact List.append_left_lt (List.nil_lt_cons 256 [])

/-- What stands below a row comes before the row's late place. -/
theorem place_lt_late {p r : Row} (keyed : p.key.isSome) (keyed' : r.key.isSome)
    (above : p.isAbove r = true) :
    r.place late < p.spot ++ [256] := by
  obtain ⟨⟨below, same⟩, different⟩ := (isAbove_iff_spot keyed keyed').1 above
  rw [place, ← same, List.append_assoc]
  apply List.append_left_lt
  cases below with
  | nil => exact absurd (by rw [← same, List.append_nil]) different
  | cons n below =>
    have small : n < 256 := by
      apply lt_of_mem_spot r
      rw [← same]
      simp
    exact List.cons_lt_cons_iff.2 (.inl small)

end Row

namespace Pipeline.Flatten

/-- What goes out for rows that come in one after another, with a parent in sight. -/
def flow (parentType childType : RowType) (l : Lookback) : List Row → List Row
  | [] => l.released
  | row :: rest =>
    (l.absorb parentType childType row).2 ++
      flow parentType childType (l.absorb parentType childType row).1 rest

namespace Lookback

/-- The parent in sight. -/
def parents : Lookback → List Row
  | noParent => []
  | waiting parent => [parent]
  | joined parent => [parent]

theorem released_sublist (l : Lookback) : l.released.Sublist l.parents := by
  cases l with
  | noParent => exact List.Sublist.refl _
  | waiting parent => exact List.Sublist.refl _
  | joined parent => exact List.nil_sublist _

theorem released_sorted (l : Lookback) (before : Row → Row → Prop) :
    l.released.Pairwise before := by
  cases l with
  | noParent => exact List.Pairwise.nil
  | waiting parent => exact List.pairwise_singleton before parent
  | joined parent => exact List.Pairwise.nil

variable (parentType childType : RowType)

/-- The four things that can happen to a row: it is the next parent; it is below no parent; it is a child;
it is further below. -/
theorem absorb_cases (l : Lookback) (row : Row) :
    (row.rowType.same parentType = true ∧
      l.absorb parentType childType row = (.waiting row, l.released)) ∨
    (row.rowType.same parentType = false ∧ (∀ p ∈ l.parents, p.isAbove row = false) ∧
      l.absorb parentType childType row = (.noParent, l.released ++ [row])) ∨
    (∃ p, row.rowType.same parentType = false ∧ l.parents = [p] ∧ p.isAbove row = true ∧
      row.rowType.same childType = true ∧
      l.absorb parentType childType row =
        (.joined p, [p.join row (.flattened parentType childType)])) ∨
    (row.rowType.same parentType = false ∧ (∃ p, l.parents = [p] ∧ p.isAbove row = true) ∧
      row.rowType.same childType = false ∧ l.absorb parentType childType row = (l, [row])) := by
  by_cases same : row.rowType.same parentType = true
  · exact .inl ⟨same, by simp [absorb, same]⟩
  · rw [Bool.not_eq_true] at same
    cases l with
    | noParent => exact .inr (.inl ⟨same, by simp [parents], by simp [absorb, same, released]⟩)
    | waiting p =>
      cases above : p.isAbove row with
      | false => exact .inr (.inl ⟨same, by simpa [parents] using above,
        by simp [absorb, same, released, above]⟩)
      | true =>
        cases child : row.rowType.same childType with
        | true => exact .inr (.inr (.inl ⟨p, same, rfl, above, rfl,
          by simp [absorb, same, above, child]⟩))
        | false => exact .inr (.inr (.inr ⟨same, ⟨p, rfl, above⟩, rfl,
          by simp [absorb, same, above, child]⟩))
    | joined p =>
      cases above : p.isAbove row with
      | false => exact .inr (.inl ⟨same, by simpa [parents] using above,
        by simp [absorb, same, released, above]⟩)
      | true =>
        cases child : row.rowType.same childType with
        | true => exact .inr (.inr (.inl ⟨p, same, rfl, above, rfl,
          by simp [absorb, same, above, child]⟩))
        | false => exact .inr (.inr (.inr ⟨same, ⟨p, rfl, above⟩, rfl,
          by simp [absorb, same, above, child]⟩))

end Lookback

/-- Whether rows come in the order of their places, and parents stand apart: none above another, and none
where a late row is. -/
structure Nests (late : List RowType) (parentType : RowType) (rows : List Row) : Prop where
  sorted : rows.Pairwise fun a b => a.place late < b.place late
  keyed : ∀ row ∈ rows, row.key.isSome
  punctual : ∀ p ∈ rows, p.rowType.same parentType = true → late.any p.rowType.same = false
  flat : ∀ p ∈ rows, ∀ q ∈ rows, p.rowType.same parentType = true →
    q.rowType.same parentType = true → p.isAbove q = false
  apart : ∀ p ∈ rows, p.rowType.same parentType = true →
    ∀ r ∈ rows, late.any r.rowType.same = true → p.spot ≠ r.spot

namespace Nests

variable {late : List RowType} {parentType childType : RowType} {rows : List Row}

theorem sublist {rows' : List Row} (nests : Nests late parentType rows)
    (part : rows'.Sublist rows) :
    Nests late parentType rows' where
  sorted := nests.sorted.sublist part
  keyed row member := nests.keyed row (part.subset member)
  punctual p member := nests.punctual p (part.subset member)
  flat p member q member' := nests.flat p (part.subset member) q (part.subset member')
  apart p member isParent r member' :=
    nests.apart p (part.subset member) isParent r (part.subset member')

section Parent

variable (nests : Nests late parentType rows) {p : Row} (parent : p ∈ rows)
  (isParent : p.rowType.same parentType = true)
include nests parent isParent

theorem place_eq : p.place late = p.spot := Row.place_of_punctual (nests.punctual p parent isParent)

theorem isAbove_of_isPrefix {r : Row} (member : r ∈ rows) (inside : p.spot <+: r.place late)
    (different : p.place late ≠ r.place late) : p.isAbove r = true := by
  rw [Row.isAbove_iff_spot (nests.keyed p parent) (nests.keyed r member)]
  cases timing : late.any r.rowType.same with
  | false =>
    rw [Row.place_of_punctual timing] at inside different
    exact ⟨inside, nests.place_eq parent isParent ▸ different⟩
  | true =>
    rw [Row.place, timing, if_pos rfl, List.prefix_concat_iff] at inside
    rcases inside with same | inside
    · have small : 256 < 256 := by
        apply Row.lt_of_mem_spot p
        rw [same]
        simp
      exact absurd small (Nat.lt_irrefl _)
    · exact ⟨inside, nests.apart p parent isParent r member timing⟩

theorem place_lt_of_isAbove {r : Row} (member : r ∈ rows) (above : p.isAbove r = true) :
    p.place late < r.place late := by
  obtain ⟨⟨below, same⟩, different⟩ :=
    (Row.isAbove_iff_spot (nests.keyed p parent) (nests.keyed r member)).1 above
  rw [nests.place_eq parent isParent, Row.place, ← same, List.append_assoc]
  conv_lhs => rw [← List.append_nil p.spot]
  apply List.append_left_lt
  cases below with
  | nil => exact absurd (by rw [← same, List.append_nil]) different
  | cons n below => exact List.nil_lt_cons n _

/-- A row between a parent and a row below it is below the parent as well. -/
theorem isAbove_of_between {r r' : Row} (member : r ∈ rows) (member' : r' ∈ rows)
    (before : p.place late < r.place late) (before' : r.place late < r'.place late)
    (above : p.isAbove r' = true) : p.isAbove r = true := by
  have inside := ((Row.isAbove_iff_spot (nests.keyed p parent) (nests.keyed r' member')).1 above).1
  apply nests.isAbove_of_isPrefix parent isParent member
  · rw [nests.place_eq parent isParent] at before
    exact isPrefix_of_between before before' (inside.trans (Row.spot_isPrefix_place late r'))
  · intro same
    rw [same] at before
    exact List.lt_irrefl _ before

/-- What comes after a parent and is not below it comes after the parent's late place. -/
theorem late_lt_place {r : Row} (member : r ∈ rows) (before : p.place late < r.place late)
    (apart : p.isAbove r = false) : p.spot ++ [256] < r.place late := by
  rw [nests.place_eq parent isParent] at before
  apply append_lt_of_not_isPrefix before
  intro inside
  have above := nests.isAbove_of_isPrefix parent isParent member inside fun same => by
    rw [nests.place_eq parent isParent] at same
    rw [same] at before
    exact List.lt_irrefl _ before
  rw [apart] at above
  cases above

end Parent

end Nests

/-- What a join lets out: children with their parents, rows that are no children of a parent, and parents
without children. -/
inductive Outflow (parentType childType : RowType) (l : Lookback) (rest : List Row) :
    Row → Prop where
  | joined {p r : Row} (parent : p ∈ l.parents ++ rest)
      (isParent : p.rowType.same parentType = true) (child : r ∈ rest)
      (isChild : r.rowType.same childType = true) (above : p.isAbove r = true) :
      Outflow parentType childType l rest (p.join r (.flattened parentType childType))
  | passed {r : Row} (member : r ∈ rest) (other : r.rowType.same parentType = false)
      (loose : r.rowType.same childType = true →
        ∀ p ∈ l.parents ++ rest, p.rowType.same parentType = true →
        p.isAbove r = false) : Outflow parentType childType l rest r
  | alone {p : Row} (parent : p ∈ l.released ++ rest) (isParent : p.rowType.same parentType = true)
      (childless : ∀ r ∈ rest, r.rowType.same childType = true → p.isAbove r = false) :
      Outflow parentType childType l rest p

theorem mem_tail_of_parent {parentType : RowType} {row : Row} {rest : List Row}
    (other : row.rowType.same parentType = false) {p : Row} (parent : p ∈ row :: rest)
    (isParent : p.rowType.same parentType = true) : p ∈ rest := by
  rcases List.mem_cons.1 parent with rfl | parent
  · rw [isParent] at other
    cases other
  · exact parent

theorem mem_append_of_parent {parentType : RowType} {row : Row} {kept rest : List Row}
    (other : row.rowType.same parentType = false) {p : Row} (parent : p ∈ kept ++ row :: rest)
    (isParent : p.rowType.same parentType = true) : p ∈ kept ++ rest := by
  rcases List.mem_append.1 parent with parent | parent
  · exact List.mem_append_left _ parent
  · exact List.mem_append_right _ (mem_tail_of_parent other parent isParent)

theorem mem_append_cons {row p : Row} {kept rest : List Row} (member : p ∈ kept ++ rest) :
    p ∈ kept ++ row :: rest :=
  ((List.sublist_cons_self row rest).append_left kept).subset member

section Stream

variable {late : List RowType} {parentType childType : RowType} {l : Lookback} {row : Row}
  {rest : List Row} (nests : Nests late parentType (l.parents ++ row :: rest))
  (inSight : ∀ p ∈ l.parents, p.rowType.same parentType = true)
include nests

theorem isAbove_head {p : Row} (parent : p ∈ rest) (isParent : p.rowType.same parentType = true) :
    p.isAbove row = false := by
  have member : p ∈ l.parents ++ row :: rest := by simp [parent]
  have member' : row ∈ l.parents ++ row :: rest := by simp
  cases above : p.isAbove row with
  | false => rfl
  | true =>
    have less := nests.place_lt_of_isAbove member isParent member' above
    have before := (List.pairwise_cons.1 (List.pairwise_append.1 nests.sorted).2.1).1 p parent
    exact absurd (List.lt_trans less before) (List.lt_irrefl _)

include inSight

/-- Once no parent in sight is above a row, none is above those after it. -/
theorem isAbove_tail (apart : ∀ p ∈ l.parents, p.isAbove row = false) :
    ∀ p ∈ l.parents, ∀ r ∈ row :: rest, p.isAbove r = false := by
  intro p parent r member
  rcases List.mem_cons.1 member with rfl | member
  · exact apart p parent
  · have sorted := List.pairwise_append.1 nests.sorted
    cases above : p.isAbove r with
    | false => rfl
    | true =>
      have still := nests.isAbove_of_between (List.mem_append_left _ parent) (inSight p parent)
        (List.mem_append_right _ (List.mem_cons_self ..))
        (List.mem_append_right _ (List.mem_cons_of_mem _ member))
        (sorted.2.2 p parent row (List.mem_cons_self ..))
        ((List.pairwise_cons.1 sorted.2.1).1 r member) above
      rw [apart p parent] at still
      cases still

variable {out : Row}

/-- The next parent: the one in sight has met all its rows. -/
theorem outflow_parent (isParent : row.rowType.same parentType = true) :
    Outflow parentType childType l (row :: rest) out ↔
      out ∈ l.released ∨ Outflow parentType childType (.waiting row) rest out := by
  have apart : ∀ p ∈ l.parents, p.isAbove row = false := fun p inSight' =>
    nests.flat p (List.mem_append_left _ inSight') row (by simp) (inSight p inSight') isParent
  have gone := isAbove_tail nests inSight apart
  constructor
  · intro flows
    cases flows with
    | @joined p r parent isParent' child isChild above =>
      rcases List.mem_append.1 parent with inSight' | parent
      · rw [gone p inSight' r child] at above
        cases above
      · rcases List.mem_cons.1 child with rfl | child
        · rw [nests.flat p (List.mem_append_right _ parent) r (by simp) isParent' isParent] at above
          cases above
        · exact .inr (.joined parent isParent' child isChild above)
    | passed member other loose =>
      rcases List.mem_cons.1 member with rfl | member
      · rw [isParent] at other
        cases other
      · exact .inr (.passed member other fun isChild p parent =>
          loose isChild p (List.mem_append_right _ parent))
    | alone parent isParent' childless =>
      rcases List.mem_append.1 parent with released | parent
      · exact .inl released
      · exact .inr (.alone parent isParent' fun r member =>
          childless r (List.mem_cons_of_mem _ member))
  · intro flows
    rcases flows with released | flows
    · have inSight' := l.released_sublist.subset released
      exact .alone (List.mem_append_left _ released) (inSight out inSight') fun r member _ =>
        gone out inSight' r member
    · cases flows with
      | joined parent isParent' child isChild above =>
        exact .joined (List.mem_append_right _ parent) isParent'
          (List.mem_cons_of_mem _ child) isChild above
      | @passed r member other loose =>
        refine .passed (List.mem_cons_of_mem _ member) other fun isChild p parent isParent' => ?_
        rcases List.mem_append.1 parent with inSight' | parent
        · exact gone p inSight' _ (List.mem_cons_of_mem _ member)
        · exact loose isChild p parent isParent'
      | @alone p parent isParent' childless =>
        refine .alone (List.mem_append_right _ parent) isParent' fun r member isChild => ?_
        rcases List.mem_cons.1 member with rfl | member
        · rcases List.mem_cons.1 parent with rfl | parent
          · exact nests.flat _ (by simp) _ (by simp) isParent isParent
          · exact isAbove_head nests parent isParent'
        · exact childless r member isChild

/-- A row outside the subtree of the parent in sight: that subtree is over. -/
theorem outflow_outside (other : row.rowType.same parentType = false)
    (apart : ∀ p ∈ l.parents, p.isAbove row = false) :
    Outflow parentType childType l (row :: rest) out ↔
      out ∈ l.released ++ [row] ∨ Outflow parentType childType .noParent rest out := by
  have gone := isAbove_tail nests inSight apart
  have later {p : Row} := @mem_tail_of_parent parentType row rest other p
  constructor
  · intro flows
    cases flows with
    | @joined p r parent isParent child isChild above =>
      rcases List.mem_append.1 parent with inSight' | parent
      · rw [gone p inSight' r child] at above
        cases above
      · rcases List.mem_cons.1 child with rfl | child
        · rw [isAbove_head nests (later parent isParent) isParent] at above
          cases above
        · exact .inr (.joined (later parent isParent) isParent child isChild above)
    | passed member other' loose =>
      rcases List.mem_cons.1 member with rfl | member
      · exact .inl (by simp)
      · exact .inr (.passed member other' fun isChild p parent => loose isChild p (by
          simp [(List.mem_append.1 parent).resolve_left List.not_mem_nil]))
    | alone parent isParent childless =>
      rcases List.mem_append.1 parent with released | parent
      · exact .inl (by simp [released])
      · exact .inr (.alone (later parent isParent) isParent fun r member =>
          childless r (List.mem_cons_of_mem _ member))
  · intro flows
    rcases flows with immediate | flows
    · rcases List.mem_append.1 immediate with released | here
      · have inSight' := l.released_sublist.subset released
        exact .alone (List.mem_append_left _ released) (inSight out inSight') fun r member _ =>
          gone out inSight' r member
      · rw [List.mem_singleton.1 here]
        refine .passed (List.mem_cons_self ..) other fun _ p parent isParent => ?_
        rcases List.mem_append.1 parent with inSight' | parent
        · exact apart p inSight'
        · exact isAbove_head nests (later parent isParent) isParent
    · cases flows with
      | joined parent isParent child isChild above =>
        exact .joined (List.mem_append_right _ (List.mem_cons_of_mem _ parent)) isParent
          (List.mem_cons_of_mem _ child) isChild above
      | passed member other' loose =>
        refine .passed (List.mem_cons_of_mem _ member) other' fun isChild p parent isParent => ?_
        rcases List.mem_append.1 parent with inSight' | parent
        · exact gone p inSight' _ (List.mem_cons_of_mem _ member)
        · exact loose isChild p (later parent isParent) isParent
      | alone parent isParent childless =>
        refine .alone (List.mem_append_right _ (List.mem_cons_of_mem _ parent)) isParent
          fun r member isChild => ?_
        rcases List.mem_cons.1 member with rfl | member
        · exact isAbove_head nests parent isParent
        · exact childless r member isChild

omit inSight in
/-- A child of the parent in sight. -/
theorem outflow_child (other : row.rowType.same parentType = false) {p : Row}
    (sight : l.parents = [p]) (isParent : p.rowType.same parentType = true)
    (above : p.isAbove row = true) (isChild : row.rowType.same childType = true) :
    Outflow parentType childType l (row :: rest) out ↔
      out = p.join row (.flattened parentType childType) ∨
        Outflow parentType childType (.joined p) rest out := by
  have later {q : Row} := @mem_tail_of_parent parentType row rest other q
  have here : p ∈ l.parents ++ row :: rest := by simp [sight]
  have same : (Lookback.joined p).parents = l.parents := sight.symm
  constructor
  · intro flows
    cases flows with
    | @joined q r parent isParent' child isChild' above' =>
      rcases List.mem_cons.1 child with rfl | child
      · rcases List.mem_append.1 parent with inSight | parent
        · rw [sight, List.mem_singleton] at inSight
          exact .inl (by rw [inSight])
        · rw [isAbove_head nests (later parent isParent') isParent'] at above'
          cases above'
      · exact .inr (.joined (same ▸ mem_append_of_parent other parent isParent') isParent'
          child isChild' above')
    | passed member other' loose =>
      rcases List.mem_cons.1 member with rfl | member
      · rw [loose isChild p here isParent] at above
        cases above
      · exact .inr (.passed member other' fun isChild' q parent =>
          loose isChild' q (mem_append_cons (same ▸ parent)))
    | alone parent isParent' childless =>
      rcases List.mem_append.1 parent with released | parent
      · have inSight := l.released_sublist.subset released
        rw [sight, List.mem_singleton] at inSight
        have apart := childless row (List.mem_cons_self ..) isChild
        rw [inSight, above] at apart
        cases apart
      · exact .inr (.alone (later parent isParent') isParent' fun r member =>
          childless r (List.mem_cons_of_mem _ member))
  · intro flows
    rcases flows with rfl | flows
    · exact .joined here isParent (List.mem_cons_self ..) isChild above
    · cases flows with
      | joined parent isParent' child isChild' above' =>
        exact .joined (mem_append_cons (same ▸ parent)) isParent'
          (List.mem_cons_of_mem _ child) isChild' above'
      | passed member other' loose =>
        exact .passed (List.mem_cons_of_mem _ member) other' fun isChild' q parent isParent' =>
          loose isChild' q (same ▸ mem_append_of_parent other parent isParent') isParent'
      | alone parent isParent' childless =>
        refine .alone (List.mem_append_right _ (List.mem_cons_of_mem _ parent)) isParent'
          fun r member isChild' => ?_
        rcases List.mem_cons.1 member with rfl | member
        · exact isAbove_head nests parent isParent'
        · exact childless r member isChild'

omit nests inSight in
/-- A row further below the parent in sight. -/
theorem outflow_below (other : row.rowType.same parentType = false)
    (other' : row.rowType.same childType = false) :
    Outflow parentType childType l (row :: rest) out ↔
      out = row ∨ Outflow parentType childType l rest out := by
  have laterChild {r : Row} := @mem_tail_of_parent childType row rest other' r
  constructor
  · intro flows
    cases flows with
    | joined parent isParent child isChild above =>
      exact .inr (.joined (mem_append_of_parent other parent isParent) isParent
        (laterChild child isChild) isChild above)
    | passed member other'' loose =>
      rcases List.mem_cons.1 member with rfl | member
      · exact .inl rfl
      · exact .inr (.passed member other'' fun isChild p parent =>
          loose isChild p (mem_append_cons parent))
    | alone parent isParent childless =>
      exact .inr (.alone (mem_append_of_parent other parent isParent) isParent fun r member =>
        childless r (List.mem_cons_of_mem _ member))
  · intro flows
    rcases flows with rfl | flows
    · refine .passed (List.mem_cons_self ..) other fun isChild => ?_
      rw [other'] at isChild
      cases isChild
    · cases flows with
      | joined parent isParent child isChild above =>
        exact .joined (mem_append_cons parent) isParent (List.mem_cons_of_mem _ child) isChild above
      | passed member other'' loose =>
        exact .passed (List.mem_cons_of_mem _ member) other'' fun isChild p parent isParent =>
          loose isChild p (mem_append_of_parent other parent isParent) isParent
      | alone parent isParent childless =>
        exact .alone (mem_append_cons parent) isParent fun r member isChild =>
          childless r (laterChild member isChild) isChild

end Stream

section Flow

variable {late : List RowType} {parentType childType : RowType} {l : Lookback}
  {rest : List Row} {out : Row}

/-- The parent that a row leaves in sight, and the rows after it. -/
theorem Nests.absorb (childType : RowType) {row : Row}
    (nests : Nests late parentType (l.parents ++ row :: rest)) :
    Nests late parentType ((l.absorb parentType childType row).1.parents ++ rest) := by
  rcases l.absorb_cases parentType childType row with
    ⟨_, step⟩ | ⟨_, _, step⟩ | ⟨p, _, sight, _, _, step⟩ | ⟨_, _, _, step⟩
  · rw [step]
    exact nests.sublist (List.sublist_append_right l.parents (row :: rest))
  · rw [step]
    exact nests.sublist ((List.sublist_cons_self row rest).trans
      (List.sublist_append_right l.parents (row :: rest)))
  · rw [step, show (Lookback.joined p).parents = l.parents from sight.symm]
    exact nests.sublist ((List.sublist_cons_self row rest).append_left l.parents)
  · rw [step]
    exact nests.sublist ((List.sublist_cons_self row rest).append_left l.parents)

theorem inSight_absorb (childType : RowType) (row : Row)
    (inSight : ∀ p ∈ l.parents, p.rowType.same parentType = true) :
    ∀ p ∈ (l.absorb parentType childType row).1.parents, p.rowType.same parentType = true := by
  rcases l.absorb_cases parentType childType row with
    ⟨same, step⟩ | ⟨_, _, step⟩ | ⟨p, _, sight, _, _, step⟩ | ⟨_, _, _, step⟩
  · rw [step]
    exact fun p member => List.mem_singleton.1 member ▸ same
  · rw [step]
    exact fun p member => absurd member List.not_mem_nil
  · rw [step, show (Lookback.joined p).parents = l.parents from sight.symm]
    exact inSight
  · rw [step]
    exact inSight

/-- What goes out of a join of a nested stream. -/
theorem mem_flow_iff (nests : Nests late parentType (l.parents ++ rest))
    (inSight : ∀ p ∈ l.parents, p.rowType.same parentType = true) :
    out ∈ flow parentType childType l rest ↔ Outflow parentType childType l rest out := by
  induction rest generalizing l with
  | nil =>
    constructor
    · intro released
      exact .alone (List.mem_append_left _ released)
        (inSight out (l.released_sublist.subset released)) fun r member => by cases member
    · intro flows
      cases flows with
      | joined _ _ child _ _ => cases child
      | passed member _ _ => cases member
      | alone parent _ _ => exact (List.mem_append.1 parent).resolve_right List.not_mem_nil
  | cons row rest ih =>
    have next := ih (nests.absorb childType) (inSight_absorb childType row inSight)
    rw [flow, List.mem_append, next]
    rcases l.absorb_cases parentType childType row with ⟨same, step⟩ | ⟨other, apart, step⟩ |
      ⟨p, other, sight, above, isChild, step⟩ | ⟨other, _, other', step⟩
    · rw [step]
      exact (outflow_parent nests inSight same).symm
    · rw [step]
      exact (outflow_outside nests inSight other apart).symm
    · rw [step, List.mem_singleton]
      exact (outflow_child nests other sight (inSight p (by simp [sight])) above isChild).symm
    · rw [step, List.mem_singleton]
      exact (outflow_below other other').symm

variable (fresh : (parentType :: late).any (RowType.flattened parentType childType).same = false)
include fresh

theorem place_join {p r : Row} (punctual : late.any r.rowType.same = false) :
    (p.join r (.flattened parentType childType)).place (parentType :: late) = r.place late := by
  have timely : (p.join r (.flattened parentType childType)).place (parentType :: late) =
      (p.join r (.flattened parentType childType)).spot := Row.place_of_punctual fresh
  rw [timely, Row.spot_join, Row.place_of_punctual punctual]

/-- What goes out comes after a place if all that comes in does, and the parent in sight is late enough. -/
theorem Outflow.after (nests : Nests late parentType (l.parents ++ rest))
    (children : ∀ r ∈ rest, r.rowType.same childType = true → late.any r.rowType.same = false)
    {bound : List Nat} (later : ∀ r ∈ rest, bound < r.place late)
    (released : ∀ p ∈ l.released, bound < p.spot ++ [256])
    (flows : Outflow parentType childType l rest out) : bound < out.place (parentType :: late) := by
  cases flows with
  | joined parent isParent child isChild above =>
    rw [place_join fresh (children _ child isChild)]
    exact later _ child
  | passed member other loose =>
    rw [Row.place_cons_of_other other]
    exact later out member
  | alone parent isParent childless =>
    rw [Row.place_cons_of_same isParent]
    rcases List.mem_append.1 parent with alone | parent
    · exact released out alone
    · have before := later out parent
      rw [nests.place_eq (List.mem_append_right _ parent) isParent] at before
      exact List.lt_trans before (Row.spot_lt_late out)

section Order

variable {row : Row} (nests : Nests late parentType (l.parents ++ row :: rest))
  (inSight : ∀ p ∈ l.parents, p.rowType.same parentType = true)
include nests inSight

omit fresh in
theorem released_before (apart : ∀ p ∈ l.parents, p.isAbove row = false) {p : Row}
    (released : p ∈ l.released) :
    p.place (parentType :: late) < row.place late := by
  have parent := l.released_sublist.subset released
  have before := (List.pairwise_append.1 nests.sorted).2.2 p parent row (List.mem_cons_self ..)
  rw [Row.place_cons_of_same (inSight p parent)]
  exact nests.late_lt_place (List.mem_append_left _ parent) (inSight p parent) (by simp) before
    (apart p parent)

omit fresh in
/-- The rows that one row lets out are in order. -/
theorem absorb_sorted : (l.absorb parentType childType row).2.Pairwise
    fun a b => a.place (parentType :: late) < b.place (parentType :: late) := by
  rcases l.absorb_cases parentType childType row with
    ⟨_, step⟩ | ⟨other, apart, step⟩ | ⟨p, _, _, _, _, step⟩ | ⟨_, _, _, step⟩
  · rw [step]
    exact l.released_sorted _
  · rw [step]
    apply List.pairwise_append.2 ⟨l.released_sorted _, List.pairwise_singleton _ row,
      fun p released b next => ?_⟩
    rw [List.mem_singleton.1 next, Row.place_cons_of_other other]
    exact released_before nests inSight apart released
  · rw [step]
    exact List.pairwise_singleton _ _
  · rw [step]
    exact List.pairwise_singleton _ _

/-- The rows that one row lets out come before those that go out later. -/
theorem absorb_before
    (children : ∀ r ∈ row :: rest,
      r.rowType.same childType = true → late.any r.rowType.same = false)
    {a b : Row} (immediate : a ∈ (l.absorb parentType childType row).2)
    (flows : Outflow parentType childType (l.absorb parentType childType row).1 rest b) :
    a.place (parentType :: late) < b.place (parentType :: late) := by
  have nests' := nests.absorb childType
  have children' : ∀ r ∈ rest, r.rowType.same childType = true → late.any r.rowType.same = false :=
    fun r member => children r (List.mem_cons_of_mem _ member)
  have later := (List.pairwise_cons.1 (List.pairwise_append.1 nests.sorted).2.1).1
  have here : row ∈ l.parents ++ row :: rest := by simp
  rcases l.absorb_cases parentType childType row with ⟨same, step⟩ | ⟨other, apart, step⟩ |
    ⟨p, other, sight, above, isChild, step⟩ | ⟨other, ⟨p, sight, above⟩, _, step⟩
  · rw [step] at nests' immediate flows
    have apart : ∀ p ∈ l.parents, p.isAbove row = false := fun p parent =>
      nests.flat p (List.mem_append_left _ parent) row here (inSight p parent) same
    have before : a.place (parentType :: late) < row.place late :=
      released_before nests inSight apart immediate
    apply flows.after fresh nests' children' fun r following =>
      List.lt_trans before (later r following)
    intro p alone
    rw [List.mem_singleton.1 alone]
    apply List.lt_trans before
    rw [nests.place_eq here same]
    exact Row.spot_lt_late row
  · rw [step] at nests' immediate flows
    apply flows.after fresh nests' children' _ fun p alone => absurd alone List.not_mem_nil
    intro r following
    rcases List.mem_append.1 immediate with released | next
    · exact List.lt_trans (released_before nests inSight apart released) (later r following)
    · rw [List.mem_singleton.1 next, Row.place_cons_of_other other]
      exact later r following
  · rw [step] at nests' immediate flows
    rw [List.mem_singleton.1 immediate,
      place_join fresh (children row (List.mem_cons_self ..) isChild)]
    exact flows.after fresh nests' children' later fun p alone => absurd alone List.not_mem_nil
  · rw [step] at nests' immediate flows
    rw [List.mem_singleton.1 immediate, Row.place_cons_of_other other]
    apply flows.after fresh nests' children' later
    intro q released
    have parent := l.released_sublist.subset released
    rw [sight, List.mem_singleton] at parent
    rw [parent]
    exact Row.place_lt_late (nests.keyed p (by simp [sight])) (nests.keyed row here) above

end Order

/-- A join lets its rows out in the order of their places. -/
theorem flow_sorted (nests : Nests late parentType (l.parents ++ rest))
    (inSight : ∀ p ∈ l.parents, p.rowType.same parentType = true)
    (children : ∀ r ∈ rest, r.rowType.same childType = true → late.any r.rowType.same = false) :
    (flow parentType childType l rest).Pairwise
      fun a b => a.place (parentType :: late) < b.place (parentType :: late) := by
  induction rest generalizing l with
  | nil => exact l.released_sorted _
  | cons row rest ih =>
    have nests' := nests.absorb childType
    have inSight' := inSight_absorb childType row inSight
    rw [flow, List.pairwise_append]
    refine ⟨absorb_sorted nests inSight, ih nests' inSight' fun r member =>
      children r (List.mem_cons_of_mem _ member), ?_⟩
    intro a immediate b member
    exact absorb_before fresh nests inSight children immediate
      ((mem_flow_iff nests' inSight').1 member)

end Flow

end Pipeline.Flatten

end Interleave
