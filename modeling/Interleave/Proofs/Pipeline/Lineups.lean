import Interleave.Proofs.Pipeline.Expansion
import Interleave.Proofs.Pipeline.Remaining

/-!
A join above a lookup. The rows of one entry line up: rows above the parent, the parent, the child and the
rows below it. The stream of a lookup is one such line after another and not in key order, and a parent may
come again and again. Main statements: a lookup delivers these lines, and a join turns each into its own
joined row, whatever parent the line before left in sight.
-/

namespace Interleave

namespace RowType

/-- A joined type is not that of its parent. -/
theorem flattened_not_same_parent (parent child : RowType) :
    (flattened parent child).same parent = false := by
  induction parent generalizing child with
  | table => rfl
  | index => rfl
  | flattened a b ih _ => simp [same, ih b]

/-- A joined type is not that of its child. -/
theorem flattened_not_same_child (parent child : RowType) :
    (flattened parent child).same child = false := by
  induction child generalizing parent with
  | table => rfl
  | index => rfl
  | flattened a b _ ih => simp [same, ih a]

end RowType

namespace Pipeline

variable {σ : Type} {m : Machine σ} {store : Store}

/-- A machine that answers with rows only lets them out, if the rows that it has left are counted. -/
theorem Reports.produces {Left : σ → Nat → Prop} (dwindles : Dwindles m store Left) {rows : List Row}
    {s : σ} {n : Nat} (left : Left s n) (reports : Reports m store s (rows.map .ok)) :
    Produces m store s rows ∧ rows.length ≤ n := by
  induction rows generalizing s n with
  | nil =>
    cases reports with
    | done ended => exact ⟨.done ended, Nat.zero_le n⟩
  | cons row rows ih =>
    cases reports with
    | more next others =>
      obtain ⟨k, fewer, left'⟩ := dwindles.advance left next
      obtain ⟨produces, length⟩ := ih left' others
      have short : rows.length < n := Nat.lt_of_le_of_lt length fewer
      exact ⟨.more next (Nat.lt_of_lt_of_le short (dwindles.ahead left)) produces, short⟩

/-- A lookup delivers what its entries expand to, if none of them fails. -/
theorem IndexLookup.delivers {p : Pipeline} (ends : store.TraversalsEnd) {lookup : IndexLookup}
    {bindings : Bindings} {entries : List Row} {blocks : List (List Row)}
    (input : Delivers p.machine store bindings entries)
    (answered : List.Forall₂ (Answered lookup store) entries (blocks.map (·.map .ok))) :
    Delivers (Pipeline.indexLookup lookup p).machine store bindings blocks.flatten := by
  obtain ⟨s, opened, reported⟩ := IndexLookup.reports input answered
  rw [← List.map_flatten] at reported
  have counts := Pipeline.dwindles (.indexLookup lookup p) ends
  obtain ⟨n, left⟩ := counts.launch opened
  exact ⟨rfl, s, opened, (reported.produces counts left).1⟩

/-- What is looked up for an entry: rows above the parent, the parent, the child and the rows below it. -/
structure Lineup where
  above : List Row
  parent : Row
  child : Row
  below : List Row

namespace Lineup

def rows (l : Lineup) : List Row := l.above ++ l.parent :: l.child :: l.below

/-- The line with its parent and its child in one row. -/
def joined (parentType childType : RowType) (l : Lineup) : List Row :=
  l.above ++ l.parent.join l.child (.flattened parentType childType) :: l.below

/-- Whether only the parent and the child of a line are of the types that are joined, and what comes after
the parent is below it. -/
structure Fits (parentType childType : RowType) (l : Lineup) : Prop where
  above : ∀ row ∈ l.above,
    row.rowType.same parentType = false ∧ row.rowType.same childType = false
  parent : l.parent.rowType.same parentType = true
  child : l.child.rowType.same parentType = false ∧ l.child.rowType.same childType = true
  childBelow : l.parent.isAbove l.child = true
  below : ∀ row ∈ l.below, row.rowType.same parentType = false ∧
    row.rowType.same childType = false ∧ l.parent.isAbove row = true

/-- In a joined line neither a parent nor a child is left. -/
theorem Fits.joined {parentType childType : RowType} {l : Lineup} (fits : l.Fits parentType childType) :
    ∀ row ∈ l.joined parentType childType,
      row.rowType.same parentType = false ∧ row.rowType.same childType = false := by
  intro row member
  rcases List.mem_append.1 member with first | member
  · exact fits.above row first
  rcases List.mem_cons.1 member with rfl | last
  · exact ⟨RowType.flattened_not_same_parent parentType childType,
      RowType.flattened_not_same_child parentType childType⟩
  · exact ⟨(fits.below row last).1, (fits.below row last).2.1⟩

end Lineup

namespace Flatten

variable {parentType childType : RowType}

/-- Rows that are no parents and lie below none pass, and leave nothing behind. -/
theorem flow_above {rows : List Row} (others : ∀ row ∈ rows, row.rowType.same parentType = false)
    {l : Lookback} (settled : l.released = [])
    (outside : ∀ p ∈ l.parents, ∀ row ∈ rows, p.isAbove row = false) (rest : List Row) :
    ∃ l', l'.released = [] ∧ flow parentType childType l (rows ++ rest) =
      rows ++ flow parentType childType l' rest := by
  induction rows generalizing l with
  | nil => exact ⟨l, settled, rfl⟩
  | cons row rows ih =>
    obtain ⟨other, others⟩ := List.forall_mem_cons.1 others
    have step : l.absorb parentType childType row = (.noParent, [row]) := by
      cases l with
      | noParent => simp [Lookback.absorb, other]
      | waiting p => cases settled
      | joined p =>
        have apart := outside p List.mem_cons_self row List.mem_cons_self
        simp [Lookback.absorb, other, apart]
    obtain ⟨l', settled', passed⟩ :=
      ih (l := .noParent) others rfl fun p none => by cases none
    refine ⟨l', settled', ?_⟩
    rw [List.cons_append, flow, step, passed]
    rfl

/-- Rows below a parent that was joined pass, if they are no children. -/
theorem flow_below {p : Row} {rows : List Row}
    (inside : ∀ row ∈ rows, row.rowType.same parentType = false ∧
      row.rowType.same childType = false ∧ p.isAbove row = true) (rest : List Row) :
    flow parentType childType (.joined p) (rows ++ rest) =
      rows ++ flow parentType childType (.joined p) rest := by
  induction rows with
  | nil => rfl
  | cons row rows ih =>
    obtain ⟨⟨noParent, noChild, below⟩, others⟩ := List.forall_mem_cons.1 inside
    have step : (Lookback.joined p).absorb parentType childType row = (.joined p, [row]) := by
      simp [Lookback.absorb, noParent, noChild, below]
    rw [List.cons_append, flow, step, ih others]
    rfl

/-- A parent and its child become one row. -/
theorem flow_pair {l : Lookback} (settled : l.released = []) {p child : Row}
    (parent : p.rowType.same parentType = true)
    (isChild : child.rowType.same parentType = false ∧ child.rowType.same childType = true)
    (below : p.isAbove child = true) (rest : List Row) :
    flow parentType childType l (p :: child :: rest) =
      p.join child (.flattened parentType childType) ::
        flow parentType childType (.joined p) rest := by
  have first : l.absorb parentType childType p = (.waiting p, []) := by
    rw [Lookback.absorb.eq_def, if_pos parent, settled]
  have second : (Lookback.waiting p).absorb parentType childType child =
      (.joined p, [p.join child (.flattened parentType childType)]) := by
    simp [Lookback.absorb, isChild, below]
  rw [flow, first, flow, second]
  rfl

/-- One line comes out joined, and leaves its parent in sight. -/
theorem flow_lineup {lineup : Lineup} (fits : lineup.Fits parentType childType) {l : Lookback}
    (settled : l.released = [])
    (outside : ∀ p ∈ l.parents, ∀ row ∈ lineup.above, p.isAbove row = false) (rest : List Row) :
    flow parentType childType l (lineup.rows ++ rest) =
      lineup.joined parentType childType ++
        flow parentType childType (.joined lineup.parent) rest := by
  obtain ⟨l', settled', passed⟩ := @flow_above parentType childType _
    (fun row member => (fits.above row member).1) l settled outside
    (lineup.parent :: lineup.child :: (lineup.below ++ rest))
  calc flow parentType childType l (lineup.rows ++ rest)
      = flow parentType childType l
          (lineup.above ++ lineup.parent :: lineup.child :: (lineup.below ++ rest)) := by
        rw [Lineup.rows, List.append_assoc]
        rfl
    _ = lineup.above ++ lineup.parent.join lineup.child (.flattened parentType childType) ::
          flow parentType childType (.joined lineup.parent) (lineup.below ++ rest) := by
        rw [passed, flow_pair settled' fits.parent fits.child fits.childBelow]
    _ = lineup.joined parentType childType ++
          flow parentType childType (.joined lineup.parent) rest := by
        rw [flow_below fits.below, Lineup.joined, List.append_assoc]
        rfl

/-- Lines come out joined, one after another, if no parent lies above a row that another line begins with. -/
theorem flow_lineups {lineups : List Lineup}
    (fits : ∀ lineup ∈ lineups, lineup.Fits parentType childType)
    (outside : ∀ lineup ∈ lineups, ∀ other ∈ lineups, ∀ row ∈ other.above,
      lineup.parent.isAbove row = false) :
    flow parentType childType .noParent (lineups.flatMap Lineup.rows) =
      lineups.flatMap (Lineup.joined parentType childType) := by
  -- between two lines nothing waits, and the parent in sight is one of the lines'
  have onward (rest : List Lineup) (l : Lookback) (part : ∀ lineup ∈ rest, lineup ∈ lineups)
      (settled : l.released = [])
      (seen : ∀ p ∈ l.parents, ∃ lineup ∈ lineups, lineup.parent = p) :
      flow parentType childType l (rest.flatMap Lineup.rows) =
        rest.flatMap (Lineup.joined parentType childType) := by
    induction rest generalizing l with
    | nil => exact settled
    | cons lineup rest ih =>
      obtain ⟨here, others⟩ := List.forall_mem_cons.1 part
      have apart : ∀ p ∈ l.parents, ∀ row ∈ lineup.above, p.isAbove row = false := by
        intro p member row first
        obtain ⟨before, listed, rfl⟩ := seen p member
        exact outside before listed lineup here row first
      rw [List.flatMap_cons, flow_lineup (fits lineup here) settled apart,
        ih (.joined lineup.parent) others rfl fun p same =>
          ⟨lineup, here, (List.mem_singleton.1 same).symm⟩]
      rfl
  exact onward lineups .noParent (fun _ member => member) rfl fun p none => by cases none

end Flatten

end Pipeline

end Interleave
