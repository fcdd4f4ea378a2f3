import Interleave.Proofs.Catalog.Forest
import Interleave.Proofs.Pipeline.Production
import Interleave.Proofs.Pipeline.Renewal
import Interleave.Proofs.Store.Endings

/-!
How many rows a tree has left. Over a store whose traversals end, every row that comes out of an open tree
lowers a number that is no larger than what the tree looks ahead. A row that comes out is the current row.
-/

namespace Interleave

open Pipeline

namespace Traversal

variable {s : Store} {t t' : Traversal} {n : Nat}

theorem Lasts.advance (lasts : t.Lasts s n) (next : t.advance s = (.ok true, t')) :
    ∃ k, n = k + 1 ∧ t'.Lasts s k := by
  cases lasts with
  | done ended =>
    rw [ended] at next
    cases next
  | more next' _ others =>
    obtain ⟨_, rfl⟩ := Prod.mk.inj (next'.symm.trans next)
    exact ⟨_, rfl, others⟩

end Traversal

namespace Pipeline

variable {σ : Type}

/-- Whether a row that comes out becomes current. -/
def Presents (m : Machine σ) : Prop :=
  ∀ store s row s', m.advance store s = (.ok (some row), s') → (m.progress s').current = some row

/-- Whether `Left` bounds the rows that are left, within what the machine looks ahead. -/
structure Dwindles (m : Machine σ) (store : Store) (Left : σ → Nat → Prop) : Prop where
  ahead {s : σ} {n : Nat} (left : Left s n) : n ≤ m.ahead store s
  advance {s s' : σ} {n : Nat} {row : Row} (left : Left s n)
    (next : m.advance store s = (.ok (some row), s')) : ∃ k < n, Left s' k
  launch {bindings : Bindings} {s s' : σ} (opened : m.launch store bindings s = (.ok (), s')) :
    ∃ n, Left s' n

variable {m : Machine σ} {store : Store} {InputLeft : σ → Nat → Prop} {n : Nat}

/-- An operator gives a row only if it looked for one. -/
theorem Progress.proceed_row {answer : Except QueryError Bool} {s s' : σ} {row : Row}
    {search : Except QueryError (Option Row) × σ}
    (next : proceed answer s search = (.ok (some row), s')) : search = (.ok (some row), s') := by
  rcases answer with _ | _ | _
  · cases next
  · cases next
  · exact next

namespace Feed

variable {items : List FeedItem}

theorem advance_row {s s' : State} {row : Row} (next : advance s = (.ok (some row), s')) :
    s'.items.length < s.items.length ∧ s'.progress.current = some row := by
  replace next := Progress.proceed_row next
  rcases items : s.items with _ | ⟨_ | _, rest⟩ <;> rw [items] at next <;> cases next
  exact ⟨Nat.lt_succ_self _, rfl⟩

theorem presents : Presents (machine items) := fun _ _ _ _ next => (advance_row next).2

theorem dwindles : Dwindles (machine items) store fun s n => n = s.items.length where
  ahead left := Nat.le_of_eq left
  advance left next := ⟨_, left ▸ (advance_row next).1, rfl⟩
  launch _ := ⟨_, rfl⟩

end Feed

namespace Scan

/-- An open scan has the rows of its traversal left, at most. -/
def Left (store : Store) (s : State) (n : Nat) : Prop :=
  ∃ traversal, s.traversal = some traversal ∧ traversal.Lasts store n

variable {name label : String} {s s' : State} {row : Row}

theorem advance_row (next : advance name label store s = (.ok (some row), s')) :
    s'.progress.current = some row ∧ ∃ traversal further, s.traversal = some traversal ∧
      traversal.advance store = (.ok true, further) ∧ s'.traversal = some further := by
  replace next := Progress.proceed_row next
  simp only [pull] at next
  rcases before : s.traversal with _ | traversal <;> rw [before] at next
  · cases next
  rcases advanced : traversal.advance store with ⟨_ | _ | _, further⟩ <;> simp only [advanced] at next
  · cases next
  · cases next
  · rcases stood : further.currentRow store with _ | _ <;> simp only [stood] at next <;> cases next
    exact ⟨rfl, _, _, rfl, advanced, rfl⟩

theorem ahead_of_left (left : Left store s n) : n ≤ ahead store s := by
  obtain ⟨traversal, same, lasts⟩ := left
  rw [ahead, same]
  exact lasts.le_ahead

theorem left_of_row (left : Left store s n)
    (next : advance name label store s = (.ok (some row), s')) : ∃ k < n, Left store s' k := by
  obtain ⟨_, traversal, further, before, advanced, after⟩ := advance_row next
  obtain ⟨traversal', same, lasts⟩ := left
  obtain rfl := Option.some.inj (before.symm.trans same)
  obtain ⟨k, rfl, others⟩ := lasts.advance advanced
  exact ⟨k, Nat.lt_succ_self k, further, after, others⟩

variable {traversed : Store → Bindings → Except QueryError Traversal}

theorem presents : Presents (traversing name label traversed) := fun _ _ _ _ next => (advance_row next).1

theorem dwindles (ends : ∀ {bindings t}, traversed store bindings = .ok t → t.Ends store) :
    Dwindles (traversing name label traversed) store (Left store) where
  ahead := ahead_of_left
  advance := left_of_row
  launch opened := by
    obtain ⟨traversal, found, rfl⟩ := launch_eq_ok opened
    obtain ⟨n, lasts⟩ := ends found
    exact ⟨n, traversal, rfl, lasts⟩

/-- The range of an index in which a scan reads ends. -/
theorem ends_of_traverseRange (ends : store.TraversalsEnd) {scan : IndexScan} {bindings : Bindings}
    {t : Traversal} (found : traverseRange scan store bindings = .ok t) : t.Ends store := by
  obtain ⟨_, _, _, _, traversed⟩ := traverseRange_eq_ok found
  exact ends.index traversed

end Scan

namespace Select

variable {target : RowType} {predicate : Predicate} {s s' : State σ} {row : Row}

theorem pull_row {fuel : Nat} (next : pull target predicate m store fuel s = (.ok (some row), s')) :
    s'.progress.current = some row := by
  induction fuel generalizing s with
  | zero => cases next
  | succ fuel ih =>
    simp only [pull] at next
    split at next
    · cases next
    · cases next
    · split at next
      · cases next
      · cases next
        rfl
      · exact ih next

theorem pull_left (input : Dwindles m store InputLeft) {fuel : Nat} (left : InputLeft s.input n)
    (next : pull target predicate m store fuel s = (.ok (some row), s')) :
    ∃ k < n, InputLeft s'.input k := by
  induction fuel generalizing s n with
  | zero => cases next
  | succ fuel ih =>
    rcases answer : m.advance store s.input with ⟨_ | _ | _, below⟩ <;>
      simp only [pull, answer] at next
    · cases next
    · cases next
    · obtain ⟨k, fewer, left⟩ := input.advance left answer
      split at next
      · cases next
      · cases next
        exact ⟨k, fewer, left⟩
      · obtain ⟨k', fewer', left⟩ := ih left next
        exact ⟨k', fewer'.trans fewer, left⟩

theorem advance_row (next : advance target predicate m store s = (.ok (some row), s')) :
    pull target predicate m store (m.ahead store s.input + 1)
      { s with progress := { s.progress with current := none } } = (.ok (some row), s') :=
  Progress.proceed_row next

theorem presents : Presents (machine target predicate m) :=
  fun _ _ _ _ next => pull_row (advance_row next)

theorem dwindles (input : Dwindles m store InputLeft) :
    Dwindles (machine target predicate m) store fun s => InputLeft s.input where
  ahead left := input.ahead left
  advance {s _ _ _} left next :=
    pull_left (s := { s with progress := { s.progress with current := none } }) input left
      (advance_row next)
  launch opened := by
    obtain ⟨_, launched, rfl⟩ := of_launch opened
    exact input.launch launched

end Select

namespace Flatten

/-- An open join has the rows that are ready left, the parent that waits, and the rows of its input. -/
def Left (InputLeft : σ → Nat → Prop) (s : State σ) (n : Nat) : Prop :=
  ∃ k, (InputLeft s.input k ∨ s.ended = true ∧ k = 0) ∧
    n = s.output.length + s.lookback.released.length + k

variable {parentType childType : RowType} {s s' : State σ} {row : Row}

theorem pull_row {fuel : Nat}
    (next : pull parentType childType m store fuel s = (.ok (some row), s')) :
    s'.progress.current = some row := by
  induction fuel generalizing s with
  | zero => cases next
  | succ fuel ih =>
    simp only [pull] at next
    split at next
    · cases next
      rfl
    · split at next
      · cases next
      · split at next
        · cases next
        · exact ih next
        · exact ih next

theorem pull_left (input : Dwindles m store InputLeft) {fuel : Nat} (left : Left InputLeft s n)
    (next : pull parentType childType m store fuel s = (.ok (some row), s')) :
    ∃ k < n, Left InputLeft s' k := by
  induction fuel generalizing s n with
  | zero => cases next
  | succ fuel ih =>
    obtain ⟨k, left, rfl⟩ := left
    rw [pull] at next
    cases ready : s.output with
    | cons first rest =>
      rw [ready] at next
      cases next
      refine ⟨_, ?_, k, left, rfl⟩
      dsimp only
      rw [List.length_cons]
      omega
    | nil =>
      simp only [ready] at next
      split at next
      · cases next
      next going =>
      replace left := left.resolve_right fun spent => going spent.1
      rcases answer : m.advance store s.input with ⟨_ | _ | entry, below⟩ <;>
        simp only [answer] at next
      · cases next
      · obtain ⟨k', fewer, left'⟩ := ih ⟨0, .inr ⟨rfl, rfl⟩, rfl⟩ next
        refine ⟨k', fewer.trans_le ?_, left'⟩
        dsimp only
        rw [show Lookback.noParent.released = [] from rfl, List.length_nil]
        omega
      · obtain ⟨k', fewer, left⟩ := input.advance left answer
        have step := length_absorb parentType childType s.lookback entry
        obtain ⟨k'', fewer', left'⟩ := ih ⟨k', .inl left, rfl⟩ next
        refine ⟨k'', fewer'.trans_le ?_, left'⟩
        dsimp only
        rw [List.length_nil]
        omega

theorem advance_row (next : advance parentType childType m store s = (.ok (some row), s')) :
    pull parentType childType m store (m.ahead store s.input + 2)
      { s with progress := { s.progress with current := none } } = (.ok (some row), s') :=
  Progress.proceed_row next

theorem presents : Presents (machine parentType childType m) :=
  fun _ _ _ _ next => pull_row (advance_row next)

theorem dwindles (input : Dwindles m store InputLeft) :
    Dwindles (machine parentType childType m) store (Left InputLeft) where
  ahead {s n} left := by
    obtain ⟨k, left, rfl⟩ := left
    show _ ≤ s.output.length + s.lookback.released.length + m.ahead store s.input
    rcases left with left | ⟨_, rfl⟩
    · exact Nat.add_le_add_left (input.ahead left) _
    · exact Nat.add_le_add_left (Nat.zero_le _) _
  advance {s _ _ _} left next :=
    pull_left (s := { s with progress := { s.progress with current := none } }) input left
      (advance_row next)
  launch opened := by
    obtain ⟨_, launched, rfl⟩ := of_launch opened
    obtain ⟨k, left⟩ := input.launch launched
    exact ⟨_, k, .inl left, rfl⟩

end Flatten

namespace IndexLookup

/-- Whether an open branch lasts a certain number of answers. -/
def BranchLasts (store : Store) : Option Traversal → Nat → Prop
  | none, n => n = 0
  | some branch, n => branch.Lasts store n

/-- An open lookup has left the rows that are ready, the rest of the branch, and for each row of its input
as many as an entry expands to. -/
def Left (lookup : IndexLookup) (store : Store) (InputLeft : σ → Nat → Prop) (s : State σ) (n : Nat) :
    Prop :=
  ∃ j k, BranchLasts store s.branch j ∧ InputLeft s.input k ∧
    n = s.pending.length + j +
      k * (lookup.ancestors.length + 1 + Traversal.yieldBound store store.batchSize)

variable {lookup : IndexLookup} {s s' : State σ} {row : Row}

theorem length_fetchAncestors {key : RowKey} {tables : List TableId} {rows : List Row} {read : Nat}
    (fetched : fetchAncestors store key tables = (.ok rows, read)) : rows.length = tables.length := by
  induction tables generalizing rows read with
  | nil =>
    cases fetched
    rfl
  | cons table tables ih =>
    simp only [fetchAncestors] at fetched
    split at fetched
    · cases fetched
    split at fetched
    · cases fetched
    rcases others : fetchAncestors store key tables with ⟨_ | above, read'⟩ <;>
      simp only [others] at fetched <;> cases fetched
    rw [List.length_cons, List.length_cons, ih others]

theorem fetchRoot_lasts (ends : store.TraversalsEnd) {group : GroupId} {key : RowKey} {root : Row}
    {branch : Traversal} {read : Nat}
    (fetched : fetchRoot store group key = (.ok (root, branch), read)) :
    ∃ j < Traversal.yieldBound store store.batchSize, branch.Lasts store j := by
  rcases begun : store.traverseBranch group key with _ | whole <;>
    simp only [fetchRoot, begun] at fetched
  · cases fetched
  obtain ⟨n, lasts⟩ := ends.branch begun
  obtain ⟨g, _, rfl⟩ := map_eq_ok begun
  have enough : n ≤ Traversal.yieldBound store store.batchSize := by
    refine lasts.le_ahead.trans ?_
    exact Nat.le_of_eq (Nat.zero_add _)
  split at fetched
  · cases fetched
  · cases fetched
  next further advanced =>
  split at fetched
  · cases fetched
  · obtain ⟨stood, -⟩ := Prod.mk.inj fetched
    obtain ⟨_, _, same⟩ := map_eq_ok stood
    obtain ⟨-, rfl⟩ := Prod.mk.inj same
    obtain ⟨j, rfl, others⟩ := lasts.advance advanced
    exact ⟨j, enough, others⟩

/-- An entry expands to no more than was counted for it. -/
theorem expand_lasts (ends : store.TraversalsEnd) {key : RowKey} {rows : List Row} {last : Row}
    {branch : Option Traversal} {read : Nat}
    (expanded : expand lookup store key = (.ok (rows, last, branch), read)) :
    rows.length = lookup.ancestors.length ∧
      ∃ j ≤ Traversal.yieldBound store store.batchSize, BranchLasts store branch j := by
  rcases above : fetchAncestors store key lookup.ancestors with ⟨_ | rows', read'⟩ <;>
    simp only [expand, above] at expanded
  · cases expanded
  have length := length_fetchAncestors above
  split at expanded
  · obtain ⟨found, -⟩ := Prod.mk.inj expanded
    obtain ⟨_, _, same⟩ := map_eq_ok found
    cases same
    exact ⟨length, 0, Nat.zero_le _, rfl⟩
  · rcases fetched : fetchRoot store lookup.group key with ⟨_ | ⟨root, rest⟩, more⟩ <;>
      simp only [fetched] at expanded
    · cases expanded
    · cases expanded
      obtain ⟨j, fewer, lasts⟩ := fetchRoot_lasts ends fetched
      exact ⟨length, j, Nat.le_of_lt fewer, lasts⟩

theorem nextEntry_row (next : nextEntry lookup m store s = (.ok (some row), s')) :
    s'.progress.current = some row ∧ ∃ entry key rows last read,
      m.advance store s.input = (.ok (some entry), s'.input) ∧
      expand lookup store key = (.ok (rows, last, s'.branch), read) ∧
      s'.pending.length = rows.length := by
  rcases answer : m.advance store s.input with ⟨_ | _ | entry, below⟩ <;>
    simp only [nextEntry, answer] at next
  · cases next
  · cases next
  split at next
  · cases next
  next key _ =>
  rcases expanded : expand lookup store key with ⟨_ | ⟨_ | ⟨first, rest⟩, last, branch⟩, read⟩ <;>
    simp only [expanded, emitFirst] at next <;> cases next
  · exact ⟨rfl, entry, key, _, _, read, rfl, expanded, rfl⟩
  · exact ⟨rfl, entry, key, _, _, read, rfl, expanded, List.length_append⟩

theorem nextEntry_left (input : Dwindles m store InputLeft) (ends : store.TraversalsEnd) {k : Nat}
    (left : InputLeft s.input k) (next : nextEntry lookup m store s = (.ok (some row), s')) :
    ∃ n < k * (lookup.ancestors.length + 1 + Traversal.yieldBound store store.batchSize),
      Left lookup store InputLeft s' n := by
  obtain ⟨_, entry, key, rows, last, read, answer, expanded, pending⟩ := nextEntry_row next
  obtain ⟨k', fewer, left⟩ := input.advance left answer
  obtain ⟨length, j, short, lasts⟩ := expand_lasts ends expanded
  refine ⟨_, ?_, j, k', lasts, left, rfl⟩
  have entries := Nat.mul_le_mul_right
    (lookup.ancestors.length + 1 + Traversal.yieldBound store store.batchSize) fewer
  rw [Nat.succ_mul] at entries
  omega

theorem advance_row (next : advance lookup m store s = (.ok (some row), s')) :
    pull lookup m store { s with progress := { s.progress with current := none } } =
      (.ok (some row), s') :=
  Progress.proceed_row next

theorem pull_row (next : pull lookup m store s = (.ok (some row), s')) :
    s'.progress.current = some row := by
  simp only [pull] at next
  split at next
  · cases next
    rfl
  split at next
  · exact (nextEntry_row next).1
  split at next
  · cases next
  · exact (nextEntry_row next).1
  · split at next <;> cases next
    rfl

theorem pull_left (input : Dwindles m store InputLeft) (ends : store.TraversalsEnd)
    (left : Left lookup store InputLeft s n) (next : pull lookup m store s = (.ok (some row), s')) :
    ∃ k < n, Left lookup store InputLeft s' k := by
  obtain ⟨j, k, lasts, left, rfl⟩ := left
  rw [pull] at next
  rcases ready : s.pending with _ | ⟨first, rest⟩ <;> simp only [ready] at next
  · rcases opened : s.branch with _ | branch <;> simp only [opened] at next
    · obtain ⟨n, fewer, left⟩ := nextEntry_left input ends left next
      exact ⟨n, by omega, left⟩
    rw [opened] at lasts
    rcases advanced : branch.advance store with ⟨_ | _ | _, further⟩ <;> simp only [advanced] at next
    · cases next
    · obtain ⟨n, fewer, left⟩ :=
        nextEntry_left (s := { s with pending := [], branch := none }) input ends left next
      exact ⟨n, by omega, left⟩
    · obtain ⟨j, rfl, others⟩ := Traversal.Lasts.advance lasts advanced
      split at next <;> cases next
      refine ⟨_, ?_, j, k, others, left, rfl⟩
      dsimp only
      omega
  · cases next
    refine ⟨_, ?_, j, k, lasts, left, rfl⟩
    dsimp only
    rw [List.length_cons]
    omega

theorem presents : Presents (machine lookup m) :=
  fun _ _ _ _ next => pull_row (advance_row next)

theorem dwindles (input : Dwindles m store InputLeft) (ends : store.TraversalsEnd) :
    Dwindles (machine lookup m) store (Left lookup store InputLeft) where
  ahead {s n} left := by
    obtain ⟨j, k, lasts, left, rfl⟩ := left
    have branch : j ≤ (s.branch.map (·.ahead store)).getD 0 := by
      cases opened : s.branch with
      | none =>
        rw [opened] at lasts
        exact Nat.le_of_eq lasts
      | some branch =>
        rw [opened] at lasts
        exact lasts.le_ahead
    exact Nat.add_le_add (Nat.add_le_add_left branch _) (Nat.mul_le_mul_right _ (input.ahead left))
  advance {s _ _ _} left next :=
    pull_left (s := { s with progress := { s.progress with current := none } }) input ends left
      (advance_row next)
  launch opened := by
    obtain ⟨_, launched, rfl⟩ := of_launch opened
    obtain ⟨k, left⟩ := input.launch launched
    exact ⟨_, 0, k, rfl, left, rfl⟩

end IndexLookup

/-- A bound on the rows that an open tree has left. -/
def Left (store : Store) : (p : Pipeline) → p.State → Nat → Prop
  | feed _ => fun s n => n = s.items.length
  | groupScan _ => Scan.Left store
  | indexScan _ => Scan.Left store
  | select _ _ input => fun s => input.Left store s.input
  | flatten _ _ input => Flatten.Left (input.Left store)
  | indexLookup lookup input => IndexLookup.Left lookup store (input.Left store)

theorem presents (p : Pipeline) : Presents p.machine := by
  cases p with
  | feed items => exact Feed.presents
  | groupScan group => exact Scan.presents
  | indexScan scan => exact Scan.presents
  | select target predicate input => exact Select.presents
  | flatten parent child input => exact Flatten.presents
  | indexLookup lookup input => exact IndexLookup.presents

theorem dwindles (p : Pipeline) {store : Store} (ends : store.TraversalsEnd) :
    Dwindles p.machine store (p.Left store) := by
  induction p with
  | feed items => exact Feed.dwindles
  | groupScan group => exact Scan.dwindles ends.group
  | indexScan scan => exact Scan.dwindles (Scan.ends_of_traverseRange ends)
  | select target predicate input ih => exact Select.dwindles ih
  | flatten parent child input ih => exact Flatten.dwindles ih
  | indexLookup lookup input ih => exact IndexLookup.dwindles ih ends

end Pipeline

end Interleave
