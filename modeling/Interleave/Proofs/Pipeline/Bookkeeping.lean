import Interleave.Proofs.Pipeline.Rearrangement

/-!
Keeping account of a join. Whatever comes in, in any order and with keys that repeat or are missing,
each row that goes out is traced to the positions that it came from. Main statement: every row that is
no parent goes out once and in its turn, alone or joined with the parent in sight of it, and a parent
goes out alone once or in joined rows, never both.
-/

namespace Interleave.Pipeline.Flatten

/-- Where a row that goes out comes from, by positions in the stream that comes in. -/
inductive Origin where
  | passed (i : Nat)
  | alone (p : Nat)
  | joined (p i : Nat)
deriving DecidableEq

/-- The row that goes out. -/
def Origin.row? (parentType childType : RowType) (rows : List Row) : Origin → Option Row
  | passed i => rows[i]?
  | alone p => rows[p]?
  | joined p i => do return (← rows[p]?).join (← rows[i]?) (.flattened parentType childType)

/-- What is left of a row that goes out once its parent is taken off it. -/
def Origin.child? : Origin → Option Nat
  | passed i => some i
  | alone _ => none
  | joined _ i => some i

/-- Whether a row of a type stands at a position. -/
def isOfTypeAt (rowType : RowType) (rows : List Row) (i : Nat) : Bool :=
  rows[i]?.any fun row => row.rowType.same rowType

/-- Whether the parent at a position is still in sight before position `n`: no other parent came
since, and all that came is below it. -/
structure InSight (parentType : RowType) (rows : List Row) (p n : Nat) : Prop where
  before : p < n
  isParent : isOfTypeAt parentType rows p = true
  below : ∀ i row, p < i → i < n → rows[i]? = some row →
    row.rowType.same parentType = false ∧ rows[p]?.any (·.isAbove row) = true

/-- Whether a parent went out once and on its own, or joined and never on its own. -/
def Settled (origins : List Origin) (p : Nat) : Prop :=
  (origins.count (.alone p) = 1 ∧ ∀ i, .joined p i ∉ origins) ∨
    (.alone p ∉ origins ∧ ∃ i, .joined p i ∈ origins)

/-- Whether the rows that went out are traced to those that came in: the rows that are no parents
stand in the order in which they came, each once, and a row is joined with a parent just if it is a
child and that parent is in sight of it. -/
structure Traces (parentType childType : RowType) (rows out : List Row) (origins : List Origin) :
    Prop where
  shown : origins.map (Origin.row? parentType childType rows) = out.map some
  order : origins.filterMap Origin.child? =
    (List.range rows.length).filter fun i => !isOfTypeAt parentType rows i
  alone : ∀ p, .alone p ∈ origins → isOfTypeAt parentType rows p = true
  joins : ∀ p i, .joined p i ∈ origins ↔
    p < i ∧ InSight parentType rows p (i + 1) ∧ isOfTypeAt childType rows i = true

/-- Whether, besides, every parent is accounted for. -/
structure Accounts (parentType childType : RowType) (rows out : List Row) (origins : List Origin) :
    Prop extends Traces parentType childType rows out origins where
  parents : ∀ p, isOfTypeAt parentType rows p = true → Settled origins p

section Positions

variable {parentType rowType : RowType} {done more : List Row} {row : Row} {p q i n : Nat}

theorem isOfTypeAt_append (inside : i < done.length) :
    isOfTypeAt rowType (done ++ more) i = isOfTypeAt rowType done i := by
  rw [isOfTypeAt, List.getElem?_append_left inside, isOfTypeAt]

theorem isOfTypeAt_length : isOfTypeAt rowType (done ++ [row]) done.length = row.rowType.same rowType := by
  simp [isOfTypeAt]

theorem lt_of_isOfTypeAt (found : isOfTypeAt rowType done i = true) : i < done.length := by
  obtain ⟨row, present, _⟩ := (Option.any_eq_true _ _).1 found
  exact (List.getElem?_eq_some_iff.1 present).1

theorem inSight_append (inside : n ≤ done.length) :
    InSight parentType (done ++ more) p n ↔ InSight parentType done p n := by
  have old {i : Nat} (earlier : i < n) : (done ++ more)[i]? = done[i]? :=
    List.getElem?_append_left (Nat.lt_of_lt_of_le earlier inside)
  constructor
  · intro sight
    have earlier := sight.before
    refine ⟨earlier, ?_, fun i row later within present => ?_⟩
    · rw [← isOfTypeAt_append (Nat.lt_of_lt_of_le earlier inside)]
      exact sight.isParent
    · rw [← old earlier]
      exact sight.below i row later within ((old within).trans present)
  · intro sight
    have earlier := sight.before
    refine ⟨earlier, ?_, fun i row later within present => ?_⟩
    · rw [isOfTypeAt_append (Nat.lt_of_lt_of_le earlier inside)]
      exact sight.isParent
    · rw [old earlier]
      exact sight.below i row later within ((old within).symm.trans present)

/-- Only the last parent is in sight. -/
theorem InSight.unique (first : InSight parentType done p n) (second : InSight parentType done q n) :
    p = q := by
  have apart {p q : Nat} (first : InSight parentType done p n) (second : InSight parentType done q n) :
      ¬ p < q := by
    intro earlier
    obtain ⟨row, present, isParent⟩ := (Option.any_eq_true _ _).1 second.isParent
    have other := (first.below q row earlier second.before present).1
    rw [isParent] at other
    cases other
  have notBefore := apart first second
  have notAfter := apart second first
  omega

/-- The parent in sight after one more row: the row itself, or the one before if the row is below. -/
theorem inSight_concat : InSight parentType (done ++ [row]) p (done.length + 1) ↔
    (p = done.length ∧ row.rowType.same parentType = true) ∨
    (InSight parentType done p done.length ∧ row.rowType.same parentType = false ∧
      done[p]?.any (·.isAbove row) = true) := by
  have last : (done ++ [row])[done.length]? = some row := List.getElem?_concat_length
  constructor
  · intro sight
    rcases Nat.lt_succ_iff_lt_or_eq.1 sight.before with earlier | rfl
    · have ⟨other, above⟩ := sight.below done.length row earlier (Nat.lt_succ_self _) last
      rw [List.getElem?_append_left earlier] at above
      have still : InSight parentType (done ++ [row]) p done.length :=
        ⟨earlier, sight.isParent, fun i row later within =>
          sight.below i row later (Nat.lt_succ_of_lt within)⟩
      exact .inr ⟨(inSight_append (Nat.le_refl _)).1 still, other, above⟩
    · have isParent := sight.isParent
      rw [isOfTypeAt_length] at isParent
      exact .inl ⟨rfl, isParent⟩
  · rintro (⟨rfl, isParent⟩ | ⟨sight, other, above⟩)
    · refine ⟨Nat.lt_succ_self _, isOfTypeAt_length.trans isParent, fun i row later within => ?_⟩
      omega
    · have earlier := sight.before
      have still : InSight parentType (done ++ [row]) p done.length :=
        (inSight_append (Nat.le_refl _)).2 sight
      refine ⟨Nat.lt_succ_of_lt earlier, still.isParent, fun i row' later within present => ?_⟩
      rcases Nat.lt_succ_iff_lt_or_eq.1 within with within | rfl
      · exact still.below i row' later within present
      · rw [last, Option.some_inj] at present
        rw [List.getElem?_append_left earlier, ← present]
        exact ⟨other, above⟩

end Positions

section Settlement

variable {origins extra : List Origin} {p : Nat}

theorem Settled.append (settled : Settled origins p) (notAlone : .alone p ∉ extra)
    (notJoined : ∀ i, .joined p i ∉ extra) : Settled (origins ++ extra) p := by
  rcases settled with ⟨once, never⟩ | ⟨never, i, joined⟩
  · refine .inl ⟨?_, fun i => ?_⟩
    · rw [List.count_append, once, List.count_eq_zero.2 notAlone]
    · rw [List.mem_append]
      exact fun found => found.elim (never i) (notJoined i)
  · refine .inr ⟨?_, i, List.mem_append_left _ joined⟩
    rw [List.mem_append]
    exact fun found => found.elim never notAlone

end Settlement

section Step

variable {parentType childType : RowType} {done out more : List Row} {origins extra : List Origin}
  {row : Row}

theorem Origin.row?_append {origin : Origin} {shown : Row}
    (found : origin.row? parentType childType done = some shown) :
    origin.row? parentType childType (done ++ more) = some shown := by
  have old {i : Nat} {row : Row} (present : done[i]? = some row) : (done ++ more)[i]? = some row := by
    rw [List.getElem?_append_left (List.getElem?_eq_some_iff.1 present).1, present]
  cases origin with
  | passed i => exact old found
  | alone p => exact old found
  | joined p i =>
    obtain ⟨parent, atParent, found⟩ := Option.bind_eq_some_iff.1 found
    obtain ⟨child, atChild, joined⟩ := Option.bind_eq_some_iff.1 found
    simp only [Origin.row?, old atParent, old atChild]
    exact joined

theorem map_row?_append (shown : origins.map (Origin.row? parentType childType done) = out.map some) :
    origins.map (Origin.row? parentType childType (done ++ more)) = out.map some := by
  rw [← shown]
  refine List.map_congr_left fun origin member => ?_
  have found : origin.row? parentType childType done ∈ out.map some := by
    rw [← shown]
    exact List.mem_map_of_mem member
  obtain ⟨row, _, same⟩ := List.mem_map.1 found
  rw [← same]
  exact Origin.row?_append same.symm

/-- The positions of the rows that are no parents, after one more row. -/
theorem positions_concat : ((List.range (done ++ [row]).length).filter fun i =>
      !isOfTypeAt parentType (done ++ [row]) i) =
    ((List.range done.length).filter fun i => !isOfTypeAt parentType done i) ++
      if row.rowType.same parentType then [] else [done.length] := by
  have old : ((List.range done.length).filter fun i => !isOfTypeAt parentType (done ++ [row]) i) =
      (List.range done.length).filter fun i => !isOfTypeAt parentType done i := by
    refine List.filter_congr fun i member => ?_
    rw [isOfTypeAt_append (List.mem_range.1 member)]
  rw [List.length_append, List.length_singleton, List.range_succ, List.filter_append, old,
    List.filter_singleton, isOfTypeAt_length]
  cases row.rowType.same parentType <;> rfl

namespace Traces

/-- One more row, which is let out with the right parent, if at all. -/
theorem concat (traces : Traces parentType childType done out origins)
    (shown : extra.map (Origin.row? parentType childType (done ++ [row])) = more.map some)
    (order : extra.filterMap Origin.child? =
      if row.rowType.same parentType then [] else [done.length])
    (alone : ∀ p, .alone p ∉ extra)
    (joins : ∀ p i, .joined p i ∈ extra ↔ i = done.length ∧ p < i ∧
      InSight parentType (done ++ [row]) p (i + 1) ∧ row.rowType.same childType = true) :
    Traces parentType childType (done ++ [row]) (out ++ more) (origins ++ extra) where
  shown := by rw [List.map_append, map_row?_append traces.shown, shown, List.map_append]
  order := by rw [List.filterMap_append, traces.order, order, positions_concat]
  alone p member := by
    have old := traces.alone p ((List.mem_append.1 member).resolve_right (alone p))
    rwa [isOfTypeAt_append (lt_of_isOfTypeAt old)]
  joins p i := by
    rw [List.mem_append, traces.joins, joins]
    constructor
    · rintro (⟨earlier, sight, isChild⟩ | ⟨rfl, earlier, sight, isChild⟩)
      · have inside := lt_of_isOfTypeAt isChild
        exact ⟨earlier, (inSight_append inside).2 sight, (isOfTypeAt_append inside).trans isChild⟩
      · exact ⟨earlier, sight, isOfTypeAt_length.trans isChild⟩
    · rintro ⟨earlier, sight, isChild⟩
      have inside := lt_of_isOfTypeAt isChild
      rw [List.length_append, List.length_singleton] at inside
      rcases Nat.lt_succ_iff_lt_or_eq.1 inside with inside | rfl
      · rw [isOfTypeAt_append inside] at isChild
        exact .inl ⟨earlier, (inSight_append inside).1 sight, isChild⟩
      · rw [isOfTypeAt_length] at isChild
        exact .inr ⟨rfl, earlier, sight, isChild⟩

/-- A parent in sight goes out alone. -/
theorem release (traces : Traces parentType childType done out origins) {p : Nat} {parent : Row}
    (present : done[p]? = some parent) (isParent : isOfTypeAt parentType done p = true) :
    Traces parentType childType done (out ++ [parent]) (origins ++ [.alone p]) where
  shown := by
    rw [List.map_append, traces.shown, List.map_append, List.map_singleton, List.map_singleton,
      Origin.row?, present]
  order := by
    rw [List.filterMap_append, traces.order]
    exact List.append_nil _
  alone q member := by
    rcases List.mem_append.1 member with old | new
    · exact traces.alone q old
    · cases List.mem_singleton.1 new
      exact isParent
  joins q i := by
    rw [List.mem_append, ← traces.joins]
    exact or_iff_left fun new => nomatch List.mem_singleton.1 new

end Traces

/-- Whether a lookback holds the parent in sight of what comes next, waiting or joined. -/
inductive Sees (parentType : RowType) (done : List Row) (origins : List Origin) : Lookback → Prop where
  | nothing (none : ∀ p, ¬ InSight parentType done p done.length) :
      Sees parentType done origins .noParent
  | waiting {p : Nat} {parent : Row} (sight : InSight parentType done p done.length)
      (present : done[p]? = some parent) (notAlone : .alone p ∉ origins)
      (notJoined : ∀ i, .joined p i ∉ origins) : Sees parentType done origins (.waiting parent)
  | joined {p i : Nat} {parent : Row} (sight : InSight parentType done p done.length)
      (present : done[p]? = some parent) (notAlone : .alone p ∉ origins)
      (isJoined : .joined p i ∈ origins) : Sees parentType done origins (.joined parent)

/-- The account of a join that has read certain rows and let others out: every parent is settled but
the one in sight. -/
structure Books (parentType childType : RowType) (done : List Row) (l : Lookback) (out : List Row)
    (origins : List Origin) : Prop where
  traces : Traces parentType childType done out origins
  sees : Sees parentType done origins l
  settled : ∀ p, isOfTypeAt parentType done p = true → ¬ InSight parentType done p done.length →
    Settled origins p

theorem isOfTypeAt_of_concat {p : Nat} (other : row.rowType.same parentType = false)
    (isParent : isOfTypeAt parentType (done ++ [row]) p = true) :
    isOfTypeAt parentType done p = true := by
  have inside := lt_of_isOfTypeAt isParent
  rw [List.length_append, List.length_singleton] at inside
  rcases Nat.lt_succ_iff_lt_or_eq.1 inside with inside | rfl
  · rwa [isOfTypeAt_append inside] at isParent
  · rw [isOfTypeAt_length, other] at isParent
    cases isParent

namespace Sees

variable {l : Lookback}

theorem mem_parents (sees : Sees parentType done origins l) {p : Nat} {parent : Row}
    (sight : InSight parentType done p done.length) (present : done[p]? = some parent) :
    parent ∈ l.parents := by
  cases sees with
  | nothing none => exact absurd sight (none p)
  | waiting sight' present' _ _ =>
    rw [sight.unique sight', present', Option.some_inj] at present
    exact List.mem_singleton.2 present.symm
  | joined sight' present' _ _ =>
    rw [sight.unique sight', present', Option.some_inj] at present
    exact List.mem_singleton.2 present.symm

theorem position (sees : Sees parentType done origins l) {parent : Row} (held : l.parents = [parent]) :
    ∃ p, InSight parentType done p done.length ∧ done[p]? = some parent ∧ .alone p ∉ origins := by
  cases sees with
  | nothing _ => cases held
  | waiting sight present notAlone _ =>
    cases held
    exact ⟨_, sight, present, notAlone⟩
  | joined sight present notAlone _ =>
    cases held
    exact ⟨_, sight, present, notAlone⟩

end Sees

/-- At the end the parent in sight is settled as well. -/
theorem Books.accounts {l : Lookback} (books : Books parentType childType done l out origins) :
    ∃ origins', Accounts parentType childType done (out ++ l.released) origins' := by
  obtain ⟨traces, sees, settled⟩ := books
  cases sees with
  | nothing none =>
    rw [show Lookback.noParent.released = [] from rfl, List.append_nil]
    exact ⟨origins, traces, fun p isParent => settled p isParent (none p)⟩
  | @waiting p parent sight present notAlone notJoined =>
    refine ⟨_, traces.release present sight.isParent, fun q isParent => ?_⟩
    by_cases same : q = p
    · rw [same]
      refine .inl ⟨?_, fun i found => ?_⟩
      · rw [List.count_append, List.count_eq_zero.2 notAlone, List.count_singleton_self]
      · exact (List.mem_append.1 found).elim (notJoined i) fun new => nomatch List.mem_singleton.1 new
    · refine (settled q isParent fun sight' => same (sight'.unique sight)).append ?_ ?_
      · exact fun found => same (Origin.alone.inj (List.mem_singleton.1 found))
      · exact fun i found => nomatch List.mem_singleton.1 found
  | @joined p i parent sight present notAlone isJoined =>
    rw [show (Lookback.joined parent).released = [] from rfl, List.append_nil]
    refine ⟨origins, traces, fun q isParent => ?_⟩
    by_cases same : q = p
    · rw [same]
      exact .inr ⟨notAlone, i, isJoined⟩
    · exact settled q isParent fun sight' => same (sight'.unique sight)

namespace Accounts

variable (accounts : Accounts parentType childType done out origins)
include accounts

/-- The next parent comes in sight. -/
theorem parent (isParent : row.rowType.same parentType = true) :
    Books parentType childType (done ++ [row]) (.waiting row) out origins := by
  have here : InSight parentType (done ++ [row]) done.length (done ++ [row]).length := by
    rw [List.length_append, List.length_singleton]
    exact inSight_concat.2 (.inl ⟨rfl, isParent⟩)
  refine ⟨?_, ?_, fun p isParent' outOfSight => ?_⟩
  · have traces : Traces parentType childType (done ++ [row]) (out ++ []) (origins ++ []) :=
      accounts.concat rfl (by rw [if_pos isParent]; rfl) (fun p => List.not_mem_nil) fun p i => by
        refine ⟨fun found => absurd found List.not_mem_nil, ?_⟩
        rintro ⟨rfl, earlier, sight, _⟩
        rcases inSight_concat.1 sight with ⟨same, _⟩ | ⟨_, other, _⟩
        · omega
        · rw [isParent] at other
          cases other
    rwa [List.append_nil, List.append_nil] at traces
  · refine .waiting here List.getElem?_concat_length (fun found => ?_) fun i found => ?_
    · exact Nat.lt_irrefl _ (lt_of_isOfTypeAt (accounts.alone _ found))
    · have ⟨later, _, isChild⟩ := (accounts.joins _ _).1 found
      exact Nat.lt_asymm later (lt_of_isOfTypeAt isChild)
  · have inside := lt_of_isOfTypeAt isParent'
    rw [List.length_append, List.length_singleton] at inside
    rcases Nat.lt_succ_iff_lt_or_eq.1 inside with inside | rfl
    · rw [isOfTypeAt_append inside] at isParent'
      exact accounts.parents p isParent'
    · exact absurd here outOfSight

/-- A row below no parent in sight passes, and no parent is in sight any more. -/
theorem outside (other : row.rowType.same parentType = false)
    (apart : ∀ p, ¬ InSight parentType (done ++ [row]) p (done.length + 1)) :
    Books parentType childType (done ++ [row]) .noParent (out ++ [row])
      (origins ++ [.passed done.length]) := by
  refine ⟨?_, ?_, fun p isParent _ => ?_⟩
  · refine accounts.concat ?_ ?_ (fun p found => nomatch List.mem_singleton.1 found) fun p i => ?_
    · rw [List.map_singleton, Origin.row?, List.getElem?_concat_length, List.map_singleton]
    · rw [other]
      rfl
    · refine ⟨fun found => (nomatch List.mem_singleton.1 found), ?_⟩
      rintro ⟨rfl, _, sight, _⟩
      exact absurd sight (apart p)
  · rw [← List.length_singleton (a := row), ← List.length_append] at apart
    exact .nothing apart
  · refine (accounts.parents p (isOfTypeAt_of_concat other isParent)).append ?_ ?_
    · exact fun found => nomatch List.mem_singleton.1 found
    · exact fun i found => nomatch List.mem_singleton.1 found

end Accounts

section Below

variable {l : Lookback} {parent : Row} (other : row.rowType.same parentType = false)
  (held : l.parents = [parent]) (above : parent.isAbove row = true)
include other held above

/-- A row below the parent in sight leaves it in sight. -/
theorem Books.stay (books : Books parentType childType done l out origins) :
    ∃ p, done[p]? = some parent ∧ .alone p ∉ origins ∧
      InSight parentType done p done.length ∧
      InSight parentType (done ++ [row]) p (done ++ [row]).length ∧
      ∀ extra, (∀ q, .alone q ∉ extra) → (∀ q i, .joined q i ∈ extra → q = p) →
        ∀ q, isOfTypeAt parentType (done ++ [row]) q = true →
          ¬ InSight parentType (done ++ [row]) q (done ++ [row]).length →
          Settled (origins ++ extra) q := by
  obtain ⟨p, sight, present, notAlone⟩ := books.sees.position held
  have stays {q : Nat} (sight' : InSight parentType done q done.length) :
      InSight parentType (done ++ [row]) q (done ++ [row]).length := by
    rw [List.length_append, List.length_singleton]
    refine inSight_concat.2 (.inr ⟨sight', other, ?_⟩)
    rw [sight'.unique sight, present]
    exact above
  refine ⟨p, present, notAlone, sight, stays sight, fun extra alone only q isParent outOfSight => ?_⟩
  have settled := books.settled q (isOfTypeAt_of_concat other isParent) fun sight' =>
    outOfSight (stays sight')
  refine settled.append (alone q) fun i found => outOfSight ?_
  rw [only q i found]
  exact stays sight

/-- A child of the parent in sight. -/
theorem Books.child (books : Books parentType childType done l out origins)
    (isChild : row.rowType.same childType = true) :
    ∃ origins', Books parentType childType (done ++ [row]) (.joined parent)
      (out ++ [parent.join row (.flattened parentType childType)]) origins' := by
  obtain ⟨p, present, notAlone, sight, stays, settled⟩ := books.stay other held above
  have earlier := sight.before
  have alone : ∀ q, Origin.alone q ∉ [Origin.joined p done.length] := fun q found =>
    nomatch List.mem_singleton.1 found
  refine ⟨origins ++ [.joined p done.length], ?_, ?_, settled _ alone fun q i found => ?_⟩
  · refine books.traces.concat ?_ ?_ alone fun q i => ?_
    · rw [List.map_singleton, Origin.row?, List.getElem?_append_left earlier, present,
        List.getElem?_concat_length]
      rfl
    · rw [other]
      rfl
    · rw [List.length_append, List.length_singleton] at stays
      rw [List.mem_singleton, Origin.joined.injEq]
      constructor
      · rintro ⟨rfl, rfl⟩
        exact ⟨rfl, earlier, stays, isChild⟩
      · rintro ⟨rfl, _, sight', _⟩
        exact ⟨sight'.unique stays, rfl⟩
  · refine .joined stays ?_ ?_ (List.mem_append_right _ (List.mem_singleton.2 rfl))
    · rw [List.getElem?_append_left earlier, present]
    · rw [List.mem_append]
      exact fun found => found.elim notAlone (alone p)
  · exact (Origin.joined.inj (List.mem_singleton.1 found)).1

/-- A row further below the parent in sight passes. -/
theorem Books.below (books : Books parentType childType done l out origins)
    (notChild : row.rowType.same childType = false) :
    ∃ origins', Books parentType childType (done ++ [row]) l (out ++ [row]) origins' := by
  obtain ⟨p, present, notAlone, sight, stays, settled⟩ := books.stay other held above
  have alone : ∀ q, Origin.alone q ∉ [Origin.passed done.length] := fun q found =>
    nomatch List.mem_singleton.1 found
  have joined : ∀ q i, Origin.joined q i ∉ [Origin.passed done.length] := fun q i found =>
    nomatch List.mem_singleton.1 found
  refine ⟨origins ++ [.passed done.length], ?_, ?_,
    settled _ alone fun q i found => absurd found (joined q i)⟩
  · refine books.traces.concat ?_ ?_ alone fun q i => ⟨fun found => absurd found (joined q i), ?_⟩
    · rw [List.map_singleton, Origin.row?, List.getElem?_concat_length, List.map_singleton]
    · rw [other]
      rfl
    · rintro ⟨_, _, _, isChild⟩
      rw [notChild] at isChild
      cases isChild
  · have present' : (done ++ [row])[p]? = some parent := by
      rw [List.getElem?_append_left sight.before, present]
    have notAlone' : Origin.alone p ∉ origins ++ [.passed done.length] := by
      rw [List.mem_append]
      exact fun found => found.elim notAlone (alone p)
    cases books.sees with
    | nothing _ => cases held
    | @waiting q _ sight' present'' _ notJoined =>
      cases held
      refine .waiting stays present' notAlone' fun i found => ?_
      rw [sight.unique sight'] at found
      exact (List.mem_append.1 found).elim (notJoined i) (joined q i)
    | @joined q i _ sight' _ _ isJoined =>
      cases held
      rw [← sight.unique sight'] at isJoined
      exact .joined stays present' notAlone' (List.mem_append_left _ isJoined)

end Below

/-- One row and what it lets out. -/
theorem Books.absorb {l : Lookback} (books : Books parentType childType done l out origins)
    (row : Row) :
    ∃ origins', Books parentType childType (done ++ [row]) (l.absorb parentType childType row).1
      (out ++ (l.absorb parentType childType row).2) origins' := by
  rcases l.absorb_cases parentType childType row with ⟨isParent, step⟩ | ⟨other, apart, step⟩ |
    ⟨p, other, held, above, isChild, step⟩ | ⟨other, ⟨p, held, above⟩, notChild, step⟩
  · rw [step]
    obtain ⟨origins', accounts⟩ := books.accounts
    exact ⟨origins', accounts.parent isParent⟩
  · rw [step, ← List.append_assoc]
    obtain ⟨origins', accounts⟩ := books.accounts
    refine ⟨_, accounts.outside other fun p sight => ?_⟩
    rcases inSight_concat.1 sight with ⟨_, isParent⟩ | ⟨sight, _, above⟩
    · rw [other] at isParent
      cases isParent
    · obtain ⟨parent, present, above⟩ := (Option.any_eq_true _ _).1 above
      rw [apart parent (books.sees.mem_parents sight present)] at above
      cases above
  · rw [step]
    exact books.child other held above isChild
  · rw [step]
    exact books.below other held above notChild

/-- All that goes out for the rows that are still to come, and for the end. -/
theorem Books.flow {l : Lookback} (books : Books parentType childType done l out origins)
    (rest : List Row) :
    ∃ origins', Accounts parentType childType (done ++ rest)
      (out ++ flow parentType childType l rest) origins' := by
  induction rest generalizing done l out origins with
  | nil =>
    rw [List.append_nil]
    exact books.accounts
  | cons row rest ih =>
    obtain ⟨origins', books'⟩ := books.absorb row
    have whole := ih books'
    rwa [List.append_assoc, List.append_assoc] at whole

end Step

theorem books_nil (parentType childType : RowType) :
    Books parentType childType [] .noParent [] [] where
  traces :=
    { shown := rfl
      order := rfl
      alone := fun _ found => absurd found List.not_mem_nil
      joins := fun _ i => ⟨fun found => absurd found List.not_mem_nil, fun ⟨_, _, isChild⟩ =>
        absurd (lt_of_isOfTypeAt isChild) (Nat.not_lt_zero i)⟩ }
  sees := .nothing fun _ sight => Nat.not_lt_zero _ sight.before
  settled p isParent _ := absurd (lt_of_isOfTypeAt isParent) (Nat.not_lt_zero p)

/-- A join lets every row out once, alone or joined, whatever its input delivers. -/
theorem delivers_accounted {σ : Type} {m : Machine σ} {store : Store} {bindings : Bindings}
    {rows : List Row} (input : Delivers m store bindings rows) (parentType childType : RowType) :
    ∃ out origins, Delivers (machine parentType childType m) store bindings out ∧
      Accounts parentType childType rows out origins := by
  obtain ⟨origins, accounts⟩ := (books_nil parentType childType).flow rows
  exact ⟨_, origins, delivers input, accounts⟩

/-- A stream in no order: the order comes before its customer and again after it, the customer comes
twice, and one order has no key. -/
def looseStream : List Row :=
  [⟨shopOrder.rowType, [.int 5, .int 1], some (.ofSegments [(⟨1⟩, .int 1), (⟨2⟩, .int 5)])⟩,
    ⟨shopCustomer.rowType, [.int 1, .text "a"], some (.ofSegments [(⟨1⟩, .int 1)])⟩,
    ⟨shopOrder.rowType, [.int 5, .int 1], some (.ofSegments [(⟨1⟩, .int 1), (⟨2⟩, .int 5)])⟩,
    ⟨shopCustomer.rowType, [.int 1, .text "a"], some (.ofSegments [(⟨1⟩, .int 1)])⟩,
    ⟨shopOrder.rowType, [.int 6, .null], none⟩]

theorem delivers_accounted_shop : ∃ out origins,
    Delivers (machine shopCustomer.rowType shopOrder.rowType
        (Feed.machine (looseStream.map Except.ok)))
      (Store.create shop (.create .standard)) .empty out ∧
    Accounts shopCustomer.rowType shopOrder.rowType looseStream out origins :=
  delivers_accounted (Feed.delivers looseStream _ _) _ _

end Interleave.Pipeline.Flatten
