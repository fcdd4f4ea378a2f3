import Interleave.Proofs.Key.Preorder
import Interleave.Proofs.Pipeline.Rearrangement

/-!
Dropping over a whole stream. Over rows in key order the rows below a dropped row come in one block
after it, so one key in memory is enough. Main statement: a selection answers with the rows that
neither fail nor lie below one that fails, and with the error of each row that the predicate cannot
tell; rows below a failing one are never put to it.
-/

namespace Interleave.Pipeline.Select

open Flatten (shopStream)

section Subtrees

variable (target : RowType) (predicate : Predicate) (rows : List Row)

/-- Whether a row is of the target type and fails the predicate. -/
def rejects (row : Row) : Bool :=
  row.rowType.same target && match predicate.evaluate row with
    | .ok verdict => !verdict
    | .error _ => false

/-- Whether a row of a stream lies below one that fails. -/
def isShadowed (row : Row) : Bool := rows.any fun d => rejects target predicate d && d.isAbove row

/-- Whether a row of a stream fails or lies below one that does. -/
def isDropped (row : Row) : Bool :=
  rejects target predicate row || isShadowed target predicate rows row

/-- What is said about a row of a stream: nothing if it is dropped, the error if the predicate has one,
and otherwise the row. -/
def answer? (row : Row) : Option (Except QueryError Row) :=
  if isShadowed target predicate rows row then none
  else if row.rowType.same target then
    match predicate.evaluate row with
    | .error e => some (.error e)
    | .ok true => some (.ok row)
    | .ok false => none
  else some (.ok row)

/-- What is said about a whole stream. -/
def answers : List (Except QueryError Row) := rows.filterMap (answer? target predicate rows)

/-- Whether another predicate says the same about the rows of the target type that lie below no row
that fails. -/
def AgreesInLight (asked : Predicate) : Prop :=
  ∀ row ∈ rows, row.rowType.same target = true → isShadowed target predicate rows row = false →
    asked.evaluate row = predicate.evaluate row

/-- What a selection answers row by row, with the key dropped last. -/
def sift (dropped : Option RowKey) : List Row → List (Except QueryError Row)
  | [] => []
  | row :: rest =>
    match judge target predicate dropped row with
    | (.error e, dropped) => .error e :: sift dropped rest
    | (.ok true, dropped) => .ok row :: sift dropped rest
    | (.ok false, dropped) => sift dropped rest

end Subtrees

/-- Whether a row comes before another in key order. -/
def Before (a b : Row) : Prop := ∃ k k', a.key = some k ∧ b.key = some k' ∧ k.bytes < k'.bytes

section Order

variable {a b c : Row}

theorem isAbove_iff_keys : a.isAbove b = true ↔
    ∃ k k', a.key = some k ∧ b.key = some k' ∧ k.isAbove k' = true := by
  rw [Row.isAbove]
  cases a.key <;> cases b.key <;> simp

theorem isAbove_trans (first : a.isAbove b = true) (second : b.isAbove c = true) :
    a.isAbove c = true := by
  obtain ⟨x, y, atA, atB, above⟩ := isAbove_iff_keys.1 first
  obtain ⟨y', z, atB', atC, above'⟩ := isAbove_iff_keys.1 second
  cases Option.some.inj (atB.symm.trans atB')
  exact isAbove_iff_keys.2 ⟨x, z, atA, atC, RowKey.isAbove_trans above above'⟩

theorem Before.not_isAbove (before : Before a b) : b.isAbove a = false := by
  rw [← Bool.not_eq_true]
  intro above
  obtain ⟨k, k', atA, atB, less⟩ := before
  obtain ⟨x, y, atB', atA', above⟩ := isAbove_iff_keys.1 above
  cases Option.some.inj (atA.symm.trans atA')
  cases Option.some.inj (atB.symm.trans atB')
  exact List.lt_asymm less (RowKey.lt_of_isAbove above)

theorem Before.isAbove_between (before : Before a b) (before' : Before b c)
    (above : a.isAbove c = true) : a.isAbove b = true := by
  obtain ⟨k, k', atA, atB, less⟩ := before
  obtain ⟨l, l', atB', atC, less'⟩ := before'
  obtain ⟨x, y, atA', atC', above⟩ := isAbove_iff_keys.1 above
  cases Option.some.inj (atA.symm.trans atA')
  cases Option.some.inj (atB.symm.trans atB')
  cases Option.some.inj (atC.symm.trans atC')
  exact isAbove_iff_keys.2 ⟨k, k', atA, atB, DepthFirst.isAbove_of_between less less' above⟩

theorem pairwise_before {rows : List Row} (ordered : InKeyOrder rows) : rows.Pairwise Before := by
  obtain ⟨keys, same, increasing⟩ := ordered
  have sorted : (rows.map Row.key).Pairwise
      fun x y => ∃ k k', x = some k ∧ y = some k' ∧ k.bytes < k'.bytes := by
    rw [same, List.pairwise_map]
    exact increasing.imp fun less => ⟨_, _, rfl, rfl, Bytes.order_eq_lt_iff.1 less⟩
  rwa [List.pairwise_map] at sorted

end Order

section Stream

variable {target : RowType} {predicate asked : Predicate} {rows done rest : List Row}
  {row r : Row} {dropped : Option RowKey}

theorem isDropped_eq (row : Row) :
    isDropped target predicate rows row = (answer? target predicate rows row).isNone := by
  rw [isDropped, rejects, answer?]
  cases isShadowed target predicate rows row
  · cases row.rowType.same target
    · rfl
    · rcases predicate.evaluate row with _ | _ | _ <;> rfl
  · rw [Bool.or_true]
    rfl

theorem length_answers :
    (answers target predicate rows).length + rows.countP (isDropped target predicate rows) =
      rows.length := by
  have kept : (answers target predicate rows).length =
      rows.countP fun row => (answer? target predicate rows row).isSome :=
    List.length_filterMap_eq_countP
  have split := List.length_eq_countP_add_countP (isDropped target predicate rows) (l := rows)
  have opposite : rows.countP (fun row => (answer? target predicate rows row).isSome) =
      rows.countP fun row => ¬ isDropped target predicate rows row = true := by
    refine List.countP_congr fun row _ => ?_
    rw [isDropped_eq]
    cases answer? target predicate rows row <;> simp
  omega

theorem isShadowed_iff : isShadowed target predicate rows row = true ↔
    ∃ d ∈ rows, rejects target predicate d = true ∧ d.isAbove row = true := by
  simp only [isShadowed, List.any_eq_true, Bool.and_eq_true]

theorem isShadowed_concat : isShadowed target predicate (done ++ [row]) r =
    (isShadowed target predicate done r || (rejects target predicate row && row.isAbove r)) := by
  simp [isShadowed]

/-- Only rows that came before matter. -/
theorem isShadowed_head (ordered : (done ++ row :: rest).Pairwise Before) :
    isShadowed target predicate (done ++ row :: rest) row = isShadowed target predicate done row := by
  have none : isShadowed target predicate (row :: rest) row = false := by
    rw [← Bool.not_eq_true, isShadowed_iff]
    rintro ⟨d, member, _, above⟩
    rcases List.mem_cons.1 member with rfl | later
    · obtain ⟨k, k', atD, atD', above⟩ := isAbove_iff_keys.1 above
      cases Option.some.inj (atD.symm.trans atD')
      rw [RowKey.isAbove_irrefl] at above
      cases above
    · have before := (List.pairwise_cons.1 (List.pairwise_append.1 ordered).2.1).1 d later
      rw [before.not_isAbove] at above
      cases above
  rw [isShadowed] at none ⊢
  rw [List.any_append, none, Bool.or_false, isShadowed]

/-- Behind a row in the light nothing is in the shadow of the rows before it. -/
theorem isShadowed_later (ordered : (done ++ row :: rest).Pairwise Before)
    (light : isShadowed target predicate done row = false) (later : r ∈ rest) :
    isShadowed target predicate done r = false := by
  rw [← Bool.not_eq_true] at light ⊢
  intro shadowed
  obtain ⟨d, earlier, fails, above⟩ := isShadowed_iff.1 shadowed
  have sorted := List.pairwise_append.1 ordered
  have before := sorted.2.2 d earlier row List.mem_cons_self
  have before' := (List.pairwise_cons.1 sorted.2.1).1 r later
  exact light (isShadowed_iff.2 ⟨d, earlier, fails, before.isAbove_between before' above⟩)

/-- Behind a row in the shadow the row itself does not matter. -/
theorem isShadowed_concat_of_shadowed (shadowed : isShadowed target predicate done row = true) :
    isShadowed target predicate (done ++ [row]) r = isShadowed target predicate done r := by
  obtain ⟨d, earlier, fails, above⟩ := isShadowed_iff.1 shadowed
  rw [isShadowed_concat, Bool.or_eq_left_iff_imp, Bool.and_eq_true]
  rintro ⟨_, above'⟩
  exact isShadowed_iff.2 ⟨d, earlier, fails, isAbove_trans above above'⟩

theorem any_key (d r : Row) :
    (d.key.any fun top => r.key.any fun key => top.isAbove key) = d.isAbove r := by
  rw [Row.isAbove]
  cases d.key <;> cases r.key <;> rfl

/-- The key in memory is above a row just if a row that failed before is. -/
theorem sift_eq (ordered : rows.Pairwise Before) (agrees : AgreesInLight target predicate rows asked)
    (split : rows = done ++ rest)
    (tracks : ∀ r ∈ rest, (dropped.any fun top => r.key.any fun key => top.isAbove key) =
      isShadowed target predicate done r) :
    sift target asked dropped rest = rest.filterMap (answer? target predicate rows) := by
  induction rest generalizing done dropped with
  | nil => rfl
  | cons row rest ih =>
    have here : isShadowed target predicate rows row = isShadowed target predicate done row := by
      rw [split] at ordered ⊢
      exact isShadowed_head ordered
    have split' : rows = (done ++ [row]) ++ rest := by
      rw [split, List.append_assoc, List.singleton_append]
    have remembered := tracks row List.mem_cons_self
    rw [sift, judge, remembered, List.filterMap_cons]
    cases shadow : isShadowed target predicate done row with
    | true =>
      have silent : answer? target predicate rows row = none := by
        rw [answer?, here, shadow]
        rfl
      rw [silent]
      refine ih split' fun r later => ?_
      rw [tracks r (List.mem_cons_of_mem _ later), isShadowed_concat_of_shadowed shadow]
    | false =>
      have light (r : Row) (later : r ∈ rest) : isShadowed target predicate (done ++ [row]) r =
          (rejects target predicate row && row.isAbove r) := by
        rw [split] at ordered
        rw [isShadowed_concat, isShadowed_later ordered shadow later, Bool.false_or]
      have forgets (passes : rejects target predicate row = false) : sift target asked none rest =
          rest.filterMap (answer? target predicate rows) := by
        refine ih split' fun r later => ?_
        rw [light r later, passes]
        rfl
      cases type : row.rowType.same target with
      | false =>
        have passes : rejects target predicate row = false := by
          rw [rejects, type]
          rfl
        have shown : answer? target predicate rows row = some (.ok row) := by
          rw [answer?, here, shadow, type]
          rfl
        rw [shown]
        exact congrArg _ (forgets passes)
      | true =>
        have same := agrees row (by rw [split]; simp) type (here.trans shadow)
        have said : answer? target predicate rows row = match predicate.evaluate row with
            | .error e => some (.error e)
            | .ok true => some (.ok row)
            | .ok false => none := by
          rw [answer?, here, shadow, type]
          rfl
        have fails : rejects target predicate row = match predicate.evaluate row with
            | .ok verdict => !verdict
            | .error _ => false := by
          rw [rejects, type]
          rfl
        rw [said, same]
        cases verdict : predicate.evaluate row with
        | error e =>
          rw [verdict] at fails
          exact congrArg _ (forgets fails)
        | ok verdict' =>
          rw [verdict] at fails
          cases verdict' with
          | true => exact congrArg _ (forgets fails)
          | false =>
            refine ih split' fun r later => ?_
            rw [light r later, fails]
            exact any_key row r

/-- Where nothing that is put to the predicate is an error, the rows that are not dropped go out. -/
theorem answers_of_ok (ok : ∀ row ∈ rows, row.rowType.same target = true →
      isShadowed target predicate rows row = false → ∃ verdict, predicate.evaluate row = .ok verdict) :
    answers target predicate rows =
      (rows.filter fun row => !isDropped target predicate rows row).map .ok := by
  rw [answers, ← List.filterMap_eq_map, List.filterMap_filter]
  refine List.filterMap_congr fun row member => ?_
  rw [isDropped, rejects, answer?]
  cases shadow : isShadowed target predicate rows row with
  | true =>
    rw [Bool.or_true]
    rfl
  | false =>
    cases type : row.rowType.same target with
    | false => rfl
    | true =>
      obtain ⟨verdict, evaluated⟩ := ok row member type shadow
      rw [evaluated]
      cases verdict <;> rfl

/-- Over rows none of which lies below an earlier one nothing is dropped but what fails. -/
theorem sift_of_apart (apart : rows.Pairwise fun a b => a.isAbove b = false)
    (ok : ∀ row ∈ rows, row.rowType.same target = true → ∃ verdict, predicate.evaluate row = .ok verdict)
    (light : ∀ row ∈ rows,
      (dropped.any fun top => row.key.any fun key => top.isAbove key) = false) :
    sift target predicate dropped rows =
      (rows.filter fun row => !rejects target predicate row).map .ok := by
  induction rows generalizing dropped with
  | nil => rfl
  | cons row rest ih =>
    obtain ⟨first, apart'⟩ := List.pairwise_cons.1 apart
    have forgets := @ih none apart' (fun r later => ok r (List.mem_cons_of_mem _ later)) fun _ _ => rfl
    have remembers := @ih row.key apart' (fun r later => ok r (List.mem_cons_of_mem _ later))
      fun r later => (any_key row r).trans (first r later)
    rw [sift, judge, light row List.mem_cons_self, List.filter_cons, rejects]
    cases type : row.rowType.same target with
    | false => exact congrArg _ forgets
    | true =>
      obtain ⟨verdict, evaluated⟩ := ok row List.mem_cons_self type
      rw [evaluated]
      cases verdict with
      | true => exact congrArg _ forgets
      | false => exact remembers

/-- A row that the predicate cannot tell does not matter for the others. -/
theorem answers_of_error {before after : List Row} {e : QueryError}
    (split : rows = before ++ row :: after) (type : row.rowType.same target = true)
    (light : isShadowed target predicate rows row = false)
    (fault : predicate.evaluate row = .error e) :
    answers target predicate rows =
      before.filterMap (answer? target predicate (before ++ after)) ++
        .error e :: after.filterMap (answer? target predicate (before ++ after)) := by
  have passes : rejects target predicate row = false := by
    rw [rejects, type, fault]
    rfl
  have same : isShadowed target predicate rows = isShadowed target predicate (before ++ after) := by
    funext r
    rw [split, isShadowed, isShadowed, List.any_append, List.any_append, List.any_cons, passes]
    rfl
  have same' : answer? target predicate rows = answer? target predicate (before ++ after) := by
    funext r
    rw [answer?, answer?, same]
  have said : answer? target predicate rows row = some (.error e) := by
    rw [answer?, light, type, fault]
    rfl
  rw [same'] at said
  rw [answers, same', split, List.filterMap_append, List.filterMap_cons_some said]

end Stream

section Run

variable {σ : Type} {m : Machine σ} {store : Store} {target : RowType} {predicate asked : Predicate}

/-- Whether a machine answers in a certain way, call after call, and then comes to its end. -/
inductive Exhausts (m : Machine σ) (store : Store) :
    σ → List (Except QueryError Row) → σ → Prop where
  | done {s s' : σ} (ended : m.advance store s = (.ok none, s')) : Exhausts m store s [] s'
  | more {s s' s'' : σ} {answer : Except QueryError Row} {answers : List (Except QueryError Row)}
      (next : m.advance store s = (answer.map some, s')) (others : Exhausts m store s' answers s'') :
      Exhausts m store s (answer :: answers) s''

/-- A running selection that has certain rows to read. -/
structure Reading (m : Machine σ) (store : Store) (s : State σ) (rows : List Row) : Prop where
  running : s.progress.phase = .running
  input : Produces m store s.input rows

/-- The loop of a selection lasts to the next answer. -/
theorem pull_sifts {s : State σ} {rows : List Row} (reading : Reading m store s rows) {fuel : Nat}
    (enough : rows.length + 1 ≤ fuel) :
    (∃ last, pull target asked m store fuel s = (.ok none, last) ∧
      sift target asked s.dropped rows = [] ∧ last.filtered = s.filtered + rows.length) ∨
    (∃ answer s' rest, pull target asked m store fuel s = (answer.map some, s') ∧
      Reading m store s' rest ∧
      sift target asked s.dropped rows = answer :: sift target asked s'.dropped rest ∧
      s'.filtered + rest.length + 1 = s.filtered + rows.length) := by
  induction rows generalizing s fuel with
  | nil =>
    obtain ⟨fuel, rfl⟩ : ∃ k, fuel = k + 1 := ⟨fuel - 1, by omega⟩
    cases reading.input with
    | done ended =>
      rw [pull]
      simp only [ended]
      exact .inl ⟨_, rfl, rfl, rfl⟩
  | cons row rows ih =>
    rw [List.length_cons] at enough
    obtain ⟨fuel, rfl⟩ : ∃ k, fuel = k + 1 := ⟨fuel - 1, by omega⟩
    cases reading.input with
    | @more _ below _ _ next _ others =>
      rw [pull, sift]
      simp only [next]
      rcases judge target asked s.dropped row with ⟨e | _ | _, dropped⟩
      · exact .inr ⟨.error e, _, rows, rfl, ⟨reading.running, others⟩, rfl, by
          rw [List.length_cons, Nat.add_assoc]⟩
      · have dropped' : Reading m store
            { s with input := below, dropped := dropped, filtered := s.filtered + 1 } rows :=
          ⟨reading.running, others⟩
        rcases ih dropped' (Nat.le_of_succ_le_succ enough) with
          ⟨last, ended, none, count⟩ | ⟨answer, s', rest, next', reading', left, count⟩
        · refine .inl ⟨last, ended, none, ?_⟩
          rw [count, List.length_cons]
          simp only
          omega
        · refine .inr ⟨answer, s', rest, next', reading', left, ?_⟩
          rw [count, List.length_cons]
          simp only
          omega
      · exact .inr ⟨.ok row, _, rows, rfl, ⟨reading.running, others⟩, rfl, by
          rw [List.length_cons, Nat.add_assoc]⟩

theorem Reading.advance {s : State σ} {rows : List Row} (reading : Reading m store s rows) :
    (∃ last, (machine target asked m).advance store s = (.ok none, last) ∧
      sift target asked s.dropped rows = [] ∧ last.filtered = s.filtered + rows.length) ∨
    (∃ answer s' rest, (machine target asked m).advance store s = (answer.map some, s') ∧
      Reading m store s' rest ∧
      sift target asked s.dropped rows = answer :: sift target asked s'.dropped rest ∧
      s'.filtered + rest.length + 1 = s.filtered + rows.length) := by
  have begun : Reading m store { s with progress := { s.progress with current := none } } rows :=
    ⟨reading.running, reading.input⟩
  have enough := Nat.succ_le_succ reading.input.length_le
  simp only [machine, Select.advance, Progress.begin_running reading.running]
  exact pull_sifts begun enough

/-- A running selection answers row by row and counts all other rows. -/
theorem Reading.exhausts {s : State σ} {rows : List Row} (reading : Reading m store s rows) :
    ∃ last, Exhausts (machine target asked m) store s (sift target asked s.dropped rows) last ∧
      last.filtered + (sift target asked s.dropped rows).length = s.filtered + rows.length := by
  generalize said : sift target asked s.dropped rows = answers
  induction answers generalizing s rows with
  | nil =>
    rcases @Reading.advance σ m store target asked s rows reading with
      ⟨last, ended, _, count⟩ | ⟨answer, s', rest, _, _, left, _⟩
    · exact ⟨last, .done ended, count⟩
    · rw [said] at left
      cases left
  | cons answer answers ih =>
    rcases @Reading.advance σ m store target asked s rows reading with
      ⟨last, _, none, _⟩ | ⟨answer', s', rest, next, reading', left, count⟩
    · rw [said] at none
      cases none
    · rw [said, List.cons.injEq] at left
      obtain ⟨last, exhausts, total⟩ := ih reading' left.2.symm
      refine ⟨last, .more (left.1 ▸ next) exhausts, ?_⟩
      rw [List.length_cons]
      omega

theorem length_sift_le (dropped : Option RowKey) (rows : List Row) :
    (sift target asked dropped rows).length ≤ rows.length := by
  induction rows generalizing dropped with
  | nil => exact Nat.le_refl _
  | cons row rest ih =>
    rw [sift, List.length_cons]
    rcases judge target asked dropped row with ⟨_ | _ | _, dropped'⟩
    · exact Nat.succ_le_succ (ih dropped')
    · exact Nat.le_succ_of_le (ih dropped')
    · exact Nat.succ_le_succ (ih dropped')

theorem Reading.length_le {s : State σ} {rows out : List Row} (reading : Reading m store s rows)
    (said : sift target asked s.dropped rows = out.map .ok) :
    out.length ≤ (machine target asked m).ahead store s := by
  have fewer := @length_sift_le target asked s.dropped rows
  rw [said, List.length_map] at fewer
  exact Nat.le_trans fewer reading.input.length_le

/-- A running selection that has no error to answer lets out its answers. -/
theorem Reading.produces {s : State σ} {rows out : List Row} (reading : Reading m store s rows)
    (said : sift target asked s.dropped rows = out.map .ok) :
    Produces (machine target asked m) store s out := by
  have enough := reading.length_le said
  induction out generalizing s rows with
  | nil =>
    rcases @Reading.advance σ m store target asked s rows reading with
      ⟨last, ended, _⟩ | ⟨answer, s', rest, _, _, left, _⟩
    · exact .done ended
    · rw [said] at left
      cases left
  | cons row out ih =>
    rcases @Reading.advance σ m store target asked s rows reading with
      ⟨last, _, none, _⟩ | ⟨answer, s', rest, next, reading', left, _⟩
    · rw [said] at none
      cases none
    · rw [said, List.map_cons, List.cons.injEq] at left
      obtain ⟨rfl, others⟩ := left
      exact .more next enough (ih reading' others.symm (reading'.length_le others.symm))

/-- A selection of a machine's rows that has no error to answer. -/
theorem delivers {bindings : Bindings} {rows out : List Row} (input : Delivers m store bindings rows)
    (said : sift target predicate none rows = out.map .ok) :
    Delivers (machine target predicate m) store bindings out := by
  obtain ⟨_, below, launched, produces⟩ := input
  have opened : (machine target predicate m).launch store bindings (machine target predicate m).fresh =
      (.ok (), ⟨Progress.fresh.start, below, none, 0⟩) :=
    launch_ok (s := (machine target predicate m).fresh) rfl launched
  have reading : Reading m store ⟨Progress.fresh.start, below, none, 0⟩ rows := ⟨rfl, produces⟩
  exact ⟨rfl, _, opened, reading.produces said⟩

/-- A selection, opened after any earlier runs over an input whose rows are in key order, drops the
rows that fail and all rows below them, counts these, and puts none of the latter to the predicate. A
row that the predicate cannot tell is answered with the error and does not matter for the others. -/
theorem launch_prunes {bindings : Bindings} {s : State σ} {below : σ} {rows : List Row}
    (closed : s.progress.phase = .closed) (launched : m.launch store bindings s.input = (.ok (), below))
    (produces : Produces m store below rows) (ordered : InKeyOrder rows) :
    (∃ opened, (machine target predicate m).launch store bindings s = (.ok (), opened) ∧
      ∀ asked, AgreesInLight target predicate rows asked →
        ∃ last, Exhausts (machine target asked m) store opened (answers target predicate rows) last ∧
          last.filtered = s.filtered + rows.countP (isDropped target predicate rows)) ∧
    ((∀ row ∈ rows, row.rowType.same target = true → isShadowed target predicate rows row = false →
        ∃ verdict, predicate.evaluate row = .ok verdict) →
      answers target predicate rows =
        (rows.filter fun row => !isDropped target predicate rows row).map .ok) ∧
    ∀ before row after e, rows = before ++ row :: after → row.rowType.same target = true →
      isShadowed target predicate rows row = false → predicate.evaluate row = .error e →
      answers target predicate rows =
        before.filterMap (answer? target predicate (before ++ after)) ++
          .error e :: after.filterMap (answer? target predicate (before ++ after)) := by
  refine ⟨?_, answers_of_ok, fun before row after e => answers_of_error⟩
  have opened : (machine target predicate m).launch store bindings s =
      (.ok (), { s with progress := s.progress.start, input := below, dropped := none }) :=
    launch_ok (congrArg Phase.isOpen closed) launched
  have reading : Reading m store
      { s with progress := s.progress.start, input := below, dropped := none } rows :=
    ⟨rfl, produces⟩
  refine ⟨_, opened, fun asked agrees => ?_⟩
  have said : sift target asked none rows = answers target predicate rows :=
    sift_eq (pairwise_before ordered) agrees (List.nil_append rows).symm fun _ _ => rfl
  obtain ⟨last, exhausts, total⟩ :=
    @Reading.exhausts σ m store target asked _ rows reading
  rw [said] at exhausts total
  have counted : last.filtered + (answers target predicate rows).length = s.filtered + rows.length :=
    total
  have dropped : (answers target predicate rows).length +
      rows.countP (isDropped target predicate rows) = rows.length := length_answers
  exact ⟨last, exhausts, by omega⟩

end Run

/-- Fails the first customer and cannot tell about the second. -/
def shopPredicate : Predicate := .test fun row =>
  match row.values with
  | .int 1 :: _ => .ok false
  | .int 2 :: _ => .error (.adapter "no answer")
  | _ => .ok true

/-- The first customer goes with the order; the second is skipped and the item below it stays. -/
theorem launch_prunes_shop : InKeyOrder shopStream ∧
    (∃ below opened last,
      Produces (Feed.machine (shopStream.map Except.ok)) (Store.create shop (.create .standard)) below
        shopStream ∧
      (machine shopCustomer.rowType shopPredicate (Feed.machine (shopStream.map Except.ok))).launch
        (Store.create shop (.create .standard)) .empty
        (machine shopCustomer.rowType shopPredicate (Feed.machine (shopStream.map Except.ok))).fresh =
          (.ok (), opened) ∧
      Exhausts (machine shopCustomer.rowType shopPredicate (Feed.machine (shopStream.map Except.ok)))
        (Store.create shop (.create .standard)) opened
        (answers shopCustomer.rowType shopPredicate shopStream) last ∧
      last.filtered = 2) ∧
    (answers shopCustomer.rowType shopPredicate shopStream).map (fun a => a.toOption.map Row.values) =
      [none, some [.int 7, .int 6], some [.int 8, .null]] := by
  have ordered : InKeyOrder shopStream := ⟨[_, _, _, _, _], rfl, by decide +kernel⟩
  obtain ⟨closed, below, launched, produces⟩ :=
    Feed.delivers shopStream (Store.create shop (.create .standard)) .empty
  obtain ⟨opened, launched', runs⟩ := (@launch_prunes _ _ _ shopCustomer.rowType shopPredicate _
    ⟨.fresh, (Feed.machine _).fresh, none, 0⟩ _ _ rfl launched produces ordered).1
  obtain ⟨last, exhausts, count⟩ := runs shopPredicate fun _ _ _ _ => rfl
  have two : (shopStream.countP (isDropped shopCustomer.rowType shopPredicate shopStream)) = 2 := by
    decide +kernel
  exact ⟨ordered, ⟨below, opened, last, produces, launched', exhausts, by rw [count, two]⟩,
    by decide +kernel⟩

end Interleave.Pipeline.Select
