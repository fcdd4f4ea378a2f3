import Mathlib.Data.List.Nodup
import Mathlib.Data.List.Sort
import Interleave.Proofs.Catalog.Forest
import Interleave.Proofs.Pipeline.Production

/-!
Joining as a transformation of a whole stream. Over rows in key order, with no parent below another, a
join leaves every row where it is, with the parent before it if it is a child of one; a parent without
children moves behind the last row below it, and one with children is gone. Main statement: a join
delivers the stream transformed in this way.
-/

namespace Interleave

open Pipeline

/-- Whether rows have keys, each larger than the one before. -/
def InKeyOrder (rows : List Row) : Prop :=
  ∃ keys : List RowKey, rows.map Row.key = keys.map some ∧ keys.Pairwise fun a b => a.order b = .lt

namespace Pipeline.Flatten

section Transformation

variable (parentType childType : RowType) (rows : List Row)

/-- The parent above a row. -/
def parentOf? (r : Row) : Option Row :=
  rows.find? fun p => p.rowType.same parentType && p.isAbove r

/-- Whether no child is below a row. -/
def isChildless (p : Row) : Bool := rows.all fun r => !(r.rowType.same childType && p.isAbove r)

/-- The last of a row and the rows below it. -/
def lastBelow (p : Row) : Row := (rows.filter p.isAbove).getLastD p

/-- What stands where a row stood: a child with its parent, no parent, and any other row as it was. -/
def inPlace (r : Row) : List Row :=
  if r.rowType.same parentType then []
  else if r.rowType.same childType then
    match parentOf? parentType rows r with
    | some p => [p.join r (.flattened parentType childType)]
    | none => [r]
  else [r]

/-- The parents without children that come to stand behind a row. -/
def behind (r : Row) : List Row :=
  rows.filter fun p => p.rowType.same parentType && isChildless childType rows p &&
    decide ((lastBelow rows p).key = r.key)

/-- The whole stream with children joined and childless parents moved. -/
def rearranged : List Row :=
  rows.flatMap fun r => inPlace parentType childType rows r ++ behind parentType childType rows r

end Transformation

section Nested

variable {parentType childType : RowType} {rows : List Row}

/-- A stream in key order whose parents are not below each other. -/
theorem nests_of_inKeyOrder (ordered : InKeyOrder rows)
    (flat : ∀ p ∈ rows, ∀ q ∈ rows, p.rowType.same parentType = true →
      q.rowType.same parentType = true → p.isAbove q = false) :
    Nests [] parentType rows := by
  obtain ⟨keys, same, increasing⟩ := ordered
  have keyed : ∀ row ∈ rows, row.key.isSome := by
    intro row member
    have found : row.key ∈ keys.map some := same ▸ List.mem_map_of_mem member
    obtain ⟨k, _, key⟩ := List.mem_map.1 found
    rw [← key]
    rfl
  have spots : rows.map Row.spot = keys.map fun k => k.bytes.map UInt8.toNat := by
    have mapped := congrArg (List.map fun key : Option RowKey =>
      (key.elim [] RowKey.bytes).map UInt8.toNat) same
    rwa [List.map_map, List.map_map] at mapped
  have sorted : (rows.map Row.spot).Pairwise (· < ·) := by
    rw [spots, List.pairwise_map]
    exact increasing.imp fun less => (Row.map_toNat_lt_iff _ _).2 (Bytes.order_eq_lt_iff.1 less)
  rw [List.pairwise_map] at sorted
  refine ⟨sorted.imp fun {a b} less => ?_, keyed, fun _ _ _ => rfl, flat, fun _ _ _ _ _ late => ?_⟩
  · rwa [Row.place_of_punctual rfl, Row.place_of_punctual rfl]
  · cases late

variable (nests : Nests [] parentType rows)
include nests

theorem spot_lt : rows.Pairwise fun a b => a.spot < b.spot :=
  nests.sorted.imp fun {a b} less => by
    rwa [Row.place_of_punctual rfl, Row.place_of_punctual rfl] at less

theorem eq_of_spot {a b : Row} (member : a ∈ rows) (member' : b ∈ rows) (same : a.spot = b.spot) :
    a = b := by
  have distinct : (rows.map Row.spot).Nodup :=
    List.pairwise_map.2 ((spot_lt nests).imp fun {a b} less (same : a.spot = b.spot) =>
      List.lt_irrefl b.spot (same ▸ less))
  exact List.inj_on_of_nodup_map distinct member member' same

theorem isAbove_of_prefix {a b : Row} (member : a ∈ rows) (member' : b ∈ rows)
    (inside : a.spot <+: b.spot) (different : a ≠ b) : a.isAbove b = true :=
  (Row.isAbove_iff_spot (nests.keyed a member) (nests.keyed b member')).2
    ⟨inside, fun same => different (eq_of_spot nests member member' same)⟩

theorem prefix_of_isAbove {a b : Row} (member : a ∈ rows) (member' : b ∈ rows)
    (above : a.isAbove b = true) : a.spot <+: b.spot :=
  ((Row.isAbove_iff_spot (nests.keyed a member) (nests.keyed b member')).1 above).1

section Parents

variable {p q r : Row} (parent : p ∈ rows) (isParent : p.rowType.same parentType = true)
include parent isParent

/-- A row is, or is below, one parent at most. -/
theorem parent_unique (parent' : q ∈ rows) (isParent' : q.rowType.same parentType = true)
    (inside : p.spot <+: r.spot) (inside' : q.spot <+: r.spot) : p = q := by
  by_contra different
  rcases List.prefix_or_prefix_of_prefix inside inside' with first | second
  · have above := isAbove_of_prefix nests parent parent' first different
    rw [nests.flat p parent q parent' isParent isParent'] at above
    cases above
  · have above := isAbove_of_prefix nests parent' parent second fun same => different same.symm
    rw [nests.flat q parent' p parent isParent' isParent] at above
    cases above

theorem parentOf?_eq_some (child : r ∈ rows) (above : p.isAbove r = true) :
    parentOf? parentType rows r = some p := by
  cases found : parentOf? parentType rows r with
  | none =>
    have none := List.find?_eq_none.1 found p parent
    simp [isParent, above] at none
  | some q =>
    have both := List.find?_some found
    rw [Bool.and_eq_true] at both
    have parent' := List.mem_of_find?_eq_some found
    rw [parent_unique nests parent isParent parent' both.1
      (prefix_of_isAbove nests parent child above)
      (prefix_of_isAbove nests parent' child both.2)]

omit isParent in
/-- The last row below a row is there, and all others below it come before. -/
theorem lastBelow_spec : lastBelow rows p ∈ rows ∧ p.spot <+: (lastBelow rows p).spot ∧
    ∀ r ∈ rows, p.isAbove r = true → ¬ (lastBelow rows p).spot < r.spot := by
  have inside := fun r => @List.mem_filter _ p.isAbove rows r
  have sorted := (spot_lt nests).filter p.isAbove
  unfold lastBelow
  rcases List.eq_nil_or_concat (rows.filter p.isAbove) with none | ⟨others, last, split⟩
  · rw [none] at inside ⊢
    refine ⟨parent, List.prefix_refl _, fun r member above => ?_⟩
    exact absurd ((inside r).2 ⟨member, above⟩) List.not_mem_nil
  · rw [split] at inside sorted ⊢
    rw [List.concat_eq_append] at inside sorted ⊢
    rw [List.getLastD_eq_getLast?, List.getLast?_concat, Option.getD_some]
    have ⟨here, above⟩ := (inside last).1 (by simp)
    refine ⟨here, prefix_of_isAbove nests parent here above, fun r member above' later => ?_⟩
    rcases List.mem_append.1 ((inside r).2 ⟨member, above'⟩) with earlier | same
    · have before := (List.pairwise_append.1 sorted).2.2 r earlier last (List.mem_singleton.2 rfl)
      exact List.lt_asymm before later
    · rw [List.mem_singleton.1 same] at later
      exact List.lt_irrefl _ later

end Parents

omit nests in
theorem isChildless_iff {p : Row} : isChildless childType rows p = true ↔
    ∀ r ∈ rows, r.rowType.same childType = true → p.isAbove r = false := by
  rw [isChildless, List.all_eq_true]
  refine forall_congr' fun r => forall_congr' fun _ => ?_
  cases r.rowType.same childType <;> simp

omit nests in
/-- A parent leaves nothing in its place, a child below a parent leaves the two joined, and any other
row leaves itself. -/
theorem inPlace_cases (r : Row) :
    (r.rowType.same parentType = true ∧ inPlace parentType childType rows r = []) ∨
    (∃ p ∈ rows, p.rowType.same parentType = true ∧ r.rowType.same childType = true ∧
      p.isAbove r = true ∧
      inPlace parentType childType rows r = [p.join r (.flattened parentType childType)]) ∨
    (r.rowType.same parentType = false ∧
      (r.rowType.same childType = true →
        ∀ p ∈ rows, p.rowType.same parentType = true → p.isAbove r = false) ∧
      inPlace parentType childType rows r = [r]) := by
  unfold inPlace
  split
  · next isParent => exact .inl ⟨isParent, rfl⟩
  · next other =>
    rw [Bool.not_eq_true] at other
    split
    · next isChild =>
      split
      · next p found =>
        have both := List.find?_some found
        rw [Bool.and_eq_true] at both
        exact .inr (.inl ⟨p, List.mem_of_find?_eq_some found, both.1, isChild, both.2, rfl⟩)
      · next missing =>
        refine .inr (.inr ⟨other, fun _ p parent isParent => ?_, rfl⟩)
        have apart := List.find?_eq_none.1 missing p parent
        simpa [isParent] using apart
    · next notChild => exact .inr (.inr ⟨other, fun isChild => absurd isChild notChild, rfl⟩)

/-- A parent stands behind a row if it has no child and the row is the last of those below it. -/
theorem mem_behind_iff {p r : Row} (member : r ∈ rows) : p ∈ behind parentType childType rows r ↔
    p ∈ rows ∧ p.rowType.same parentType = true ∧
      (∀ r' ∈ rows, r'.rowType.same childType = true → p.isAbove r' = false) ∧
      lastBelow rows p = r := by
  rw [behind, List.mem_filter, Bool.and_eq_true, Bool.and_eq_true, isChildless_iff, decide_eq_true_iff,
    and_assoc]
  refine and_congr_right fun parent => and_congr_right fun _ => and_congr_right fun _ => ?_
  have last := (lastBelow_spec nests parent).1
  exact ⟨fun key => eq_of_spot nests last member (by rw [Row.spot, key, Row.spot]), congrArg Row.key⟩

/-- The rearranged stream has the rows that go out of a join. -/
theorem mem_rearranged_iff {out : Row} : out ∈ rearranged parentType childType rows ↔
    Outflow parentType childType .noParent rows out := by
  rw [rearranged, List.mem_flatMap]
  constructor
  · rintro ⟨r, member, inside⟩
    rcases List.mem_append.1 inside with inside | inside
    · rcases inPlace_cases r with
        ⟨_, place⟩ | ⟨p, parent, isParent, isChild, above, place⟩ | ⟨other, loose, place⟩
      · rw [place] at inside
        cases inside
      · rw [place] at inside
        rw [List.mem_singleton.1 inside]
        exact .joined parent isParent member isChild above
      · rw [place] at inside
        rw [List.mem_singleton.1 inside]
        exact .passed member other loose
    · obtain ⟨parent, isParent, childless, _⟩ := (mem_behind_iff nests member).1 inside
      exact .alone parent isParent childless
  · intro flows
    cases flows with
    | @joined p r parent isParent child isChild above =>
      have apart : r.rowType.same parentType = false := by
        rw [← Bool.not_eq_true]
        intro isParent'
        rw [nests.flat p parent r child isParent isParent'] at above
        cases above
      refine ⟨r, child, List.mem_append_left _ ?_⟩
      simp [inPlace, apart, isChild, parentOf?_eq_some nests parent isParent child above]
    | @passed _ member other loose =>
      rw [show Lookback.noParent.parents ++ rows = rows from rfl] at loose
      refine ⟨out, member, List.mem_append_left _ ?_⟩
      rcases inPlace_cases out with
        ⟨isParent, _⟩ | ⟨p, parent, isParent, isChild, above, _⟩ | ⟨_, _, place⟩
      · rw [other] at isParent
        cases isParent
      · rw [loose isChild p parent isParent] at above
        cases above
      · rw [place]
        exact List.mem_singleton.2 rfl
    | alone parent isParent childless =>
      have last := (lastBelow_spec nests parent).1
      exact ⟨_, last, List.mem_append_right _
        ((mem_behind_iff nests last).2 ⟨parent, isParent, childless, rfl⟩)⟩

section Order

variable {r : Row} (member : r ∈ rows)

omit nests in
theorem not_same_flattened (parentType childType : RowType) :
    (RowType.flattened parentType childType).same parentType = false := by
  rw [← Bool.not_eq_true]
  intro same
  induction parentType generalizing childType with
  | table => cases same
  | index => cases same
  | flattened p c ihp _ =>
    rw [RowType.same, Bool.and_eq_true] at same
    exact ihp c same.1

omit nests in
/-- What stands in the place of a row has the place of the row. -/
theorem place_of_mem_inPlace {x : Row} (inside : x ∈ inPlace parentType childType rows r) :
    x.place [parentType] = r.spot := by
  rcases inPlace_cases r with ⟨_, place⟩ | ⟨p, _, _, _, _, place⟩ | ⟨other, _, place⟩
  · rw [place] at inside
    cases inside
  · have fresh := not_same_flattened parentType childType
    rw [place] at inside
    rw [List.mem_singleton.1 inside]
    exact Row.place_of_punctual (by simpa [Row.join] using fresh)
  · rw [place] at inside
    rw [List.mem_singleton.1 inside]
    exact Row.place_of_punctual (by simpa using other)

include member

/-- A parent comes behind its row and before the next. -/
theorem place_of_mem_behind {p : Row} (inside : p ∈ behind parentType childType rows r) :
    r.spot < p.place [parentType] ∧ ∀ r' ∈ rows, r.spot < r'.spot → p.place [parentType] < r'.spot := by
  obtain ⟨parent, isParent, _, last⟩ := (mem_behind_iff nests member).1 inside
  have ⟨_, reaches, ends⟩ := lastBelow_spec nests parent
  rw [last] at reaches ends
  rw [Row.place_cons_of_same isParent]
  constructor
  · by_cases same : p = r
    · rw [same]
      exact Row.spot_lt_late r
    · have above := isAbove_of_prefix nests parent member reaches same
      have before : r.place [] < p.spot ++ [256] :=
        Row.place_lt_late (nests.keyed p parent) (nests.keyed r member) above
      rwa [Row.place_of_punctual rfl] at before
  · intro r' member' later
    have apart : p.isAbove r' = false := by
      rw [← Bool.not_eq_true]
      exact fun above => ends r' member' above later
    have before : p.place [] < r'.place [] := by
      rw [Row.place_of_punctual rfl, Row.place_of_punctual rfl]
      exact List.lt_of_le_of_lt (List.IsPrefix.le reaches) later
    have late := nests.late_lt_place parent isParent member' before apart
    rwa [Row.place_of_punctual rfl] at late

/-- What takes the place of a row or stands behind it is in order. -/
theorem local_sorted :
    (inPlace parentType childType rows r ++ behind parentType childType rows r).Pairwise
      fun a b => a.place [parentType] < b.place [parentType] := by
  rw [List.pairwise_append]
  refine ⟨?_, ?_, fun x inside p inside' => ?_⟩
  · rcases inPlace_cases r with ⟨_, place⟩ | ⟨_, _, _, _, _, place⟩ | ⟨_, _, place⟩
    · rw [place]
      exact List.Pairwise.nil
    · rw [place]
      exact List.pairwise_singleton _ _
    · rw [place]
      exact List.pairwise_singleton _ _
  · refine (nests.sorted.filter _).imp_of_mem fun {a b} inside inside' less => ?_
    obtain ⟨parent, isParent, _, last⟩ := (mem_behind_iff nests member).1 inside
    obtain ⟨parent', isParent', _, last'⟩ := (mem_behind_iff nests member).1 inside'
    have reaches := (lastBelow_spec nests parent).2.1
    have reaches' := (lastBelow_spec nests parent').2.1
    rw [last] at reaches
    rw [last'] at reaches'
    rw [parent_unique nests parent isParent parent' isParent' reaches reaches'] at less
    exact absurd less (List.lt_irrefl _)
  · rw [place_of_mem_inPlace inside]
    exact (place_of_mem_behind nests member inside').1

end Order

theorem rearranged_sorted : (rearranged parentType childType rows).Pairwise
    fun a b => a.place [parentType] < b.place [parentType] := by
  rw [rearranged, List.pairwise_flatMap]
  refine ⟨fun r member => local_sorted nests member, ?_⟩
  refine (spot_lt nests).imp_of_mem fun {r r'} member member' less x inside y inside' => ?_
  have before : x.place [parentType] < r'.spot := by
    rcases List.mem_append.1 inside with inside | inside
    · rwa [place_of_mem_inPlace inside]
    · exact (place_of_mem_behind nests member inside).2 r' member' less
  rcases List.mem_append.1 inside' with inside' | inside'
  · rwa [place_of_mem_inPlace inside']
  · exact List.lt_trans before (place_of_mem_behind nests member' inside').1

theorem flow_eq_rearranged :
    flow parentType childType .noParent rows = rearranged parentType childType rows := by
  have irrefl : Std.Irrefl fun a b : Row => a.place [parentType] < b.place [parentType] :=
    ⟨fun a => List.lt_irrefl _⟩
  have asymm : Std.Antisymm fun a b : Row => a.place [parentType] < b.place [parentType] :=
    ⟨fun a b ab ba => absurd ba (List.lt_asymm ab)⟩
  have fresh : [parentType].any (RowType.flattened parentType childType).same = false := by
    simpa using not_same_flattened parentType childType
  have nests' : Nests [] parentType (Lookback.noParent.parents ++ rows) := nests
  have sorted := flow_sorted fresh nests' (fun _ member => absurd member List.not_mem_nil)
    fun _ _ _ => rfl
  refine sorted.eq_of_mem_iff (rearranged_sorted nests) fun out => ?_
  rw [mem_flow_iff nests' fun _ member => absurd member List.not_mem_nil, mem_rearranged_iff nests]

end Nested

/-- A join of a machine whose rows are in key order, with no parent below another, delivers them
rearranged. -/
theorem delivers_rearranged {σ : Type} {m : Machine σ} {store : Store} {bindings : Bindings}
    {parentType childType : RowType} {rows : List Row} (input : Delivers m store bindings rows)
    (ordered : InKeyOrder rows)
    (flat : ∀ p ∈ rows, ∀ q ∈ rows, p.rowType.same parentType = true →
      q.rowType.same parentType = true → p.isAbove q = false) :
    Delivers (machine parentType childType m) store bindings
      (rearranged parentType childType rows) := by
  rw [← flow_eq_rearranged (nests_of_inKeyOrder ordered flat)]
  exact delivers input

/-- A customer with an order, a customer with nothing but a stray item, and an item on its own. -/
def shopStream : List Row :=
  [⟨shopCustomer.rowType, [.int 1, .text "a"], some (.ofSegments [(⟨1⟩, .int 1)])⟩,
    ⟨shopOrder.rowType, [.int 5, .int 1], some (.ofSegments [(⟨1⟩, .int 1), (⟨2⟩, .int 5)])⟩,
    ⟨shopCustomer.rowType, [.int 2, .text "b"], some (.ofSegments [(⟨1⟩, .int 2)])⟩,
    ⟨shopItem.rowType, [.int 7, .int 6],
      some (.ofSegments [(⟨1⟩, .int 2), (⟨2⟩, .int 6), (⟨3⟩, .int 7)])⟩,
    ⟨shopItem.rowType, [.int 8, .null],
      some (.ofSegments [(⟨1⟩, .int 3), (⟨2⟩, .null), (⟨3⟩, .int 8)])⟩]

/-- The first customer goes out with the order, the second behind the stray item. -/
theorem delivers_rearranged_shop :
    InKeyOrder shopStream ∧
    (∀ p ∈ shopStream, ∀ q ∈ shopStream, p.rowType.same shopCustomer.rowType = true →
      q.rowType.same shopCustomer.rowType = true → p.isAbove q = false) ∧
    Delivers (machine shopCustomer.rowType shopOrder.rowType
        (Feed.machine (shopStream.map Except.ok)))
      (Store.create shop (.create .standard)) .empty
      (rearranged shopCustomer.rowType shopOrder.rowType shopStream) ∧
    (rearranged shopCustomer.rowType shopOrder.rowType shopStream).map Row.values =
      [[.int 1, .text "a", .int 5, .int 1], [.int 7, .int 6], [.int 2, .text "b"],
        [.int 8, .null]] := by
  have ordered : InKeyOrder shopStream :=
    ⟨[_, _, _, _, _], rfl, by decide +kernel⟩
  have flat : ∀ p ∈ shopStream, ∀ q ∈ shopStream, p.rowType.same shopCustomer.rowType = true →
      q.rowType.same shopCustomer.rowType = true → p.isAbove q = false := by decide +kernel
  exact ⟨ordered, flat, delivers_rearranged (Feed.delivers _ _ _) ordered flat, by decide +kernel⟩

end Pipeline.Flatten

end Interleave
