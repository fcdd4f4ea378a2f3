import Mathlib.Data.List.Nodup
import Interleave.Catalog.Declaration

/-!
What every catalog made from declarations satisfies: numbers find their entries, names of one kind
differ, and every parent stands before its children in the same group. So a path goes from the parent's
path one table further.
-/

namespace Interleave

theorem bind_eq_ok {α β ε : Type} {x : Except ε α} {f : α → Except ε β} {b : β}
    (ok : x >>= f = .ok b) :
    ∃ a, x = .ok a ∧ f a = .ok b := by
  cases x with
  | error e => cases ok
  | ok a => exact ⟨a, rfl, ok⟩

theorem map_eq_ok {α β ε : Type} {x : Except ε α} {f : α → β} {b : β} (ok : x.map f = .ok b) :
    ∃ a, x = .ok a ∧ f a = b := by
  cases x with
  | error e => cases ok
  | ok a => exact ⟨a, rfl, Except.ok.inj ok⟩

theorem foldlM_preserves {σ α ε : Type} {f : σ → α → Except ε σ} {P : σ → Prop} {l : List α}
    {start final : σ} (step : ∀ s a s', a ∈ l → P s → f s a = .ok s' → P s') (first : P start)
    (run : l.foldlM f start = .ok final) :
    P final := by
  induction l generalizing start with
  | nil => exact Except.ok.inj run ▸ first
  | cons a rest ih =>
    rw [List.foldlM_cons] at run
    obtain ⟨middle, one, others⟩ := bind_eq_ok run
    exact ih (fun s b s' member => step s b s' (List.mem_cons_of_mem _ member))
      (step start a middle List.mem_cons_self first one) others

/-- Whether every entry is found under its number. -/
def Numbered {α : Type} (number : α → Nat) (entries : Array α) : Prop :=
  ∀ i a, entries[i]? = some a → number a = i + 1

namespace Numbered

variable {α : Type} {number : α → Nat} {entries : Array α}

theorem find (numbered : Numbered number entries) {a : α} (member : a ∈ entries) :
    Catalog.numbered? entries (number a) = some a := by
  obtain ⟨i, found⟩ := Array.mem_iff_getElem?.1 member
  rw [numbered i a found, Catalog.numbered?, found]

theorem number_eq (numbered : Numbered number entries) {n : Nat} {a : α}
    (found : Catalog.numbered? entries n = some a) : number a = n := by
  cases n with
  | zero => cases found
  | succ n => exact numbered n a found

theorem push (numbered : Numbered number entries) {a : α} (next : number a = entries.size + 1) :
    Numbered number (entries.push a) := by
  intro i b found
  rw [Array.getElem?_push] at found
  split at found
  · next last =>
    obtain rfl := Option.some.inj found
    rw [next, last]
  · exact numbered i b found

theorem le_size (numbered : Numbered number entries) {a : α} (member : a ∈ entries) :
    number a ≤ entries.size := by
  obtain ⟨i, found⟩ := Array.mem_iff_getElem?.1 member
  obtain ⟨inside, _⟩ := Array.getElem?_eq_some_iff.1 found
  rw [numbered i a found]
  exact inside

theorem pos (numbered : Numbered number entries) {a : α} (member : a ∈ entries) : 0 < number a := by
  obtain ⟨i, found⟩ := Array.mem_iff_getElem?.1 member
  rw [numbered i a found]
  exact Nat.succ_pos i

end Numbered

/-- Whether a map leads from each of a list of names to its place, the first being 1. -/
def Numbers {ι : Type} (ofNat : Nat → ι) (ids : Std.HashMap String ι) (names : List String) : Prop :=
  ∀ name, ids[name]? = (names.findIdx? (· = name)).map fun place => ofNat (place + 1)

namespace Numbers

variable {ι : Type} {ofNat : Nat → ι} {ids : Std.HashMap String ι} {names : List String} {name : String}

theorem empty : Numbers ofNat ∅ [] := fun _ => Std.HashMap.getElem?_empty

theorem contains_iff (numbers : Numbers ofNat ids names) : ids.contains name = true ↔ name ∈ names := by
  rw [Std.HashMap.contains_eq_isSome_getElem?, numbers, Option.isSome_map, List.findIdx?_isSome,
    List.any_eq_true]
  simp

theorem place (numbers : Numbers ofNat ids names) {id : ι} (found : ids[name]? = some id) :
    ∃ place, names[place]? = some name ∧ id = ofNat (place + 1) := by
  rw [numbers] at found
  obtain ⟨place, here, rfl⟩ := Option.map_eq_some_iff.1 found
  obtain ⟨inside, same, -⟩ := List.findIdx?_eq_some_iff_getElem.1 here
  exact ⟨place, of_decide_eq_true same ▸ List.getElem?_eq_getElem inside, rfl⟩

/-- A new name takes the next number. -/
theorem concat (numbers : Numbers ofNat ids names) (fresh : name ∉ names) :
    Numbers ofNat (ids.insert name (ofNat (names.length + 1))) (names ++ [name]) := by
  intro other
  have absent : names.findIdx? (· = name) = none :=
    List.findIdx?_eq_none_iff.2 fun old member => decide_eq_false fun same => fresh (same ▸ member)
  rw [Std.HashMap.getElem?_insert, numbers, List.findIdx?_append]
  by_cases this : name = other
  · subst this
    simp [absent]
  · simp [this]

end Numbers

namespace Catalog

theorem numbered?_mem {α : Type} {entries : Array α} {n : Nat} {a : α}
    (found : numbered? entries n = some a) :
    a ∈ entries := by
  cases n with
  | zero => cases found
  | succ n => exact Array.mem_of_getElem? found

/-- Whether a table fits among those of a catalog: its key columns exist, and its parent stands before
it in the same group. -/
structure Fits (tables : Array Table) (t : Table) : Prop where
  primaryKey : t.primaryKey < t.columnCount
  parent : ∀ link, t.parent = some link → link.column < t.columnCount ∧
    ∃ p ∈ tables, p.id = link.table ∧ p.id.toNat < t.id.toNat ∧ p.group = t.group

theorem Fits.push {tables : Array Table} {t : Table} (fits : Fits tables t) (t' : Table) :
    Fits (tables.push t') t where
  primaryKey := fits.primaryKey
  parent link found := by
    obtain ⟨column, p, member, rest⟩ := fits.parent link found
    exact ⟨column, p, Array.mem_push_of_mem _ member, rest⟩

/-- What makes the tables of a catalog a forest with named groups and indexes. -/
structure Forest (c : Catalog) : Prop where
  numbered : Numbered (fun t => t.id.toNat) c.tables
  groupsNumbered : Numbered (fun g => g.id.num) c.groups
  tableNames : ∀ t ∈ c.tables, ∀ t' ∈ c.tables, t.name = t'.name → t = t'
  groupNames : ∀ g ∈ c.groups, ∀ g' ∈ c.groups, g.name = g'.name → g = g'
  indexNames : c.indexes.toList.Pairwise fun i i' => i.name ≠ i'.name
  fits : ∀ t ∈ c.tables, Fits c.tables t
  grouped : ∀ t ∈ c.tables, ∃ g, c.group? t.group = some g
  indexed : ∀ i ∈ c.indexes, ∃ t ∈ c.tables, t.id = i.table

end Catalog

namespace Draft

open Catalog (Fits)

/-- What holds of the declarations read so far. -/
structure Sound (d : Draft) : Prop where
  numbered : Numbered (fun t => t.id.toNat) d.tables
  named : ∀ t ∈ d.tables, d.tableNames.contains t.name = true
  tableNames : ∀ t ∈ d.tables, ∀ t' ∈ d.tables, t.name = t'.name → t = t'
  fits : ∀ t ∈ d.tables, Fits d.tables t
  grouped : ∀ t ∈ d.tables, 1 ≤ t.group.num ∧ t.group.num ≤ d.groups.size
  roots : d.roots.size = d.groups.size
  groupNumbers : Numbers GroupId.mk d.groupNames d.groups.toList
  groupNames : d.groups.toList.Nodup

theorem sound_empty : empty.Sound := by
  constructor <;> simp [empty, Numbered, Numbers.empty]

variable {d d' : Draft}

theorem Sound.addGroup (sound : d.Sound) {name : String} (ok : d.addGroup name = .ok d') :
    d'.Sound := by
  unfold Draft.addGroup at ok
  dsimp only at ok
  split at ok
  · cases ok
  · split at ok
    · cases ok
    · next fresh =>
      obtain rfl := Except.ok.inj ok
      have absent : name ∉ d.groups.toList := fun old => fresh (sound.groupNumbers.contains_iff.2 old)
      refine { sound with grouped := ?_, roots := ?_, groupNumbers := ?_, groupNames := ?_ }
      · intro t member
        have bounds := sound.grouped t member
        simp only [Array.size_push]
        omega
      · simp [sound.roots]
      · simpa using sound.groupNumbers.concat absent
      · rw [Array.toList_push, List.nodup_append]
        exact ⟨sound.groupNames, by simp,
          by rintro a member b here rfl; exact absent (List.mem_singleton.1 here ▸ member)⟩

theorem Sound.push (sound : d.Sound) {t : Table} (number : t.id.toNat = d.tables.size + 1)
    (fresh : ¬ d.tableNames.contains t.name = true) (fits : Fits d.tables t)
    (group : 1 ≤ t.group.num ∧ t.group.num ≤ d.groups.size) : (d.push t).Sound where
  numbered := sound.numbered.push number
  named t' member := by
    rcases Array.mem_push.1 member with member | rfl
    · simp [Draft.push, sound.named t' member]
    · simp [Draft.push]
  tableNames t₁ first t₂ second same := by
    rcases Array.mem_push.1 first with old | rfl <;> rcases Array.mem_push.1 second with old' | rfl
    · exact sound.tableNames t₁ old t₂ old' same
    · exact absurd (same ▸ sound.named t₁ old) fresh
    · exact absurd (same ▸ sound.named t₂ old') fresh
    · rfl
  fits t' member := by
    rcases Array.mem_push.1 member with member | rfl
    · exact (sound.fits t' member).push t
    · exact fits.push t'
  grouped t' member := by
    rcases Array.mem_push.1 member with member | rfl
    · exact sound.grouped t' member
    · exact group
  roots := sound.roots
  groupNumbers := sound.groupNumbers
  groupNames := sound.groupNames

theorem column_lt {table name : String} {columns : List String} {position : Nat}
    (ok : column table columns name = .ok position) : position < columns.length := by
  unfold column at ok
  split at ok
  · next found =>
    obtain rfl := Except.ok.inj ok
    exact (List.findIdx?_eq_some_iff_getElem.1 found).1
  · cases ok

theorem Sound.addRoot (sound : d.Sound) {t : Table} {group : String}
    (number : t.id.toNat = d.tables.size + 1) (fresh : ¬ d.tableNames.contains t.name = true)
    (key : t.primaryKey < t.columnCount) (top : t.parent = none) (ok : d.addRoot t group = .ok d') :
    d'.Sound := by
  unfold Draft.addRoot at ok
  split at ok
  · cases ok
  next id found =>
  split at ok
  · cases ok
  · cases ok
  · obtain rfl := Except.ok.inj ok
    obtain ⟨position, here, rfl⟩ := sound.groupNumbers.place found
    have inside : position < d.groups.toList.length := (List.getElem?_eq_some_iff.1 here).1
    have rooted : Sound { d with roots := d.roots.setIfInBounds position (some t.id) } :=
      { sound with roots := by simp [sound.roots] }
    refine rooted.push (by simpa using number) (by simpa using fresh)
      ⟨key, fun link found => ?_⟩ ?_
    · simp [top] at found
    · exact ⟨by simp, inside⟩

theorem Sound.addChild (sound : d.Sound) {t : Table} {parent foreignKey : String}
    (number : t.id.toNat = d.tables.size + 1) (fresh : ¬ d.tableNames.contains t.name = true)
    (key : t.primaryKey < t.columnCount) (ok : d.addChild t parent foreignKey = .ok d') :
    d'.Sound := by
  unfold Draft.addChild at ok
  split at ok
  · cases ok
  · next above found =>
    obtain ⟨position, col, rfl⟩ := map_eq_ok ok
    obtain ⟨id, _, numbered⟩ := Option.bind_eq_some_iff.1 found
    have member := Catalog.numbered?_mem numbered
    refine sound.push (by simpa using number) (by simpa using fresh) ⟨key, fun link found => ?_⟩
      (sound.grouped above member)
    obtain rfl := Option.some.inj found
    refine ⟨column_lt col, above, member, rfl, ?_, rfl⟩
    have before := sound.numbered.le_size member
    show above.id.toNat < t.id.toNat
    omega

theorem Sound.addTable (sound : d.Sound) {t : TableDeclaration} (ok : d.addTable t = .ok d') :
    d'.Sound := by
  unfold Draft.addTable at ok
  dsimp only at ok
  split at ok
  · cases ok
  · next room =>
    split at ok
    · cases ok
    · next fresh =>
      split at ok
      · cases ok
      · split at ok
        · cases ok
        · next key col =>
          have number : (TableId.ofNat (d.tables.size + 1)).toNat = d.tables.size + 1 :=
            TableId.toNat_ofNat (by omega)
          split at ok
          · exact sound.addRoot number fresh (column_lt col) rfl ok
          · exact sound.addChild number fresh (column_lt col) ok

theorem foldlM_rooted {pairs : List (String × Option TableId)} {done groups : Array Group}
    (numbered : Numbered (fun g => g.id.num) done)
    (ok : pairs.foldlM (m := Except CatalogFault) (fun done (name, root) => match root with
      | some root => .ok (done.push ⟨⟨done.size + 1⟩, name, root⟩)
      | none => .error (.noRoot name)) done = .ok groups) :
    Numbered (fun g => g.id.num) groups ∧
      groups.toList.map (·.name) = done.toList.map (·.name) ++ pairs.map Prod.fst := by
  induction pairs generalizing done with
  | nil =>
    obtain rfl := Except.ok.inj ok
    simp [numbered]
  | cons pair rest ih =>
    obtain ⟨name, root⟩ := pair
    rw [List.foldlM_cons] at ok
    obtain ⟨next, one, others⟩ := bind_eq_ok ok
    cases root with
    | none => cases one
    | some root =>
      obtain rfl := Except.ok.inj one
      obtain ⟨last, all⟩ := ih (numbered.push rfl) others
      refine ⟨last, ?_⟩
      rw [all]
      simp

/-- The groups with their roots come out numbered, under their names in order. -/
theorem rooted_spec (sound : d.Sound) {groups : Array Group} (ok : d.rooted = .ok groups) :
    Numbered (fun g => g.id.num) groups ∧ groups.toList.map (·.name) = d.groups.toList := by
  have names : (d.groups.toList.zip d.roots.toList).map Prod.fst = d.groups.toList :=
    List.map_fst_zip (by simp [sound.roots])
  have empty : Numbered (fun g : Group => g.id.num) #[] := by simp [Numbered]
  obtain ⟨numbered, all⟩ := foldlM_rooted empty ok
  refine ⟨numbered, ?_⟩
  rw [all, names]
  rfl

/-- What holds of the indexes read so far. -/
structure IndexesSound (d : Draft) (done : IndexDraft) : Prop where
  named : ∀ i ∈ done.indexes, done.names.contains i.name = true
  names : done.indexes.toList.Pairwise fun i i' => i.name ≠ i'.name
  indexed : ∀ i ∈ done.indexes, ∃ t ∈ d.tables, t.id = i.table

theorem IndexesSound.addIndex {done done' : IndexDraft} (sound : d.IndexesSound done)
    {declared : String × String × List String} (ok : d.addIndex done declared = .ok done') :
    d.IndexesSound done' := by
  obtain ⟨name, table, columns⟩ := declared
  simp only [Draft.addIndex] at ok
  split at ok
  · cases ok
  · split at ok
    · cases ok
    · next fresh =>
      split at ok
      · cases ok
      · next t found =>
        split at ok
        · cases ok
        · obtain ⟨positions, _, rfl⟩ := map_eq_ok ok
          obtain ⟨id, _, numbered⟩ := Option.bind_eq_some_iff.1 found
          refine ⟨fun i member => ?_, ?_, fun i member => ?_⟩
          · rcases Array.mem_push.1 member with member | rfl
            · simp [sound.named i member]
            · simp
          · rw [Array.toList_push, List.pairwise_append]
            refine ⟨sound.names, List.pairwise_singleton .., fun i before j here same => fresh ?_⟩
            have same : i.name = name := same.trans (congrArg Index.name (List.mem_singleton.1 here))
            exact same ▸ sound.named i (Array.mem_toList_iff.1 before)
          · rcases Array.mem_push.1 member with member | rfl
            · exact sound.indexed i member
            · exact ⟨t, Catalog.numbered?_mem numbered, rfl⟩

end Draft

/-- Every catalog made from declarations is a forest. -/
theorem Catalog.forest_of_declarations {declarations : List Declaration} {c : Catalog}
    (ok : Catalog.ofDeclarations declarations = .ok c) : c.Forest := by
  unfold Catalog.ofDeclarations at ok
  obtain ⟨named, groupsRead, ok⟩ := bind_eq_ok ok
  obtain ⟨draft, tablesRead, ok⟩ := bind_eq_ok ok
  obtain ⟨groups, rooted, ok⟩ := bind_eq_ok ok
  obtain ⟨done, indexesRead, ok⟩ := bind_eq_ok ok
  obtain rfl := Except.ok.inj ok
  have grouped : named.Sound :=
    foldlM_preserves (fun d name d' _ sound ok => Draft.Sound.addGroup sound ok)
      Draft.sound_empty groupsRead
  have sound : draft.Sound :=
    foldlM_preserves (fun d t d' _ sound ok => Draft.Sound.addTable sound ok) grouped tablesRead
  have ⟨groupsNumbered, names⟩ := Draft.rooted_spec sound rooted
  have indexed : draft.IndexesSound done :=
    foldlM_preserves (fun done i done' _ sound ok => Draft.IndexesSound.addIndex sound ok)
      ⟨by simp, by simp, by simp⟩ indexesRead
  have size : groups.size = draft.groups.size := by simpa using congrArg List.length names
  refine ⟨sound.numbered, groupsNumbered, sound.tableNames, ?_, indexed.names, sound.fits, ?_,
    indexed.indexed⟩
  · intro g member g' member' same
    have distinct := sound.groupNames
    rw [← names] at distinct
    exact List.inj_on_of_nodup_map distinct (Array.mem_toList_iff.2 member)
      (Array.mem_toList_iff.2 member') same
  · intro t member
    have ⟨low, high⟩ := sound.grouped t member
    obtain ⟨n, number⟩ : ∃ n, t.group.num = n + 1 := ⟨t.group.num - 1, by omega⟩
    have inside : n < groups.size := by omega
    exact ⟨groups[n], by simp [Catalog.group?, number, Catalog.numbered?]⟩

/-- Customers, their orders and the items of the orders, with customers found by name. -/
def shopDeclarations : List Declaration :=
  [.group "shop", .root "shop" "customer" ["id", "name"] "id",
    .child "order" "customer" ["id", "customer"] "id" "customer",
    .child "item" "order" ["id", "order"] "id" "order", .index "by_name" "customer" ["name"]]

def shopCustomer : Table := ⟨⟨1⟩, "customer", ["id", "name"], 0, none, ⟨1⟩⟩

def shopOrder : Table := ⟨⟨2⟩, "order", ["id", "customer"], 0, some ⟨⟨1⟩, 1⟩, ⟨1⟩⟩

def shopItem : Table := ⟨⟨3⟩, "item", ["id", "order"], 0, some ⟨⟨2⟩, 1⟩, ⟨1⟩⟩

def shop : Catalog where
  groups := #[⟨⟨1⟩, "shop", ⟨1⟩⟩]
  tables := #[shopCustomer, shopOrder, shopItem]
  indexes := #[⟨⟨1⟩, "by_name", ⟨1⟩, [1]⟩]
  groupNames := .ofList [("shop", ⟨1⟩)]
  tableNames := .ofList [("customer", ⟨1⟩), ("order", ⟨2⟩), ("item", ⟨3⟩)]
  indexNames := .ofList [("by_name", ⟨1⟩)]

theorem shop_accepted : Catalog.ofDeclarations shopDeclarations = .ok shop := by
  have groups : shopDeclarations.filterMap Declaration.group? = ["shop"] := rfl
  have tables : shopDeclarations.filterMap Declaration.table? =
      [⟨"customer", ["id", "name"], "id", .root "shop"⟩,
        ⟨"order", ["id", "customer"], "id", .child "customer" "customer"⟩,
        ⟨"item", ["id", "order"], "id", .child "order" "order"⟩] := rfl
  have indexes : shopDeclarations.filterMap Declaration.index? =
    [("by_name", "customer", ["name"])] := rfl
  rw [Catalog.ofDeclarations, groups, tables, indexes]
  simp [Draft.addGroup, Draft.empty, Draft.addTable, Draft.addRoot, Draft.addChild, Draft.push,
    Draft.column, Draft.repeated?, Draft.tableNamed?, Draft.rooted, Draft.addIndex,
    Draft.columnPositions, bind, Except.bind, pure, Except.pure, Except.map, shop, shopCustomer,
    shopOrder, shopItem, Catalog.numbered?, List.findIdx?, List.findIdx?.go, UInt16.size,
    UInt32.size, List.foldlM, TableId.ofNat, TableId.toNat, Std.HashMap.getElem_insert,
    Std.HashMap.ofList_cons, Std.HashMap.insertMany_cons]

theorem shop_known : ∀ t ∈ [shopCustomer, shopOrder, shopItem], t ∈ shop.tables := by simp [shop]

end Interleave
