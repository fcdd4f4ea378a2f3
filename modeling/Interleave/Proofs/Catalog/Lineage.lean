import Interleave.Proofs.Catalog.Forest

/-!
Paths of tables. In a forest every table but the roots has a parent with a smaller number, so following
parents ends at a root, and a path is the parent's path one table further.
-/

namespace Interleave.Catalog

/-- Whether `p` is the parent of `t`, whose key value `t` keeps in a column. -/
def Links (c : Catalog) (p t : Table) (column : Nat) : Prop :=
  p ∈ c.tables ∧ t.parent = some ⟨p.id, column⟩

namespace Forest

variable {c : Catalog} (forest : c.Forest)
include forest

theorem table?_id {t : Table} (member : t ∈ c.tables) : c.table? t.id = some t :=
  forest.numbered.find member

theorem table?_eq_some {id : TableId} {t : Table} (found : c.table? id = some t) :
    t ∈ c.tables ∧ t.id = id :=
  ⟨numbered?_mem found, TableId.toNat_inj.1 (forest.numbered.number_eq found)⟩

theorem group?_id {g : Group} (member : g ∈ c.groups) : c.group? g.id = some g :=
  forest.groupsNumbered.find member

theorem group?_eq_some {id : GroupId} {g : Group} (found : c.group? id = some g) :
    g ∈ c.groups ∧ g.id = id :=
  ⟨numbered?_mem found, congrArg GroupId.mk (forest.groupsNumbered.number_eq found)⟩

theorem id_inj {t t' : Table} (member : t ∈ c.tables) (member' : t' ∈ c.tables)
    (same : t.id = t'.id) : t = t' :=
  Option.some.inj ((forest.table?_id member).symm.trans (same ▸ forest.table?_id member'))

theorem links {t : Table} (member : t ∈ c.tables) {link : ParentLink}
    (child : t.parent = some link) :
    ∃ p, c.Links p t link.column ∧ p.id = link.table := by
  obtain ⟨_, p, above, same, _⟩ := (forest.fits t member).parent link child
  exact ⟨p, ⟨above, by rw [child, same]⟩, same⟩

theorem parent_cases {t : Table} (member : t ∈ c.tables) :
    t.parent = none ∨ ∃ p column, c.Links p t column := by
  cases child : t.parent with
  | none => exact .inl rfl
  | some link =>
    obtain ⟨p, linked, _⟩ := forest.links member child
    exact .inr ⟨p, link.column, linked⟩

section Links

variable {p t : Table} {column : Nat} (member : t ∈ c.tables) (link : c.Links p t column)
include member link

theorem column_lt : column < t.columnCount := ((forest.fits t member).parent _ link.2).1

theorem parent_lt : p.id.toNat < t.id.toNat := by
  obtain ⟨_, p', above, same, less, _⟩ := (forest.fits t member).parent _ link.2
  rwa [← forest.id_inj above link.1 same]

theorem parent_group : p.group = t.group := by
  obtain ⟨_, p', above, same, _, group⟩ := (forest.fits t member).parent _ link.2
  rwa [← forest.id_inj above link.1 same]

end Links

/-- What holds of the roots and goes over from parents to children holds of every table. -/
theorem induction {P : Table → Prop} (root : ∀ t ∈ c.tables, t.parent = none → P t)
    (child : ∀ t ∈ c.tables, ∀ p column, c.Links p t column → P p → P t) : ∀ t ∈ c.tables, P t := by
  suffices below : ∀ bound, ∀ t ∈ c.tables, t.id.toNat < bound → P t from
    fun t member => below _ t member (Nat.lt_succ_self _)
  intro bound
  induction bound with
  | zero => exact fun t _ none => absurd none (Nat.not_lt_zero _)
  | succ bound ih =>
    intro t member inside
    rcases forest.parent_cases member with top | ⟨p, column, link⟩
    · exact root t member top
    · have less := forest.parent_lt member link
      exact child t member p column link (ih p link.1 (by omega))

/-- More fuel than a table's number finds no further tables above it. -/
theorem upward_fuel : ∀ t ∈ c.tables, ∀ fuel, t.id.toNat ≤ fuel →
    c.upward fuel t.id = c.upward t.id.toNat t.id := by
  intro t member
  induction number : t.id.toNat using Nat.strongRecOn generalizing t with
  | ind n ih =>
    intro fuel enough
    have positive : 0 < t.id.toNat := forest.numbered.pos member
    obtain ⟨fuel, rfl⟩ : ∃ k, fuel = k + 1 := ⟨fuel - 1, by omega⟩
    obtain ⟨n, rfl⟩ : ∃ k, n = k + 1 := ⟨n - 1, by omega⟩
    rw [upward, upward, forest.table?_id member]
    rcases forest.parent_cases member with top | ⟨p, column, link⟩
    · simp only [top]
    · have less := forest.parent_lt member link
      simp only [link.2]
      rw [ih p.id.toNat (by omega) p link.1 rfl fuel (by omega),
        ih p.id.toNat (by omega) p link.1 rfl n (by omega)]

theorem path_root {t : Table} (member : t ∈ c.tables) (top : t.parent = none) :
    c.path t.id = [t] := by
  have size : t.id.toNat ≤ c.tables.size := forest.numbered.le_size member
  have positive : 0 < t.id.toNat := forest.numbered.pos member
  obtain ⟨fuel, enough⟩ : ∃ fuel, c.tables.size = fuel + 1 := ⟨c.tables.size - 1, by omega⟩
  rw [path, enough, upward, forest.table?_id member]
  simp [top]

theorem path_child {p t : Table} {column : Nat} (member : t ∈ c.tables)
    (link : c.Links p t column) :
    c.path t.id = c.path p.id ++ [t] := by
  have size : t.id.toNat ≤ c.tables.size := forest.numbered.le_size member
  have less := forest.parent_lt member link
  obtain ⟨fuel, enough⟩ : ∃ fuel, c.tables.size = fuel + 1 := ⟨c.tables.size - 1, by omega⟩
  have above : c.upward fuel p.id = c.upward c.tables.size p.id := by
    rw [forest.upward_fuel p link.1 fuel (by omega),
      forest.upward_fuel p link.1 c.tables.size (by omega)]
  rw [path, path, ← above, enough, upward, forest.table?_id member]
  simp [link.2]

theorem mem_path : ∀ t ∈ c.tables, ∀ p ∈ c.path t.id,
    p ∈ c.tables ∧ p.id.toNat ≤ t.id.toNat ∧ p.group = t.group := by
  refine forest.induction ?_ ?_
  · intro t member top p inside
    rw [forest.path_root member top, List.mem_singleton] at inside
    rw [inside]
    exact ⟨member, Nat.le_refl _, rfl⟩
  · intro t member above column link ih p inside
    rw [forest.path_child member link, List.mem_append, List.mem_singleton] at inside
    rcases inside with inside | rfl
    · obtain ⟨known, less, group⟩ := ih p inside
      exact ⟨known, Nat.le_trans less (Nat.le_of_lt (forest.parent_lt member link)),
        group.trans (forest.parent_group member link)⟩
    · exact ⟨member, Nat.le_refl _, rfl⟩

/-- No table stands twice on a path. -/
theorem path_nodup : ∀ t ∈ c.tables, ((c.path t.id).map Table.id).Nodup := by
  refine forest.induction ?_ ?_
  · intro t member top
    simp [forest.path_root member top]
  · intro t member p column link ih
    rw [forest.path_child member link, List.map_append, List.nodup_append]
    refine ⟨ih, List.nodup_singleton t.id, fun id inside id' last same => ?_⟩
    obtain ⟨q, onPath, rfl⟩ := List.mem_map.1 inside
    have less := forest.parent_lt member link
    have before := (forest.mem_path p link.1 q onPath).2.1
    rw [same, List.mem_singleton.1 last] at before
    exact absurd less (Nat.not_lt.2 before)

theorem path_getLast {t : Table} (member : t ∈ c.tables) :
    c.path t.id = (c.path t.id).dropLast ++ [t] := by
  rcases forest.parent_cases member with top | ⟨p, column, link⟩
  · simp [forest.path_root member top]
  · simp [forest.path_child member link]

/-- The tables above a table are the ones of its path with another number. -/
theorem filter_path {t : Table} (member : t ∈ c.tables) :
    ((c.path t.id).filter fun p => p.id ≠ t.id) = (c.path t.id).dropLast := by
  rcases forest.parent_cases member with top | ⟨p, column, link⟩
  · simp [forest.path_root member top]
  · rw [forest.path_child member link, List.filter_append, List.dropLast_concat]
    have others : (c.path p.id).filter (fun q => q.id ≠ t.id) = c.path p.id := by
      refine List.filter_eq_self.2 fun q inside => ?_
      have less := forest.parent_lt member link
      have before := (forest.mem_path p link.1 q inside).2.1
      simpa using fun same : q.id = t.id => by rw [same] at before; omega
    rw [others]
    simp

theorem above_cases {u t : Table} (known : u ∈ c.tables) (above : t ∈ (c.path u.id).dropLast) :
    ∃ p column, c.Links p u column ∧ t ∈ c.path p.id ∧ t.id.toNat < u.id.toNat := by
  rcases forest.parent_cases known with top | ⟨p, column, link⟩
  · simp [forest.path_root known top] at above
  · rw [forest.path_child known link, List.dropLast_concat] at above
    have less := forest.parent_lt known link
    have before := (forest.mem_path p link.1 t above).2.1
    exact ⟨p, column, link, above, by omega⟩

/-- A table above another is in its group and has a smaller number. -/
theorem isAncestor_spec {a u : Table} (known : a ∈ c.tables) (known' : u ∈ c.tables)
    (above : c.isAncestor a.id u.id = true) : a.group = u.group ∧ a.id.toNat < u.id.toNat := by
  obtain ⟨q, onPath, same⟩ := List.any_eq_true.1 above
  obtain ⟨knownQ, _, group⟩ := forest.mem_path u known' q (List.dropLast_subset _ onPath)
  obtain rfl := forest.id_inj knownQ known (of_decide_eq_true same)
  obtain ⟨_, _, _, _, less⟩ := forest.above_cases known' onPath
  exact ⟨group, less⟩

/-- Above a table are its parent and the tables above that. -/
theorem isAncestor_child {p t : Table} {column : Nat} (member : t ∈ c.tables)
    (link : c.Links p t column) (id : TableId) :
    c.isAncestor id t.id = (c.isAncestor id p.id || decide (p.id = id)) := by
  rw [isAncestor, forest.path_child member link, List.dropLast_concat, forest.path_getLast link.1,
    List.any_append]
  simp [isAncestor]

/-- The path of a table on the way goes the same way. -/
theorem path_of_mem : ∀ u ∈ c.tables, ∀ t ∈ c.path u.id, c.path t.id <+: c.path u.id := by
  refine forest.induction ?_ ?_
  · intro u known top t onPath
    rw [forest.path_root known top, List.mem_singleton] at onPath
    exact onPath ▸ List.prefix_rfl
  · intro u known p column link ih t onPath
    rw [forest.path_child known link, List.mem_append, List.mem_singleton] at onPath
    rcases onPath with onPath | rfl
    · rw [forest.path_child known link]
      exact (ih t onPath).trans (List.prefix_append _ _)
    · exact List.prefix_rfl

end Forest

/-- Whether a table stands above the parent of another. -/
def FarAbove (c : Catalog) (t w : Table) : Prop :=
  ∃ p column, c.Links p w column ∧ t ∈ (c.path p.id).dropLast

/-- The parent of a table is not far above it. -/
theorem Forest.not_farAbove_of_links {c : Catalog} (forest : c.Forest) {p t : Table} {column : Nat}
    (link : c.Links p t column) : ¬ c.FarAbove p t := by
  rintro ⟨q, column', link', above⟩
  have same := Option.some.inj (link.2.symm.trans link'.2)
  obtain rfl := forest.id_inj link.1 link'.1 (congrArg ParentLink.table same)
  obtain ⟨_, _, _, _, less⟩ := forest.above_cases link.1 above
  exact Nat.lt_irrefl _ less

end Interleave.Catalog
