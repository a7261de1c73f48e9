/-!
# Insertion-ordered finite maps

A `Table κ α` is a finite map that remembers in which order its keys were first bound: binding a
new key puts it last, binding a known key replaces its entry in place.  Struct fields, scopes,
frames and registries are all tables, since what the language shows of them (constructor arguments,
printed fields, conformance errors) follows declaration order.

Main statements: `find?_insert` says what is found after a binding, `find?_erase` after a removal,
`keys_insert` where a binding stands in the order, and `find?_eq_none_iff` that a key is found
exactly when it is one of the keys.
-/

namespace FlowScript

/-- A finite map from `κ` to `α` in the order in which the keys were first bound. -/
structure Table (κ : Type) (α : Type) where
  /-- The entries, in order. -/
  entries : List (κ × α)
  deriving Repr, Inhabited

namespace Table

variable {κ α β : Type} [DecidableEq κ]

/-- The table without entries. -/
def empty : Table κ α := ⟨[]⟩

/-- The entry that a list of pairs holds for a key: the first one. -/
def lookup (key : κ) : List (κ × α) → Option α
  | [] => none
  | (k, a) :: rest => if k = key then some a else lookup key rest

/-- A list of pairs with `key` bound to `value`: in place if bound already, else at the end. -/
def bind (key : κ) (value : α) : List (κ × α) → List (κ × α)
  | [] => [(key, value)]
  | (k, a) :: rest => if k = key then (k, value) :: rest else (k, a) :: bind key value rest

/-- The entry of `key`, if it is bound. -/
def find? (table : Table κ α) (key : κ) : Option α := lookup key table.entries

/-- Whether `key` is bound. -/
def contains (table : Table κ α) (key : κ) : Bool := (table.find? key).isSome

/-- Binds `key` to `value`, in place if `key` is bound already and at the end otherwise. -/
def insert (table : Table κ α) (key : κ) (value : α) : Table κ α := ⟨bind key value table.entries⟩

/-- Removes the binding of `key`. -/
def erase (table : Table κ α) (key : κ) : Table κ α :=
  ⟨table.entries.filter fun entry => !decide (entry.1 = key)⟩

/-- The keys, in order. -/
def keys (table : Table κ α) : List κ := table.entries.map Prod.fst

/-- The bound values, in order. -/
def values (table : Table κ α) : List α := table.entries.map Prod.snd

/-- The number of bindings. -/
def size (table : Table κ α) : Nat := table.entries.length

/-- Keeps the bindings that satisfy `keep`. -/
def filter (keep : κ → α → Bool) (table : Table κ α) : Table κ α :=
  ⟨table.entries.filter fun entry => keep entry.1 entry.2⟩

/-- The table with every bound value changed. -/
def map (f : α → β) (table : Table κ α) : Table κ β :=
  ⟨table.entries.map fun entry => (entry.1, f entry.2)⟩

/-- The table that binds the pairs of a list one after the other. -/
def ofList (pairs : List (κ × α)) : Table κ α :=
  pairs.foldl (fun table pair => table.insert pair.1 pair.2) empty

/-- `left` with every binding of `right` made on top of it. -/
def overlay (left right : Table κ α) : Table κ α :=
  right.entries.foldl (fun table pair => table.insert pair.1 pair.2) left

/-! ## What is found -/

@[simp] theorem find?_empty (key : κ) : (empty : Table κ α).find? key = none := rfl

theorem lookup_bind (key other : κ) (value : α) (pairs : List (κ × α)) :
    lookup other (bind key value pairs) = if key = other then some value else lookup other pairs := by
  induction pairs with
  | nil => simp [bind, lookup]
  | cons head rest ih =>
    obtain ⟨k, a⟩ := head
    by_cases hk : k = key
    · subst hk
      by_cases ho : k = other <;> simp [bind, lookup, ho]
    · by_cases ho : k = other
      · subst ho
        simp [bind, lookup, hk, Ne.symm hk]
      · simp [bind, lookup, hk, ho, ih]

/-- After a binding its key gives the new value and every other key what it gave before. -/
theorem find?_insert (table : Table κ α) (key other : κ) (value : α) :
    (table.insert key value).find? other = if key = other then some value else table.find? other :=
  lookup_bind key other value table.entries

@[simp] theorem find?_insert_self (table : Table κ α) (key : κ) (value : α) :
    (table.insert key value).find? key = some value := by
  simp [find?_insert]

theorem find?_insert_of_ne (table : Table κ α) {key other : κ} (value : α) (h : key ≠ other) :
    (table.insert key value).find? other = table.find? other := by
  simp [find?_insert, h]

/-- A key that is filtered out is not found any more. -/
theorem lookup_filter_ne (key other : κ) (pairs : List (κ × α)) :
    lookup other (pairs.filter fun entry => !decide (entry.1 = key)) =
      if key = other then none else lookup other pairs := by
  induction pairs with
  | nil => simp [lookup]
  | cons head rest ih =>
    obtain ⟨k, a⟩ := head
    by_cases hk : k = key
    · subst hk
      by_cases ho : k = other
      · subst ho
        simpa [lookup] using ih
      · simp [lookup, ih, ho]
    · by_cases ho : k = other
      · subst ho
        simp [lookup, hk, Ne.symm hk]
      · simp [lookup, hk, ho, ih]

/-- After a removal its key is unbound and every other key gives what it gave before. -/
theorem find?_erase (table : Table κ α) (key other : κ) :
    (table.erase key).find? other = if key = other then none else table.find? other :=
  lookup_filter_ne key other table.entries

theorem lookup_eq_none_iff (key : κ) (pairs : List (κ × α)) :
    lookup key pairs = none ↔ key ∉ pairs.map Prod.fst := by
  induction pairs with
  | nil => simp [lookup]
  | cons head rest ih =>
    obtain ⟨k, a⟩ := head
    by_cases hk : k = key
    · simp [lookup, hk]
    · simp [lookup, hk, ih, Ne.symm hk]

/-- A key is unbound exactly when it is not among the keys. -/
theorem find?_eq_none_iff (table : Table κ α) (key : κ) :
    table.find? key = none ↔ key ∉ table.keys :=
  lookup_eq_none_iff key table.entries

theorem contains_iff_mem_keys (table : Table κ α) (key : κ) :
    table.contains key = true ↔ key ∈ table.keys := by
  rw [contains, Option.isSome_iff_ne_none, ne_eq, find?_eq_none_iff, Classical.not_not]

theorem contains_insert (table : Table κ α) (key other : κ) (value : α) :
    (table.insert key value).contains other = (decide (key = other) || table.contains other) := by
  by_cases h : key = other <;> simp [contains, find?_insert, h]

@[simp] theorem contains_insert_self (table : Table κ α) (key : κ) (value : α) :
    (table.insert key value).contains key = true := by
  simp [contains_insert]

/-- A key that is bound stays so. -/
theorem contains_insert_of_contains {table : Table κ α} {other : κ} (key : κ) (value : α)
    (bound : table.contains other = true) : (table.insert key value).contains other = true := by
  rw [contains_insert, bound, Bool.or_true]

theorem contains_erase (table : Table κ α) (key other : κ) :
    (table.erase key).contains other = (!decide (key = other) && table.contains other) := by
  by_cases h : key = other <;> simp [contains, find?_erase, h]

theorem mem_of_lookup {key : κ} {value : α} {pairs : List (κ × α)}
    (found : lookup key pairs = some value) : (key, value) ∈ pairs := by
  induction pairs with
  | nil => cases found
  | cons head rest ih =>
    obtain ⟨k, a⟩ := head
    by_cases hk : k = key
    · subst hk
      simp only [lookup, if_pos] at found
      cases found
      exact List.mem_cons_self
    · simp only [lookup, if_neg hk] at found
      exact List.mem_cons_of_mem _ (ih found)

/-- What is found is one of the bound values. -/
theorem mem_values_of_find? {table : Table κ α} {key : κ} {value : α}
    (found : table.find? key = some value) : value ∈ table.values :=
  List.mem_map.mpr ⟨(key, value), mem_of_lookup found, rfl⟩

/-- What is in a table after a binding was there, or is the binding. -/
theorem mem_of_mem_bind {key : κ} {value : α} {pairs : List (κ × α)} {pair : κ × α}
    (mem : pair ∈ bind key value pairs) : pair = (key, value) ∨ pair ∈ pairs := by
  induction pairs with
  | nil => exact .inl (List.mem_singleton.mp mem)
  | cons head rest ih =>
    obtain ⟨k, a⟩ := head
    by_cases hk : k = key
    · subst hk
      rw [bind, if_pos rfl] at mem
      rcases List.mem_cons.mp mem with rfl | mem
      · exact .inl rfl
      · exact .inr (List.mem_cons_of_mem _ mem)
    · rw [bind, if_neg hk] at mem
      rcases List.mem_cons.mp mem with rfl | mem
      · exact .inr List.mem_cons_self
      · exact (ih mem).imp_right (List.mem_cons_of_mem _)

/-- A value that is bound after a binding is the new one or was bound before. -/
theorem mem_values_insert {table : Table κ α} {key : κ} {value other : α}
    (mem : other ∈ (table.insert key value).values) : other = value ∨ other ∈ table.values := by
  obtain ⟨pair, bound, rfl⟩ := List.mem_map.mp mem
  rcases mem_of_mem_bind bound with rfl | old
  · exact .inl rfl
  · exact .inr (List.mem_map.mpr ⟨pair, old, rfl⟩)

/-- An entry of `right` on top of `left` is an entry of one of them. -/
theorem mem_entries_overlay {left right : Table κ α} {pair : κ × α}
    (mem : pair ∈ (left.overlay right).entries) : pair ∈ left.entries ∨ pair ∈ right.entries := by
  obtain ⟨pairs⟩ := right
  simp only [overlay] at mem
  induction pairs generalizing left with
  | nil => exact .inl mem
  | cons head rest ih =>
    rcases ih mem with bound | bound
    · rcases mem_of_mem_bind bound with rfl | old
      · exact .inr List.mem_cons_self
      · exact .inl old
    · exact .inr (List.mem_cons_of_mem _ bound)

/-- A value that is bound after the bindings of `right` on top of `left` is bound in one of them. -/
theorem mem_values_overlay {left right : Table κ α} {value : α}
    (mem : value ∈ (left.overlay right).values) : value ∈ left.values ∨ value ∈ right.values := by
  obtain ⟨pair, bound, rfl⟩ := List.mem_map.mp mem
  exact (mem_entries_overlay bound).imp List.mem_map_of_mem List.mem_map_of_mem

/-- Every entry of a table made from a list of pairs is one of them. -/
theorem mem_entries_ofList {pairs : List (κ × α)} {pair : κ × α}
    (mem : pair ∈ (ofList pairs).entries) : pair ∈ pairs :=
  (@mem_entries_overlay _ _ _ empty ⟨pairs⟩ _ mem).resolve_left (by simp [empty])

theorem mem_values_ofList {pairs : List (κ × α)} {value : α} (mem : value ∈ (ofList pairs).values) :
    value ∈ pairs.map Prod.snd :=
  (@mem_values_overlay _ _ _ empty ⟨pairs⟩ _ mem).resolve_left (by simp [values, empty])

/-- If the keys are distinct, every entry is found. -/
theorem find?_of_mem {table : Table κ α} (distinct : table.keys.Nodup) {key : κ} {value : α}
    (mem : (key, value) ∈ table.entries) : table.find? key = some value := by
  obtain ⟨entries⟩ := table
  simp only [keys, find?] at distinct mem ⊢
  induction entries with
  | nil => cases mem
  | cons head rest ih =>
    obtain ⟨k, a⟩ := head
    obtain ⟨new, distinct⟩ := List.nodup_cons.mp distinct
    rcases List.mem_cons.mp mem with same | mem
    · cases same
      simp [lookup]
    · have other : k ≠ key := by
        rintro rfl
        exact new (List.mem_map.mpr ⟨(k, value), mem, rfl⟩)
      rw [lookup, if_neg other, ih distinct mem]

theorem lookup_map (f : α → β) (key : κ) (pairs : List (κ × α)) :
    lookup key (pairs.map fun pair => (pair.1, f pair.2)) = (lookup key pairs).map f := by
  induction pairs with
  | nil => rfl
  | cons head rest ih =>
    obtain ⟨k, a⟩ := head
    by_cases hk : k = key
    · simp [lookup, hk]
    · simp only [List.map_cons, lookup, if_neg hk, ih]

theorem find?_map (f : α → β) (table : Table κ α) (key : κ) :
    (table.map f).find? key = (table.find? key).map f :=
  lookup_map f key table.entries

/-! ## Order -/

theorem map_fst_bind (key : κ) (value : α) (pairs : List (κ × α)) :
    (bind key value pairs).map Prod.fst =
      if key ∈ pairs.map Prod.fst then pairs.map Prod.fst else pairs.map Prod.fst ++ [key] := by
  induction pairs with
  | nil => simp [bind]
  | cons head rest ih =>
    obtain ⟨k, a⟩ := head
    by_cases hk : k = key
    · simp [bind, hk]
    · by_cases hmem : key ∈ rest.map Prod.fst <;>
        simp_all [bind, Ne.symm hk]

omit [DecidableEq κ] in
@[simp] theorem keys_map (f : α → β) (table : Table κ α) : (table.map f).keys = table.keys := by
  simp [keys, map]

/-- A binding keeps the order of the keys; a new key comes last. -/
theorem keys_insert (table : Table κ α) (key : κ) (value : α) :
    (table.insert key value).keys =
      if key ∈ table.keys then table.keys else table.keys ++ [key] :=
  map_fst_bind key value table.entries

theorem keys_insert_of_find? {table : Table κ α} {key : κ} {known : α}
    (found : table.find? key = some known) (value : α) : (table.insert key value).keys = table.keys := by
  have mem : key ∈ table.keys := by
    rw [← contains_iff_mem_keys, contains, found]
    rfl
  rw [keys_insert, if_pos mem]

theorem keys_prefix_insert (table : Table κ α) (key : κ) (value : α) :
    table.keys <+: (table.insert key value).keys := by
  rw [keys_insert]
  split
  · exact List.prefix_rfl
  · exact List.prefix_append _ _

/-- A binding keeps the keys distinct. -/
theorem nodup_keys_insert {table : Table κ α} (distinct : table.keys.Nodup) (key : κ) (value : α) :
    (table.insert key value).keys.Nodup := by
  rw [keys_insert]
  split
  · exact distinct
  · rename_i new
    rw [List.nodup_append]
    refine ⟨distinct, by simp, ?_⟩
    rintro other mem _ same rfl
    exact new (List.mem_singleton.mp same ▸ mem)

end Table

end FlowScript
