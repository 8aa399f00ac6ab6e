/-
  This file defines tables from names to values.  A table
  lists its rows in ascending order of the names, each name
  once, so that tables with the same rows are equal.

  Key definitions include:
    * `Table`
    * `Table.find?`
    * `Table.insert`
    * `Table.erase`
    * `Table.contains`
    * `Table.ofList`
    * `Names`

  Main statements:
    * `Table.find?_insert` and `Table.find?_erase` say what
      a table holds after a change.
    * `Table.find?_ofList` says what a table of listed rows
      holds.
    * `Table.ext_find?` says that a table is determined by
      what it holds.
    * `Table.ofList_rows` says that a table is that of its
      rows.
-/

namespace QuantumLab

------------------------------------------------------------
-- Rows in ascending order
------------------------------------------------------------

/- Rows whose names ascend strictly. -/
def Ascending {α : Type} (rows : List (String × α)) : Prop :=
  rows.Pairwise (fun p q => p.1 < q.1)

namespace Rows

variable {α : Type}

/- The value under a name. -/
def find? (name : String) : List (String × α) → Option α
  | [] => none
  | (key, value) :: rows =>
      if key = name then some value else find? name rows

/- The rows with a name set to a value. -/
def insert
    (name : String)
    (value : α) : List (String × α) → List (String × α)
  | [] => [(name, value)]
  | (key, old) :: rows =>
      if name < key then (name, value) :: (key, old) :: rows
      else if name = key then (name, value) :: rows
      else (key, old) :: insert name value rows

/- The rows without a name. -/
def erase
    (name : String)
    (rows : List (String × α)) : List (String × α) :=
  rows.filter (fun row => row.1 ≠ name)

theorem mem_insert
    {name : String}
    {value : α}
    {rows : List (String × α)}
    {row : String × α}
    (h : row ∈ insert name value rows) :
    row = (name, value) ∨ row ∈ rows := by
  induction rows with
  | nil => simpa [insert] using h
  | cons head rows ih =>
      obtain ⟨key, old⟩ := head
      simp only [insert] at h
      split at h
      · simpa using h
      · split at h
        · rcases List.mem_cons.1 h with h | h
          · exact .inl h
          · exact .inr (List.mem_cons_of_mem _ h)
        · rcases List.mem_cons.1 h with h | h
          · exact .inr (h ▸ List.mem_cons_self)
          · exact (ih h).imp_right (List.mem_cons_of_mem _)

/- Inserting keeps rows in ascending order. -/
theorem ascending_insert
    (name : String)
    (value : α)
    {rows : List (String × α)}
    (h : Ascending rows) :
    Ascending (insert name value rows) := by
  induction rows with
  | nil => simp [insert, Ascending]
  | cons head rows ih =>
      obtain ⟨key, old⟩ := head
      obtain ⟨hhead, htail⟩ := List.pairwise_cons.1 h
      simp only [insert]
      split
      · rename_i hlt
        refine List.pairwise_cons.2 ⟨?_, h⟩
        intro row hrow
        rcases List.mem_cons.1 hrow with hrow | hrow
        · exact hrow ▸ hlt
        · exact String.lt_trans hlt (hhead row hrow)
      · split
        · rename_i heq
          subst heq
          exact List.pairwise_cons.2 ⟨hhead, htail⟩
        · rename_i hlt hne
          refine List.pairwise_cons.2 ⟨?_, ih htail⟩
          intro row hrow
          rcases mem_insert hrow with hrow | hrow
          · subst hrow
            rcases String.le_total key name with hle | hle
            · rcases Classical.em (key < name) with h' | h'
              · exact h'
              · exact absurd
                  (String.le_antisymm (String.not_lt.1 h') hle) hne
            · exact absurd
                (String.le_antisymm hle (String.not_lt.1 hlt)) hne
          · exact hhead row hrow

/- Erasing keeps rows in ascending order. -/
theorem ascending_erase
    (name : String)
    {rows : List (String × α)}
    (h : Ascending rows) :
    Ascending (erase name rows) :=
  List.Pairwise.filter _ h

/- What rows hold after an insertion. -/
theorem find?_insert
    (name other : String)
    (value : α)
    (rows : List (String × α)) :
    find? other (insert name value rows) =
      if name = other then some value else find? other rows := by
  induction rows with
  | nil => simp [insert, find?]
  | cons head rows ih =>
      obtain ⟨key, old⟩ := head
      simp only [insert]
      split
      · simp [find?]
      · split
        · rename_i heq
          subst heq
          by_cases h : name = other <;> simp [find?, h]
        · rename_i hne
          simp only [find?, ih]
          by_cases h : key = other
          · have : name ≠ other := fun h' => hne (h'.trans h.symm)
            simp [h, this]
          · simp [h]

/- What rows hold after an erasure. -/
theorem find?_erase
    (name other : String)
    (rows : List (String × α)) :
    find? other (erase name rows) =
      if name = other then none else find? other rows := by
  induction rows with
  | nil => simp [erase, find?]
  | cons head rows ih =>
      obtain ⟨key, old⟩ := head
      rw [erase] at ih
      rw [erase, List.filter_cons]
      by_cases hkey : key = name
      · subst hkey
        by_cases h : key = other <;> simp_all [find?]
      · by_cases h : key = other
        · subst h
          have hne : name ≠ key := fun h => hkey h.symm
          simp [find?, hkey, hne]
        · by_cases h' : name = other <;> simp_all [find?]

/- A row of ascending rows is found under its name. -/
theorem find?_of_mem
    {rows : List (String × α)}
    (h : Ascending rows)
    {name : String}
    {value : α}
    (hmem : (name, value) ∈ rows) :
    find? name rows = some value := by
  induction rows with
  | nil => cases hmem
  | cons head rows ih =>
      obtain ⟨key, old⟩ := head
      obtain ⟨hhead, htail⟩ := List.pairwise_cons.1 h
      rcases List.mem_cons.1 hmem with heq | hmem
      · cases heq
        simp [find?]
      · have hlt : key < name := hhead _ hmem
        have hne : key ≠ name := fun heq =>
          String.lt_irrefl name (heq ▸ hlt)
        simp [find?, hne, ih htail hmem]

/- Rows that come first are found first. -/
theorem find?_append
    (name : String)
    (rows later : List (String × α)) :
    find? name (rows ++ later) =
      (find? name rows).or (find? name later) := by
  induction rows with
  | nil => rfl
  | cons head rows ih =>
      obtain ⟨key, old⟩ := head
      by_cases h : key = name <;> simp [find?, h, ih]

/- What is found is a row. -/
theorem mem_of_find?
    {rows : List (String × α)}
    {name : String}
    {value : α}
    (h : find? name rows = some value) :
    (name, value) ∈ rows := by
  induction rows with
  | nil => simp [find?] at h
  | cons head rows ih =>
      obtain ⟨key, old⟩ := head
      simp only [find?] at h
      split at h
      · rename_i heq
        cases h
        exact heq ▸ List.mem_cons_self
      · exact List.mem_cons_of_mem _ (ih h)

end Rows

------------------------------------------------------------
-- Tables
------------------------------------------------------------

/-
  A finite map from names to values, by its rows in
  ascending order.
-/
structure Table (α : Type) where
  rows : List (String × α)
  ascending : Ascending rows

/- A set of names is a table without values. -/
abbrev Names :=
  Table Unit

namespace Table

variable {α : Type}

instance [DecidableEq α] : DecidableEq (Table α) :=
  fun s t =>
    if h : s.rows = t.rows then
      .isTrue (by cases s; cases t; cases h; rfl)
    else
      .isFalse (fun heq => h (heq ▸ rfl))

instance [Repr α] : Repr (Table α) :=
  ⟨fun t n => reprPrec t.rows n⟩

/- The table without rows. -/
def empty : Table α :=
  ⟨[], List.Pairwise.nil⟩

instance : Inhabited (Table α) :=
  ⟨empty⟩

/- The value under a name. -/
def find? (t : Table α) (name : String) : Option α :=
  Rows.find? name t.rows

/- Whether a name has a value. -/
def contains (t : Table α) (name : String) : Bool :=
  (t.find? name).isSome

/- The table with a name set to a value. -/
def insert (t : Table α) (name : String) (value : α) : Table α :=
  ⟨Rows.insert name value t.rows,
    Rows.ascending_insert name value t.ascending⟩

/- The table without a name. -/
def erase (t : Table α) (name : String) : Table α :=
  ⟨Rows.erase name t.rows, Rows.ascending_erase name t.ascending⟩

/-
  The table of a list of rows, where a later row replaces
  an earlier one.
-/
def ofList (rows : List (String × α)) : Table α :=
  rows.foldl (fun t row => t.insert row.1 row.2) empty

/- The set with one more name. -/
def add (names : Names) (name : String) : Names :=
  names.insert name ()

/- The names with a value, in ascending order. -/
def keys (t : Table α) : List String :=
  t.rows.map Prod.fst

@[simp] theorem find?_empty
    (name : String) :
    (empty : Table α).find? name = none :=
  rfl

theorem find?_insert
    (t : Table α)
    (name other : String)
    (value : α) :
    (t.insert name value).find? other =
      if name = other then some value else t.find? other :=
  Rows.find?_insert name other value t.rows

theorem find?_erase
    (t : Table α)
    (name other : String) :
    (t.erase name).find? other =
      if name = other then none else t.find? other :=
  Rows.find?_erase name other t.rows

@[simp] theorem find?_insert_self
    (t : Table α)
    (name : String)
    (value : α) :
    (t.insert name value).find? name = some value := by
  simp [find?_insert]

@[simp] theorem find?_erase_self
    (t : Table α)
    (name : String) :
    (t.erase name).find? name = none := by
  simp [find?_erase]

theorem contains_insert
    (t : Table α)
    (name other : String)
    (value : α) :
    (t.insert name value).contains other =
      (decide (name = other) || t.contains other) := by
  by_cases h : name = other <;> simp [contains, find?_insert, h]

theorem contains_erase
    (t : Table α)
    (name other : String) :
    (t.erase name).contains other =
      (!decide (name = other) && t.contains other) := by
  by_cases h : name = other <;> simp [contains, find?_erase, h]

/- What a table holds after rows are inserted one by one. -/
theorem find?_foldl_insert
    (rows : List (String × α))
    (t : Table α)
    (name : String) :
    (rows.foldl (fun t row => t.insert row.1 row.2) t).find? name =
      (Rows.find? name rows.reverse).or (t.find? name) := by
  induction rows generalizing t with
  | nil => rfl
  | cons head rows ih =>
      obtain ⟨key, value⟩ := head
      rw [List.foldl_cons, ih, List.reverse_cons, Rows.find?_append,
        find?_insert]
      by_cases h : key = name <;>
        cases Rows.find? name rows.reverse <;> simp [Rows.find?, h]

/- Of the rows with one name a table holds the last. -/
theorem find?_ofList
    (rows : List (String × α))
    (name : String) :
    (ofList rows).find? name = Rows.find? name rows.reverse := by
  simp [ofList, find?_foldl_insert]

/- The rows are exactly what a table holds. -/
theorem mem_rows_iff
    {t : Table α}
    {name : String}
    {value : α} :
    (name, value) ∈ t.rows ↔ t.find? name = some value :=
  ⟨Rows.find?_of_mem t.ascending, Rows.mem_of_find?⟩

/- Ascending rows with the same members are the same. -/
theorem rows_eq_of_mem_iff
    {s t : List (String × α)}
    (hs : Ascending s)
    (ht : Ascending t)
    (h : ∀ row, row ∈ s ↔ row ∈ t) :
    s = t := by
  induction s generalizing t with
  | nil =>
      cases t with
      | nil => rfl
      | cons row t =>
          exact absurd ((h row).2 List.mem_cons_self) (by simp)
  | cons p s ih =>
      cases t with
      | nil => exact absurd ((h p).1 List.mem_cons_self) (by simp)
      | cons q t =>
          obtain ⟨hp, hs⟩ := List.pairwise_cons.1 hs
          obtain ⟨hq, htail⟩ := List.pairwise_cons.1 ht
          have hpq : p = q := by
            rcases List.mem_cons.1 ((h p).1 List.mem_cons_self)
              with heq | hmem
            · exact heq
            · rcases List.mem_cons.1 ((h q).2 List.mem_cons_self)
                with heq | hmem'
              · exact heq.symm
              · exact absurd (hp q hmem')
                  (String.lt_asymm (hq p hmem))
          subst hpq
          have hne : ∀ row ∈ s, row ≠ p := fun row hrow heq =>
            String.lt_irrefl p.1 (heq ▸ hp row hrow)
          have hne' : ∀ row ∈ t, row ≠ p := fun row hrow heq =>
            String.lt_irrefl p.1 (heq ▸ hq row hrow)
          have hst : s = t := ih hs htail fun row => by
            constructor
            · intro hrow
              rcases List.mem_cons.1
                  ((h row).1 (List.mem_cons_of_mem _ hrow))
                with heq | hmem
              · exact absurd heq (hne row hrow)
              · exact hmem
            · intro hrow
              rcases List.mem_cons.1
                  ((h row).2 (List.mem_cons_of_mem _ hrow))
                with heq | hmem
              · exact absurd heq (hne' row hrow)
              · exact hmem
          rw [hst]

/- A table is determined by what it holds. -/
theorem ext_find?
    {s t : Table α}
    (h : ∀ name, s.find? name = t.find? name) :
    s = t := by
  have hrows : s.rows = t.rows :=
    rows_eq_of_mem_iff s.ascending t.ascending fun row => by
      obtain ⟨name, value⟩ := row
      rw [mem_rows_iff, mem_rows_iff, h]
  cases s
  cases t
  cases hrows
  rfl

/- A row of a table of listed rows is listed. -/
theorem mem_of_mem_ofList
    {rows : List (String × α)}
    {row : String × α}
    (hrow : row ∈ (ofList rows).rows) :
    row ∈ rows := by
  obtain ⟨name, value⟩ := row
  rw [mem_rows_iff, find?_ofList] at hrow
  exact List.mem_reverse.1 (Rows.mem_of_find? hrow)

/- A row of ascending rows is the last one with its name. -/
theorem find?_reverse_of_mem
    {rows : List (String × α)}
    (h : Ascending rows)
    {name : String}
    {value : α}
    (hmem : (name, value) ∈ rows) :
    Rows.find? name rows.reverse = some value := by
  induction rows with
  | nil => cases hmem
  | cons head rows ih =>
      obtain ⟨hhead, htail⟩ := List.pairwise_cons.1 h
      rw [List.reverse_cons, Rows.find?_append]
      rcases List.mem_cons.1 hmem with heq | hmem
      · subst heq
        cases hlater : Rows.find? name rows.reverse with
        | none => simp [Rows.find?]
        | some later =>
            have hlt := hhead _
              (List.mem_reverse.1 (Rows.mem_of_find? hlater))
            exact absurd hlt (String.lt_irrefl name)
      · rw [ih htail hmem, Option.some_or]

/- The table of ascending rows has these rows. -/
theorem rows_ofList
    {rows : List (String × α)}
    (h : Ascending rows) :
    (ofList rows).rows = rows :=
  rows_eq_of_mem_iff (ofList rows).ascending h fun row => by
    obtain ⟨name, value⟩ := row
    refine ⟨mem_of_mem_ofList, fun hmem => ?_⟩
    rw [mem_rows_iff, find?_ofList, find?_reverse_of_mem h hmem]

/- A table is that of its rows. -/
theorem ofList_rows
    (t : Table α) :
    ofList t.rows = t := by
  have hrows := rows_ofList t.ascending
  cases hlist : ofList t.rows
  cases t
  rw [hlist] at hrows
  cases hrows
  rfl

end Table

end QuantumLab
