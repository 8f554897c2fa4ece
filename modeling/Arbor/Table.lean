/-!
Finite tables that remember the order in which their keys came in. Writing an old key
keeps its place, writing a new one appends it. Main statement: reading after `insert`
and `erase` is reading the written function.
-/
namespace Arbor

/-- Rows of a table, oldest key first. -/
structure Table (α β : Type) where
  entries : List (α × β) := []
deriving DecidableEq

namespace Table
variable {α β : Type}

instance : EmptyCollection (Table α β) := ⟨⟨[]⟩⟩
instance : Inhabited (Table α β) := ⟨∅⟩

def keys (t : Table α β) : List α := t.entries.map (·.1)
def values (t : Table α β) : List β := t.entries.map (·.2)
def size (t : Table α β) : Nat := t.entries.length

variable [DecidableEq α]

/-- The first row whose key is `k`. -/
def find (k : α) : List (α × β) → Option β
  | [] => none
  | (a, b) :: rest => if a = k then some b else find k rest

/-- Overwrites the first row whose key is `k`, or appends a row. -/
def put (k : α) (v : β) : List (α × β) → List (α × β)
  | [] => [(k, v)]
  | (a, b) :: rest => if a = k then (k, v) :: rest else (a, b) :: put k v rest

def get? (t : Table α β) (k : α) : Option β := find k t.entries
def contains (t : Table α β) (k : α) : Bool := (t.get? k).isSome
def insert (t : Table α β) (k : α) (v : β) : Table α β := ⟨put k v t.entries⟩
def erase (t : Table α β) (k : α) : Table α β := ⟨t.entries.filter (·.1 ≠ k)⟩

@[simp] theorem get?_empty (k : α) : (∅ : Table α β).get? k = none := rfl

theorem find_put (k j : α) (v : β) (rows : List (α × β)) :
    find j (put k v rows) = if k = j then some v else find j rows := by
  induction rows with
  | nil => simp [put, find]
  | cons row rest ih =>
    obtain ⟨a, b⟩ := row
    by_cases h : a = k
    · subst h
      by_cases hj : a = j <;> simp [put, find, hj]
    · by_cases hj : a = j
      · subst hj
        simp [put, find, h, Ne.symm h]
      · simp [put, find, h, hj, ih]

@[simp] theorem get?_insert (t : Table α β) (k j : α) (v : β) :
    (t.insert k v).get? j = if k = j then some v else t.get? j :=
  find_put k j v t.entries

theorem mem_values_of_find {k : α} {v : β} {rows : List (α × β)} (h : find k rows = some v) :
    v ∈ rows.map (·.2) := by
  induction rows with
  | nil => simp [find] at h
  | cons row rest ih =>
    obtain ⟨a, b⟩ := row
    rw [find] at h
    split at h
    · simp [Option.some.inj h]
    · exact List.mem_cons_of_mem _ (ih h)

theorem mem_values_of_get? {t : Table α β} {k : α} {v : β} (h : t.get? k = some v) :
    v ∈ t.values :=
  mem_values_of_find h

theorem mem_values_of_put {k : α} {v w : β} {rows : List (α × β)}
    (h : w ∈ (put k v rows).map (·.2)) : w = v ∨ w ∈ rows.map (·.2) := by
  induction rows with
  | nil => exact .inl (List.mem_singleton.mp h)
  | cons row rest ih =>
    obtain ⟨a, b⟩ := row
    rw [put] at h
    split at h
    · exact (List.mem_cons.mp h).imp id (List.mem_cons_of_mem _)
    · rcases List.mem_cons.mp h with rfl | h
      · exact .inr List.mem_cons_self
      · exact (ih h).imp id (List.mem_cons_of_mem _)

theorem mem_values_of_insert {t : Table α β} {k : α} {v w : β} (h : w ∈ (t.insert k v).values) :
    w = v ∨ w ∈ t.values :=
  mem_values_of_put h

theorem mem_values_of_erase {t : Table α β} {k : α} {w : β} (h : w ∈ (t.erase k).values) :
    w ∈ t.values :=
  (List.filter_sublist.map _).subset h

theorem find_filter (k j : α) (rows : List (α × β)) :
    find j (rows.filter (·.1 ≠ k)) = if k = j then none else find j rows := by
  induction rows with
  | nil => simp [find]
  | cons row rest ih =>
    obtain ⟨a, b⟩ := row
    by_cases h : a = k
    · subst h
      by_cases hj : a = j
      · simp [hj] at ih ⊢
        exact ih
      · simp [find, hj] at ih ⊢
        exact ih
    · by_cases hj : a = j
      · subst hj
        simp [find, h, Ne.symm h]
      · simp [find, h, hj] at ih ⊢
        exact ih

@[simp] theorem get?_erase (t : Table α β) (k j : α) :
    (t.erase k).get? j = if k = j then none else t.get? j :=
  find_filter k j t.entries

end Table

end Arbor
