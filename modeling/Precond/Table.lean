/-! Tables: keys with values in the order in which the keys came. A key that is put again keeps its
place. -/

namespace Precond

abbrev Table (κ α : Type) := List (κ × α)

namespace Table

variable {κ α : Type} [DecidableEq κ]

def put (t : Table κ α) (key : κ) (value : α) : Table κ α :=
  match t with
  | [] => [(key, value)]
  | e :: rest => if e.1 = key then (key, value) :: rest else e :: put rest key value

def without (t : Table κ α) (key : κ) : Table κ α := t.filter fun e => e.1 ≠ key

/-- Change the value of a key. -/
def adjust (t : Table κ α) (key : κ) (f : α → α) : Table κ α :=
  t.map fun e => if e.1 = key then (e.1, f e.2) else e

def keys (t : Table κ α) : List κ := t.map (·.1)

theorem lookup_put_self (t : Table κ α) (key : κ) (value : α) :
    (t.put key value).lookup key = some value := by
  induction t with
  | nil => simp [put]
  | cons e rest ih =>
    obtain ⟨k, v⟩ := e
    by_cases h : k = key
    · simp [put, h]
    · simp [put, h, List.lookup_cons, beq_false_of_ne (Ne.symm h), ih]

theorem lookup_put_of_ne (t : Table κ α) {key k : κ} (value : α) (h : k ≠ key) :
    (t.put key value).lookup k = t.lookup k := by
  induction t with
  | nil => simp [put, List.lookup_cons, beq_false_of_ne h]
  | cons e rest ih =>
    obtain ⟨k', v⟩ := e
    by_cases he : k' = key
    · simp [put, he, List.lookup_cons, beq_false_of_ne h]
    · simp [put, he, List.lookup_cons, ih]

end Table

end Precond
