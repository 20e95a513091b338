/-!
Tables with text keys that keep the order in which keys first appeared.
-/

namespace Typings

/-- Entries in order of first appearance, one for each key. -/
structure Table (α : Type) where
  entries : List (String × α) := []

namespace Table

variable {α β : Type}

def empty : Table α := {}

def get? (t : Table α) (key : String) : Option α :=
  t.entries.lookup key

def has (t : Table α) (key : String) : Bool :=
  (t.get? key).isSome

/-- The entries with one set: in place if the key is there,
at the end if not. -/
def putIn (key : String) (value : α) : List (String × α) → List (String × α)
  | [] => [(key, value)]
  | (k, v) :: rest =>
      if key == k then (k, value) :: rest else (k, v) :: putIn key value rest

def put (t : Table α) (key : String) (value : α) : Table α :=
  ⟨putIn key value t.entries⟩

def keys (t : Table α) : List String :=
  t.entries.map (·.1)

def values (t : Table α) : List α :=
  t.entries.map (·.2)

def sortedKeys (t : Table α) : List String :=
  t.keys.mergeSort fun a b => decide (a ≤ b)

theorem lookup_putIn (key key' : String) (value : α)
    (entries : List (String × α)) :
    (putIn key value entries).lookup key' =
      if key' == key then some value else entries.lookup key' := by
  induction entries with
  | nil =>
    simp only [putIn, List.lookup_cons, List.lookup_nil]
    cases key' == key <;> rfl
  | cons e rest ih =>
    obtain ⟨k, v⟩ := e
    by_cases h : key = k
    · subst h
      simp only [putIn, beq_self_eq_true, if_true, List.lookup_cons]
      cases key' == key <;> rfl
    · have hk : (key == k) = false := by simpa using h
      simp only [putIn, hk, Bool.false_eq_true, if_false, List.lookup_cons]
      by_cases h' : key' = k
      · subst h'
        have : (key' == key) = false := by simpa using Ne.symm h
        simp [this]
      · have : (key' == k) = false := by simpa using h'
        simp only [this]
        exact ih

/-- Setting one key changes what is under it and nothing else. -/
theorem get?_put (t : Table α) (key key' : String) (value : α) :
    (t.put key value).get? key' =
      if key' == key then some value else t.get? key' :=
  lookup_putIn key key' value t.entries

end Table

end Typings
