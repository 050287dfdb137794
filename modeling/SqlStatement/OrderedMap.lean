/-!
# Maps in order of insertion

A map is a list of pairs without repeated keys. Writing a key that is present
keeps its place; a new key goes last; erasing a key keeps the order of the
others.
-/
namespace SqlStatement

/-- Pairs of a key and a value, in the order in which the keys were first written. -/
structure OrderedMap (κ : Type) (α : Type) where
  toList : List (κ × α) := []
  deriving Repr

namespace OrderedMap
variable {κ α : Type} [DecidableEq κ]

instance : Inhabited (OrderedMap κ α) := ⟨⟨[]⟩⟩
instance : EmptyCollection (OrderedMap κ α) := ⟨⟨[]⟩⟩
instance [DecidableEq α] : DecidableEq (OrderedMap κ α)
  | ⟨a⟩, ⟨b⟩ => if h : a = b then .isTrue (h ▸ rfl) else .isFalse (fun e => h (by cases e; rfl))

/-- The value of the first pair with the key. -/
def find? (key : κ) : List (κ × α) → Option α
  | [] => none
  | (k, v) :: rest => if k = key then some v else find? key rest

/-- Overwrites the first pair with the key, or adds a pair at the end. -/
def write (key : κ) (value : α) : List (κ × α) → List (κ × α)
  | [] => [(key, value)]
  | (k, v) :: rest => if k = key then (k, value) :: rest else (k, v) :: write key value rest

/-- The value of a key. -/
def get? (m : OrderedMap κ α) (key : κ) : Option α := find? key m.toList

/-- Whether a key is present. -/
def contains (m : OrderedMap κ α) (key : κ) : Bool := (m.get? key).isSome

/-- Writes a key: a present key keeps its place, a new key goes last. -/
def insert (m : OrderedMap κ α) (key : κ) (value : α) : OrderedMap κ α :=
  ⟨write key value m.toList⟩

/-- Removes a key and keeps the order of the others. -/
def erase (m : OrderedMap κ α) (key : κ) : OrderedMap κ α :=
  ⟨m.toList.filter (·.1 ≠ key)⟩

/-- Writes the pairs of a list one after the other. -/
def ofList (pairs : List (κ × α)) : OrderedMap κ α :=
  pairs.foldl (fun (m : OrderedMap κ α) p => m.insert p.1 p.2) ⟨[]⟩

/-- The keys in order. -/
def keys (m : OrderedMap κ α) : List κ := m.toList.map (·.1)

/-- The number of keys. -/
def size (m : OrderedMap κ α) : Nat := m.toList.length

/-- Whether there is no key. -/
def isEmpty (m : OrderedMap κ α) : Bool := m.toList.isEmpty

/-- Changes every value and keeps the keys. -/
def mapValues {β : Type} (f : α → β) (m : OrderedMap κ α) : OrderedMap κ β :=
  ⟨m.toList.map fun p => (p.1, f p.2)⟩

@[simp] theorem find?_write_self (key : κ) (value : α) (l : List (κ × α)) :
    find? key (write key value l) = some value := by
  induction l with
  | nil => simp [write, find?]
  | cons p rest ih =>
    obtain ⟨k, v⟩ := p
    by_cases h : k = key <;> simp [write, find?, h, ih]

theorem find?_write_of_ne {key other : κ} (h : key ≠ other) (value : α) (l : List (κ × α)) :
    find? other (write key value l) = find? other l := by
  induction l with
  | nil => simp [write, find?, h]
  | cons p rest ih =>
    obtain ⟨k, v⟩ := p
    by_cases hk : k = key
    · subst hk
      simp [write, find?, h]
    · simp only [write, hk, if_false, find?, ih]

@[simp] theorem get?_insert_self (m : OrderedMap κ α) (key : κ) (value : α) :
    (m.insert key value).get? key = some value := find?_write_self key value m.toList

theorem get?_insert_of_ne (m : OrderedMap κ α) {key other : κ} (h : key ≠ other) (value : α) :
    (m.insert key value).get? other = m.get? other := find?_write_of_ne h value m.toList

/-- A present key keeps its place. -/
theorem keys_insert_of_contains (m : OrderedMap κ α) (key : κ) (value : α)
    (h : m.contains key = true) : (m.insert key value).keys = m.keys := by
  obtain ⟨l⟩ := m
  simp only [contains, get?, insert, keys] at h ⊢
  induction l with
  | nil => simp [find?] at h
  | cons p rest ih =>
    obtain ⟨k, v⟩ := p
    by_cases hk : k = key
    · simp [write, hk]
    · simp only [find?, hk, if_false] at h
      simp [write, hk, ih h]

end OrderedMap
end SqlStatement
