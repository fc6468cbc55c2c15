import Groundplan.Datum.Scalar

/-!
# Entries

The entries of a mapping in the order in which their keys came first. Setting a key that is present
keeps its place and the key as it was first written.
-/

namespace Groundplan

/-- Keys with what they lead to, in order. -/
abbrev Entries (α : Type) := List (Key × α)

namespace Entries

variable {α β : Type}

/-- What a key leads to. -/
def get? (entries : Entries α) (key : Key) : Option α :=
  (entries.find? fun e => key.same e.1).map (·.2)

/-- Whether a key is present. -/
def has (entries : Entries α) (key : Key) : Bool := entries.any fun e => key.same e.1

/-- The entries with a key leading to a new value. -/
def set : Entries α → Key → α → Entries α
  | [], key, value => [(key, value)]
  | (k, v) :: rest, key, value =>
      if key.same k then (k, value) :: rest else (k, v) :: set rest key value

/-- The entries after setting those of a list one by one. -/
def setAll (entries : Entries α) (more : Entries α) : Entries α :=
  more.foldl (fun es (k, v) => es.set k v) entries

/-- The entries of a list in which a key may come again. -/
def ofList (list : List (Key × α)) : Entries α := setAll [] list

/-- What the keys lead to, in order. -/
def values (entries : Entries α) : List α := entries.map (·.2)

/-- The keys, in order. -/
def keys (entries : Entries α) : List Key := entries.map (·.1)

/-- The entries with all they lead to changed. -/
def mapValues (f : α → β) (entries : Entries α) : Entries β :=
  entries.map fun (k, v) => (k, f v)

/-- A key is present exactly if it leads to something. -/
theorem has_eq_isSome_get? (entries : Entries α) (key : Key) :
    entries.has key = (entries.get? key).isSome := by
  induction entries with
  | nil => rfl
  | cons e rest ih =>
    by_cases h : key.same e.1 = true <;> simp_all [has, get?]

/-- A text key leads to what it was just set to. -/
theorem get?_set_text (entries : Entries α) (s : String) (value : α) :
    (entries.set (.text s) value).get? (.text s) = some value := by
  induction entries with
  | nil => simp [set, get?]
  | cons e rest ih =>
    obtain ⟨k, v⟩ := e
    by_cases h : (Key.text s).same k = true
    · simp [set, get?, h]
    · have h' := Bool.eq_false_iff.2 h
      simp only [get?] at ih
      simp [set, get?, h', ih]

end Entries

end Groundplan
