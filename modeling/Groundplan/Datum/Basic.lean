import Groundplan.Datum.Entries

/-!
# Data

A datum is a value read through all its containers: sequences, which are lists or fixed tuples,
and mappings, which are open or fixed. Where reading meets a container inside itself there stands a
`loop`; a datum without loops is a finite value, such as every document and every JSON text is.
-/

namespace Groundplan

/-- The kinds of container. -/
inductive Container where
  | list
  | tuple
  | mapping
  | view
deriving DecidableEq

/-- A value read through all its containers. -/
inductive Datum where
  | atom (a : Atom)
  | loop (container : Container)
  | sequence (fixed : Bool) (items : List Datum)
  | mapping (fixed : Bool) (entries : List (Key × Datum))

namespace Datum

/-- The datum that is a scalar. -/
abbrev scalar (s : Scalar) : Datum := .atom (.scalar s)

/-- The datum that is a text. -/
abbrev text (s : String) : Datum := .scalar (.text s)

/-- The datum that is an integer. -/
abbrev int (i : Int) : Datum := .scalar (.int i)

/-- The datum that is a truth value. -/
abbrev bool (b : Bool) : Datum := .scalar (.bool b)

/-- The datum that is nothing. -/
abbrev null : Datum := .scalar .null

/-- A list of data. -/
abbrev list (items : List Datum) : Datum := .sequence false items

/-- An open mapping from texts. -/
def record (fields : List (String × Datum)) : Datum :=
  .mapping false (fields.map fun (k, v) => (.text k, v))

instance : Inhabited Datum := ⟨.null⟩

/-- The text that a datum is. -/
def text? : Datum → Option String
  | .atom (.scalar (.text s)) => some s
  | _ => none

/-- The entries of a mapping. -/
def entries? : Datum → Option (Entries Datum)
  | .mapping _ es => some es
  | _ => none

/-- The entries of a mapping; anything else has none. -/
def entries (d : Datum) : Entries Datum := d.entries?.getD []

/-- What a text key of a mapping leads to. -/
def field? (d : Datum) (name : String) : Option Datum := d.entries.get? (.text name)

/-- Something other than an empty container or an atom that counts as nothing. -/
def isTruthy : Datum → Bool
  | .atom a => a.isTruthy
  | .loop _ => true
  | .sequence _ items => !items.isEmpty
  | .mapping _ es => !es.isEmpty

/-- How many parts a container has. -/
def size : Datum → Nat
  | .sequence _ items => items.length
  | .mapping _ es => es.length
  | _ => 0

mutual
/-- How many containers deep a datum is. -/
def depth : Datum → Nat
  | .atom _ => 0
  | .loop _ => 1
  | .sequence _ items => depthOfItems items + 1
  | .mapping _ es => depthOfEntries es + 1

/-- The depth of the deepest item. -/
def depthOfItems : List Datum → Nat
  | [] => 0
  | d :: ds => max (depth d) (depthOfItems ds)

/-- The depth of the deepest that a key leads to. -/
def depthOfEntries : List (Key × Datum) → Nat
  | [] => 0
  | (_, d) :: es => max (depth d) (depthOfEntries es)
end

mutual
/-- One and the same datum, or two of equal value: mappings whatever their order and whether or not
they are fixed, sequences item by item. -/
def same : Datum → Datum → Bool
  | .atom a, b => match b with
    | .atom b => a.same b
    | _ => false
  | .sequence f as, b => match b with
    | .sequence g bs => f == g && sameItems as bs
    | _ => false
  | .mapping _ as, b => match b with
    | .mapping _ bs => as.length == bs.length && sameEntries as bs
    | _ => false
  | .loop _, _ => false

/-- Items that are the same one by one. -/
def sameItems : List Datum → List Datum → Bool
  | [], bs => bs.isEmpty
  | a :: as, bs => match bs with
    | [] => false
    | b :: bs => same a b && sameItems as bs

/-- Every entry of the first mapping has its like in the second. -/
def sameEntries : List (Key × Datum) → Entries Datum → Bool
  | [], _ => true
  | (k, a) :: as, bs =>
      (match bs.get? k with
        | some b => same a b
        | none => false) && sameEntries as bs
end

mutual
/-- The datum with every container fixed, or none. -/
def withFixed (fixed : Bool) : Datum → Datum
  | .atom a => .atom a
  | .loop c => .loop c
  | .sequence _ items => .sequence fixed (withFixedItems fixed items)
  | .mapping _ es => .mapping fixed (withFixedEntries fixed es)

/-- `withFixed` of every item. -/
def withFixedItems (fixed : Bool) : List Datum → List Datum
  | [] => []
  | d :: ds => withFixed fixed d :: withFixedItems fixed ds

/-- `withFixed` of everything that keys lead to. -/
def withFixedEntries (fixed : Bool) : List (Key × Datum) → List (Key × Datum)
  | [] => []
  | (k, d) :: es => (k, withFixed fixed d) :: withFixedEntries fixed es
end

/-- The datum as a document keeps it: all sequences are tuples and all mappings fixed. Embeds
`freeze`. -/
def freeze (d : Datum) : Datum := d.withFixed true

/-- The datum as a caller may change it: all sequences are lists and all mappings open. Embeds
`thaw`. -/
def thaw (d : Datum) : Datum := d.withFixed false

mutual
/-- The datum with each reference replaced by a text. -/
def withTokens (token : Reference → String) : Datum → Datum
  | .atom (.reference r) => .text (token r)
  | .atom a => .atom a
  | .loop c => .loop c
  | .sequence f items => .sequence f (withTokensItems token items)
  | .mapping f es => .mapping f (withTokensEntries token es)

/-- `withTokens` of every item. -/
def withTokensItems (token : Reference → String) : List Datum → List Datum
  | [] => []
  | d :: ds => withTokens token d :: withTokensItems token ds

/-- `withTokens` of everything that keys lead to. -/
def withTokensEntries (token : Reference → String) : List (Key × Datum) → List (Key × Datum)
  | [] => []
  | (k, d) :: es => (k, withTokens token d) :: withTokensEntries token es
end

/-- Freezing every item is `freeze` item by item. -/
@[simp] theorem withFixedItems_eq_map (fixed : Bool) (ds : List Datum) :
    withFixedItems fixed ds = ds.map (withFixed fixed) := by
  induction ds with
  | nil => rfl
  | cons d ds ih => simp [withFixedItems, ih]

/-- Freezing entries keeps keys and order. -/
@[simp] theorem withFixedEntries_eq_map (fixed : Bool) (es : List (Key × Datum)) :
    withFixedEntries fixed es = es.map fun (k, d) => (k, withFixed fixed d) := by
  induction es with
  | nil => rfl
  | cons e es ih => obtain ⟨k, d⟩ := e; simp [withFixedEntries, ih]

end Datum

end Groundplan
