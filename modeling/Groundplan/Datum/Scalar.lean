import Groundplan.Number.Decimal

/-!
# Scalars, keys and atoms

The values without parts. Numbers compare by exact value whatever their kind, and a truth value
counts as the number one or zero; so `true`, `1` and `1.0` are the same key of a mapping. What stands
for no number has no value to compare and is only ever the same as itself.
-/

namespace Groundplan

/-- A node of a construct tree. -/
abbrev NodeId := Nat

/-- An app. -/
abbrev AppId := Nat

/-- A null, a truth value, a number or a text. -/
inductive Scalar where
  | null
  | bool (b : Bool)
  | int (i : Int)
  | float (x : Binary64)
  | text (s : String)
deriving DecidableEq

namespace Scalar

/-- A truth value as a number. -/
def ofBool (b : Bool) : Int := if b then 1 else 0

/-- Equality of value. -/
def eqValue : Scalar → Scalar → Bool
  | .null, .null => true
  | .text s, .text t => s == t
  | .bool a, .bool b => a == b
  | .bool a, .int j => ofBool a == j
  | .int i, .bool b => i == ofBool b
  | .bool a, .float y => y.eqInt (ofBool a)
  | .float x, .bool b => x.eqInt (ofBool b)
  | .int i, .int j => i == j
  | .int i, .float y => y.eqInt i
  | .float x, .int j => x.eqInt j
  | .float x, .float y => x.eqValue y
  | _, _ => false

/-- One and the same scalar, or two of equal value. -/
def same (a b : Scalar) : Bool := a == b || a.eqValue b

/-- Neither null, false, zero nor the empty text. -/
def isTruthy : Scalar → Bool
  | .null => false
  | .bool b => b
  | .int i => i != 0
  | .float x => !x.eqInt 0
  | .text s => !s.isEmpty

/-- A scalar is the same as itself. -/
@[simp] theorem same_self (a : Scalar) : a.same a = true := by simp [same]

/-- Texts are the same exactly if they are equal. -/
@[simp] theorem same_text (s t : String) : (Scalar.text s).same (.text t) = (s == t) := by
  by_cases h : s = t <;> simp [same, eqValue, h]

end Scalar

/-- A pointer to an attribute of a declared block. Embeds `Reference`. -/
structure Reference where
  target : NodeId
  attr : String
deriving DecidableEq

/-- What is known by identity alone. -/
inductive Entity where
  | object (serial : Nat)
  | app (id : AppId)
  | node (id : NodeId) (isStack : Bool)
deriving DecidableEq

/-- What can be a key of a mapping or an element of a set. -/
inductive Key where
  | scalar (s : Scalar)
  | bytes (bytes : List UInt8)
  | tuple (items : List Key)
  | reference (r : Reference)
  | entity (e : Entity)

namespace Key

/-- The key that is a text. -/
abbrev text (s : String) : Key := .scalar (.text s)

/-- The key that is a text, or null. -/
def ofText? : Option String → Key
  | some s => .text s
  | none => .scalar .null

/-- The text that a key is. -/
def text? : Key → Option String
  | .scalar (.text s) => some s
  | _ => none

mutual
/-- One and the same key of a mapping. -/
def same : Key → Key → Bool
  | .scalar a, .scalar b => a.same b
  | .bytes a, .bytes b => a == b
  | .tuple as, .tuple bs => sameAll as bs
  | .reference a, .reference b => a == b
  | .entity a, .entity b => a == b
  | _, _ => false

/-- Keys that are the same one by one. -/
def sameAll : List Key → List Key → Bool
  | [], [] => true
  | a :: as, b :: bs => same a b && sameAll as bs
  | _, _ => false
end

/-- Two text keys are the same exactly if the texts are equal. -/
@[simp] theorem same_text (s t : String) : (text s).same (text t) = (s == t) := by
  simp [same]

/-- Only a text key is the same as a text key. -/
theorem same_text_eq_true {k : Key} {s : String} (h : (text s).same k = true) : k = text s := by
  cases k with
  | scalar a => cases a <;> simp_all [text, same, Scalar.same, Scalar.eqValue]
  | _ => simp [same] at h

end Key

/-- A value without parts that are values. -/
inductive Atom where
  | scalar (s : Scalar)
  | reference (r : Reference)
  | bytes (bytes : List UInt8)
  | set (elements : List Key)
  | entity (e : Entity)

namespace Atom

/-- Equality of value, or one and the same atom where `identity` allows for it. -/
def eqBy (scalars : Scalar → Scalar → Bool) : Atom → Atom → Bool
  | .scalar a, .scalar b => scalars a b
  | .reference a, .reference b => a == b
  | .bytes a, .bytes b => a == b
  | .set as, .set bs =>
      as.length == bs.length && as.all fun a => bs.any fun b => a.same b
  | .entity a, .entity b => a == b
  | _, _ => false

/-- Equality of value. -/
def eqValue : Atom → Atom → Bool := eqBy Scalar.eqValue

/-- One and the same atom, or two of equal value. -/
def same : Atom → Atom → Bool := eqBy Scalar.same

/-- Something other than null, false, zero, an empty text, empty bytes or an empty set. -/
def isTruthy : Atom → Bool
  | .scalar s => s.isTruthy
  | .bytes b => !b.isEmpty
  | .set es => !es.isEmpty
  | _ => true

end Atom

end Groundplan
