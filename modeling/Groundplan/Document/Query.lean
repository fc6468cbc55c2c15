import Groundplan.Document.Basic

/-!
# Questions about documents

A predicate is a datum that a block's properties are held against: a mapping asks for its keys and
leaves others alone, a sequence asks for one of its length, item by item, and a scalar for an equal
one, truth values apart from numbers. A reference asks for its token. A question about what is not
there is answered with no.
-/

namespace Groundplan

namespace Datum

/-- Equality of atoms with truth values apart from numbers. -/
def satisfiesAtom (actual expected : Atom) : Bool :=
  match actual, expected with
  | .scalar (.bool a), .scalar (.bool b) => a == b
  | .scalar (.bool _), _ => false
  | _, .scalar (.bool _) => false
  | a, e => a.eqValue e

mutual
/-- Whether a datum has all that another asks for. Embeds `matches_predicate`. -/
def satisfies (actual : Datum) : Datum → Bool
  | .mapping _ es =>
      match actual with
      | .mapping _ as => satisfiesEntries as es
      | _ => false
  | .sequence _ items =>
      match actual with
      | .sequence _ as => as.length == items.length && satisfiesItems as items
      | _ => false
  | .atom e =>
      match actual with
      | .atom a => satisfiesAtom a e
      | _ => false
  | .loop _ => false

/-- Whether entries have what every entry of others asks for. -/
def satisfiesEntries (actual : Entries Datum) : List (Key × Datum) → Bool
  | [] => true
  | (k, e) :: es =>
      (match actual.get? k with
        | some a => satisfies a e
        | none => false) && satisfiesEntries actual es

/-- Whether items have what others ask for, one by one. -/
def satisfiesItems (actual : List Datum) : List Datum → Bool
  | [] => true
  | e :: es =>
      match actual with
      | [] => true
      | a :: as => satisfies a e && satisfiesItems as es
end

end Datum

namespace Workspace

/-- A value as a predicate: a reference asks for its token, since that is what stands for it in a
document. -/
def predicate (w : Workspace) (v : Value) : Datum := (w.heap.datum v).withTokens w.token

/-- Whether a value has all that another asks for. A value that contains itself is read deeper than it
is asked about. -/
def satisfies (w : Workspace) (actual expected : Value) : Bool :=
  let asked := w.predicate expected
  (w.heap.unrolled (asked.depth + 1) actual).satisfies asked

end Workspace

/-- A predicate that is no mapping. -/
structure PredicateFault where
  typeName : String
deriving DecidableEq

/-- The message about a predicate that is no mapping. -/
def PredicateFault.message (f : PredicateFault) : String :=
  s!"Property predicate must be a mapping, got {f.typeName}."

namespace Document

/-- What the section of a kind has under a type; only a text is the name of one. -/
def ofType? (doc : Document) (kind : BlockKind) (type : Datum) : Option Datum :=
  type.text?.bind fun s => (doc.entriesOf kind).get? (.text s)

/-- Whether a document has any block of a kind and type. Embeds `has_resource_of_type`,
`has_data_source_of_type` and `has_provider`. -/
def hasType (doc : Document) (kind : BlockKind) (type : Datum) : Bool :=
  ((doc.ofType? kind type).map Datum.isTruthy).getD false

/-- The bodies that stand under a type: configurations of a provider in a list, all others by id. -/
def bodiesOf : BlockKind → Datum → List Datum
  | .provider, .sequence _ items => items
  | .provider, _ => []
  | _, d => d.entries.values

/-- The bodies of the blocks of a kind and type. -/
def bodies (doc : Document) (kind : BlockKind) (type : Datum) : List Datum :=
  ((doc.ofType? kind type).map (bodiesOf kind)).getD []

/-- How many blocks of a kind and type a document has. Embeds `count_resources`. -/
def count (doc : Document) (kind : BlockKind) (type : Datum) : Nat :=
  (doc.bodies kind type).length

/-- Refuses a predicate that is no mapping. Embeds `_check_predicate`. -/
def checkPredicate (predicate : Datum) : Except PredicateFault Unit :=
  match predicate with
  | .mapping _ _ => .ok ()
  | d => .error ⟨d.typeName⟩

/-- Whether some block of a kind and type has what a predicate asks for. Embeds
`has_resource_with_properties`, `has_data_source_with_properties` and
`has_provider_with_properties`. -/
def hasTypeWith (doc : Document) (kind : BlockKind) (type predicate : Datum) :
    Except PredicateFault Bool := do
  checkPredicate predicate
  return (doc.bodies kind type).any fun body => body.satisfies predicate

/-- The resources of a type with their ids, or those of them that have what a predicate asks for.
Embeds `find_resources`. -/
def findResources (doc : Document) (type : Datum) (predicate : Option Datum) :
    Except PredicateFault (Entries Datum) := do
  let found := ((doc.ofType? .resource type).map Datum.entries).getD []
  match predicate with
  | none => return found
  | some p =>
      checkPredicate p
      return found.filter fun (_, body) => body.satisfies p

/-- The types of resource that a document has any of, in order. Embeds `resource_types`. -/
def resourceTypes (doc : Document) : List Key :=
  ((doc.entriesOf .resource).filter fun (_, byId) => byId.isTruthy).map (·.1)

/-- How many blocks a document has, kind by kind and type by type; outputs one by one. -/
structure Summary where
  stack : String
  blocks : List (BlockKind × Entries Nat)

/-- The counts of the section of a kind. -/
def counts (kind : BlockKind) (entries : Entries Datum) : Entries Nat :=
  match kind with
  | .output => entries.mapValues fun _ => 1
  | _ => entries.mapValues Datum.size

/-- The counts of a document. Embeds `summarize_document`. -/
def summary (doc : Document) : Summary where
  stack := doc.stackName
  blocks := (BlockKind.all.filter doc.hasSection).map fun kind =>
    (kind, counts kind (doc.entriesOf kind))

/-- A summary as a datum. -/
def Summary.toDatum (s : Summary) : Datum :=
  .record
    [("stack", .text s.stack),
     ("blocks", .mapping false (s.blocks.map fun (kind, types) =>
        (kind.key, .mapping false (types.mapValues fun n => Datum.int (Int.ofNat n)))))]

end Document

end Groundplan
