import Groundplan.Proofs.Sequencing
import Groundplan.Proofs.Synthesis.Resolution
import Groundplan.Workspace.Display

/-!
# The same in other words

What is refused as the body of a block is refused with the path of a place, and that path shows keys.
A key that names an app, a node or a reference looks otherwise once the tree that it belongs to has
changed. So in two namings the same datum becomes the same body, or is refused for the same cause with
paths of the same place; and with the very same words if no key names anything in a tree.
-/

namespace Groundplan

namespace Key

/-- Nothing that belongs to a tree stands in the key. -/
inductive Treeless : Key → Prop
  | scalar (s : Scalar) : Treeless (.scalar s)
  | bytes (b : List UInt8) : Treeless (.bytes b)
  | object (serial : Nat) : Treeless (.entity (.object serial))
  | tuple {items : List Key} (h : ∀ k ∈ items, Treeless k) : Treeless (.tuple items)

/-- Keys are shown one by one. -/
theorem displayAll_eq_map (naming : Naming) (ks : List Key) :
    displayAll naming ks = ks.map (display naming) := by
  induction ks with
  | nil => rfl
  | cons k ks ih => rw [displayAll, ih, List.map_cons]

/-- What is known by identity alone looks the same in every workspace. -/
private theorem entity_naming_object (w : Workspace) (serial : Nat) :
    w.naming.entity (.object serial) = "<object object>" := by
  unfold Workspace.naming Workspace.namingInside
  simp only [List.contains_nil, Bool.false_eq_true, if_false]

/-- A key that belongs to no tree looks the same whatever has become of trees. -/
theorem Treeless.display_eq {k : Key} (h : k.Treeless) (w w' : Workspace) :
    k.display w'.naming = k.display w.naming := by
  induction h with
  | scalar s => rw [display, display]
  | bytes b => rw [display, display]
  | object serial => rw [display, display, entity_naming_object, entity_naming_object]
  | tuple _ ih =>
    rw [display, display, displayAll_eq_map, displayAll_eq_map, List.map_congr_left ih]

theorem Treeless.plain_eq {k : Key} (h : k.Treeless) (w w' : Workspace) :
    k.plain w'.naming = k.plain w.naming := by
  unfold plain
  split
  · rfl
  · exact h.display_eq w w'

end Key

namespace Datum

variable {a b : Naming}

private theorem displayItems_congr {items : List Datum}
    (h : ∀ d ∈ items, d.display b = d.display a) : displayItems b items = displayItems a items := by
  induction items with
  | nil => rfl
  | cons d ds ih =>
    obtain ⟨hd, hds⟩ := List.forall_mem_cons.mp h
    rw [displayItems, displayItems, hd, ih hds]

private theorem displayEntries_congr {es : Entries Datum}
    (hkeys : ∀ k ∈ es.keys, k.display b = k.display a) (h : ∀ e ∈ es, e.2.display b = e.2.display a) :
    displayEntries b es = displayEntries a es := by
  induction es with
  | nil => rfl
  | cons e es ih =>
    obtain ⟨k, d⟩ := e
    obtain ⟨hk, hks⟩ := List.forall_mem_cons.mp hkeys
    obtain ⟨hd, hes⟩ := List.forall_mem_cons.mp h
    rw [displayEntries, displayEntries, hk, hd, ih hks hes]

/-- A datum whose atoms are scalars looks the same if its keys do. -/
theorem display_congr {d : Datum} (hatoms : ∀ x, Within (.atom x) d → ∃ s, x = .scalar s)
    (hkeys : d.AllKeys fun ks => ∀ k ∈ ks, k.display b = k.display a) :
    d.display b = d.display a := by
  induction d using Datum.induction with
  | atom x =>
    obtain ⟨s, rfl⟩ := hatoms x (.refl _)
    rfl
  | loop c => cases c <;> rfl
  | sequence fixed items ih =>
    have hitems : displayItems b items = displayItems a items :=
      displayItems_congr fun d hd =>
        ih d hd (fun x hx => hatoms x (.item hd hx)) ((everywhere_sequence.mp hkeys).2 d hd)
    cases fixed <;> rw [display, display, hitems]
  | mapping fixed es ih =>
    have hentries : displayEntries b es = displayEntries a es :=
      displayEntries_congr (hkeys _ (.refl _)) fun e he =>
        ih e he (fun x hx => hatoms x (.entry he hx)) ((everywhere_mapping.mp hkeys).2 e he)
    cases fixed <;> rw [display, display, hentries]

end Datum

/-- One cause for which a tree is no document, with paths and aliases that are related. -/
inductive SynthesisFault.Alike (R S : String → String → Prop) :
    SynthesisFault → SynthesisFault → Prop
  | refl (f : SynthesisFault) : Alike R S f f
  | notFinite {p q : String} (h : R p q) : Alike R S (.notFinite p) (.notFinite q)
  | selfContaining {p q : String} (h : R p q) : Alike R S (.selfContaining p) (.selfContaining q)
  | unsupported {p q : String} (typeName : String) (h : R p q) :
      Alike R S (.unsupported p typeName) (.unsupported q typeName)
  | unresolved {p q : String} (target stack : String) (h : R p q) :
      Alike R S (.unresolved p target stack) (.unresolved q target stack)
  | aliasTaken (path : String) (type : Option String) {s t : String} (h : S s t) :
      Alike R S (.aliasTaken path type s) (.aliasTaken path type t)

/-- Causes with the same paths and aliases are the same. -/
theorem SynthesisFault.Alike.eq {f g : SynthesisFault} (h : Alike Eq Eq f g) : f = g := by
  cases h with
  | refl => rfl
  | notFinite h | selfContaining h | unsupported _ h | unresolved _ _ h | aliasTaken _ _ h => rw [h]

/-- Paths of one place: they go from the same path along the same indices and keys, and show the keys
in the one naming and in the other. -/
inductive SamePlace (a b : Naming) : String → String → Prop
  | start (path : String) : SamePlace a b path path
  | item {p q : String} (index : Nat) (h : SamePlace a b p q) :
      SamePlace a b (itemPath p index) (itemPath q index)
  | key {p q : String} (k : Key) (h : SamePlace a b p q) :
      SamePlace a b (keyPath p (k.plain a)) (keyPath q (k.plain b))

/-- The texts show one datum in the one naming and in the other. -/
def SameShown (a b : Naming) (s t : String) : Prop := ∃ d : Datum, s = d.display a ∧ t = d.display b

section Resolve

variable {R S : String → String → Prop} {a b : Naming} {render render' : Rendering}

private theorem resolveAtom_alike {x : Atom}
    (hrender : ∀ r, x = .reference r → ∀ p q, R p q →
      AlikeBy (SynthesisFault.Alike R S) (render p r) (render' q r))
    {p q : String} (h : R p q) :
    AlikeBy (SynthesisFault.Alike R S) (resolveAtom render p x) (resolveAtom render' q x) := by
  cases x with
  | reference r => exact (hrender r rfl p q h).map Datum.text
  | scalar s =>
    cases s with
    | float x =>
      rw [resolveAtom, resolveAtom]
      split
      · exact .ok _
      · exact .error (.notFinite h)
    | _ => exact .ok _
  | _ => exact .error (.unsupported _ h)

private theorem resolveItems_cons (naming : Naming) (render : Rendering) (path : String)
    (index : Nat) (d : Datum) (ds : List Datum) :
    resolveItems naming none render path index (d :: ds) =
      resolve naming none render (itemPath path index) d >>= fun r =>
        (resolveItems naming none render path (index + 1) ds).map (r :: ·) := by
  rw [resolveItems]
  cases resolve naming none render (itemPath path index) d with
  | error f => rfl
  | ok r => cases resolveItems naming none render path (index + 1) ds <;> rfl

private theorem resolveEntries_cons {naming : Naming} (hdigits : naming.digits = none)
    (render : Rendering) (path : String) (k : Key) (d : Datum) (es : Entries Datum) :
    resolveEntries naming none render path ((k, d) :: es) =
      resolve naming none render (keyPath path (k.plain naming)) d >>= fun r =>
        (resolveEntries naming none render path es).map ((k, r) :: ·) := by
  rw [resolveEntries, Key.shownPlain, Naming.shown_of_digits_eq_none hdigits]
  dsimp only
  cases resolve naming none render (keyPath path (k.plain naming)) d with
  | error f => rfl
  | ok r => cases resolveEntries naming none render path es <;> rfl

private theorem resolveItems_alike {items : List Datum}
    (hitem : ∀ p q index, R p q → R (itemPath p index) (itemPath q index))
    (hi : ∀ d ∈ items, ∀ p q, R p q →
      AlikeBy (SynthesisFault.Alike R S) (resolve a none render p d) (resolve b none render' q d))
    {p q : String} (h : R p q) (index : Nat) :
    AlikeBy (SynthesisFault.Alike R S) (resolveItems a none render p index items)
      (resolveItems b none render' q index items) := by
  induction items generalizing index with
  | nil => exact .ok []
  | cons d ds ih =>
    obtain ⟨hd, hds⟩ := List.forall_mem_cons.mp hi
    rw [resolveItems_cons, resolveItems_cons]
    exact (hd _ _ (hitem p q index h)).bind fun r _ => (ih hds (index + 1)).map _

variable (ha : a.digits = none) (hb : b.digits = none)
include ha hb

private theorem resolveEntries_alike {es : Entries Datum} {p q : String}
    (hkeys : ∀ k ∈ es.keys, R (keyPath p (k.plain a)) (keyPath q (k.plain b)))
    (hi : ∀ e ∈ es, ∀ p q, R p q →
      AlikeBy (SynthesisFault.Alike R S) (resolve a none render p e.2) (resolve b none render' q e.2)) :
    AlikeBy (SynthesisFault.Alike R S) (resolveEntries a none render p es)
      (resolveEntries b none render' q es) := by
  induction es with
  | nil => exact .ok []
  | cons e es ih =>
    obtain ⟨k, d⟩ := e
    obtain ⟨hk, hks⟩ := List.forall_mem_cons.mp hkeys
    obtain ⟨hd, hes⟩ := List.forall_mem_cons.mp hi
    rw [resolveEntries_cons ha, resolveEntries_cons hb]
    exact (hd _ _ hk).bind fun r _ => (ih hks hes).map _

/-- In two namings without limits a datum becomes the same body or is refused for one cause, if
references do, with paths that are related as far as going along its indices and keys keeps paths
related. -/
theorem resolve_alike (hitem : ∀ p q index, R p q → R (itemPath p index) (itemPath q index))
    {d : Datum} (hkeys : d.AllKeys fun ks => ∀ k ∈ ks, ∀ p q, R p q →
      R (keyPath p (k.plain a)) (keyPath q (k.plain b)))
    (hrender : ∀ r, Datum.Within (.atom (.reference r)) d → ∀ p q, R p q →
      AlikeBy (SynthesisFault.Alike R S) (render p r) (render' q r))
    {p q : String} (h : R p q) :
    AlikeBy (SynthesisFault.Alike R S) (resolve a none render p d) (resolve b none render' q d) := by
  induction d using Datum.induction generalizing p q with
  | atom x =>
    apply resolveAtom_alike _ h
    rintro r rfl
    exact hrender r (.refl _)
  | loop c => exact .error (.selfContaining h)
  | sequence fixed items ih =>
    rw [resolve, resolve]
    apply AlikeBy.map
    apply resolveItems_alike hitem _ h
    intro d hd p q hpq
    exact ih d hd ((Datum.everywhere_sequence.mp hkeys).2 d hd)
      (fun r hr => hrender r (.item hd hr)) hpq
  | mapping fixed es ih =>
    rw [resolve, resolve]
    apply AlikeBy.map
    apply resolveEntries_alike ha hb
    · intro k hk
      exact hkeys _ (.refl _) k hk p q h
    · intro e he p q hpq
      exact ih e he ((Datum.everywhere_mapping.mp hkeys).2 e he)
        (fun r hr => hrender r (.entry he hr)) hpq

end Resolve

end Groundplan
