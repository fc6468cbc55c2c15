import Mathlib.Data.List.Nodup
import Groundplan.Proofs.Workspace.Paths

/-!
# Identity of nodes

A path tells a node from all others of its tree, and so does a logical id with two exceptions. Nested
nodes may share one if their ids read the same with underscores between them and the digests of their
paths start alike; and a child of the stack may be given an id that is the one made for a nested node.
The end of a derived id has a fixed length, so it can be told from what stands before it.
-/

namespace Groundplan

namespace Text.Digest

/-- The digits of a digest. -/
def hexAlphabet : List Char := "0123456789abcdef".toList

/-- Two digits make up each byte; a plain check of all of them. -/
private theorem all_hexDigits_byte : ((List.range 256).all fun n =>
    (Text.hexDigits 2 n).length == 2 && (Text.hexDigits 2 n).all hexAlphabet.contains) = true := by
  decide +kernel

private theorem hexDigits_byte (b : UInt8) :
    (Text.hexDigits 2 b.toNat).length = 2 ∧ ∀ c ∈ Text.hexDigits 2 b.toNat, c ∈ hexAlphabet := by
  have hb := List.all_eq_true.mp all_hexDigits_byte b.toNat (List.mem_range.mpr b.toNat_lt)
  simpa using hb

/-- Capitals tell the digits of a digest apart. -/
theorem toUpper_inj {c d : Char} (hc : c ∈ hexAlphabet) (hd : d ∈ hexAlphabet)
    (h : c.toUpper = d.toUpper) : c = d := by
  have hnodup : (hexAlphabet.map Char.toUpper).Nodup := by decide
  exact List.inj_on_of_nodup_map hnodup hc hd h

private theorem length_wordDigits (n : Nat) :
    ((littleEndian 4 n).flatMap fun b => Text.hexDigits 2 b.toNat).length = 8 := by
  rw [List.length_flatMap, List.map_congr_left (g := fun _ => 2)]
  · rfl
  · exact fun b _ => (hexDigits_byte b).1

/-- A digest has 32 digits. -/
@[simp] theorem length_md5 (message : List UInt8) : (md5 message).length = 32 := by
  simp only [md5, List.flatMap_cons, List.flatMap_nil, List.length_append, List.length_nil,
    length_wordDigits]

/-- A digest is made of hexadecimal digits in small letters. -/
theorem mem_hexAlphabet_of_mem_md5 {message : List UInt8} {c : Char} (hc : c ∈ md5 message) :
    c ∈ hexAlphabet := by
  obtain ⟨w, -, hc⟩ := List.mem_flatMap.mp hc
  obtain ⟨b, -, hc⟩ := List.mem_flatMap.mp hc
  exact (hexDigits_byte b).2 c hc

end Text.Digest

namespace Workspace

open Text.Digest

/-- The first digits of the digest of ids between slashes. -/
def digestStart (ids : List String) : List Char :=
  (md5 (Text.utf8 (joinIds ids))).take digestLength

/-- The logical id that is made of the ids down to a nested node. -/
def derivedId (ids : List String) : String := "_".intercalate (ids ++ [digestOf ids])

private theorem toList_digestOf (ids : List String) :
    (digestOf ids).toList = (digestStart ids).map Char.toUpper := by
  rw [digestOf, String.toList_ofList, digestStart]

private theorem length_digestOf (ids : List String) : (digestOf ids).toList.length = 8 := by
  rw [toList_digestOf, List.length_map, digestStart, List.length_take, length_md5]
  rfl

private theorem map_toUpper_inj {cs ds : List Char} (hc : ∀ c ∈ cs, c ∈ hexAlphabet)
    (hd : ∀ d ∈ ds, d ∈ hexAlphabet) (h : cs.map Char.toUpper = ds.map Char.toUpper) : cs = ds := by
  induction cs generalizing ds with
  | nil => exact (List.map_eq_nil_iff.mp h.symm).symm
  | cons c cs ih =>
    cases ds with
    | nil => cases h
    | cons d ds =>
      obtain ⟨hc, hcs⟩ := List.forall_mem_cons.mp hc
      obtain ⟨hd, hds⟩ := List.forall_mem_cons.mp hd
      rw [List.map_cons, List.map_cons, List.cons.injEq] at h
      rw [toUpper_inj hc hd h.1, ih hcs hds h.2]

/-- Digests that start alike end logical ids alike. -/
theorem digestOf_eq_iff {ids ids' : List String} :
    digestOf ids = digestOf ids' ↔ digestStart ids = digestStart ids' := by
  have hhex (ids : List String) : ∀ c ∈ digestStart ids, c ∈ hexAlphabet := fun c hc =>
    mem_hexAlphabet_of_mem_md5 (List.mem_of_mem_take hc)
  rw [← String.toList_inj, toList_digestOf, toList_digestOf]
  exact ⟨map_toUpper_inj (hhex ids) (hhex ids'), congrArg _⟩

/-- A derived id tells the ids between underscores and the start of the digest, and no more. -/
theorem derivedId_eq_iff {ids ids' : List String} (hne : ids ≠ []) (hne' : ids' ≠ []) :
    derivedId ids = derivedId ids' ↔
      "_".intercalate ids = "_".intercalate ids' ∧ digestStart ids = digestStart ids' := by
  have hsplit {ids : List String} (hne : ids ≠ []) :
      derivedId ids = "_".intercalate ids ++ "_" ++ digestOf ids := by
    rw [derivedId, String.intercalate_append_of_ne_nil hne (List.cons_ne_nil _ _),
      String.intercalate_singleton]
  rw [hsplit hne, hsplit hne', ← digestOf_eq_iff]
  constructor
  · intro h
    have hchars := congrArg String.toList h
    simp only [String.toList_append, List.append_assoc] at hchars
    rw [← List.append_assoc, ← List.append_assoc] at hchars
    obtain ⟨hids, hdigest⟩ := List.append_inj' hchars (by rw [length_digestOf, length_digestOf])
    exact ⟨String.toList_inj.mp (List.append_cancel_right hids), String.toList_inj.mp hdigest⟩
  · rintro ⟨hids, hdigest⟩
    rw [hids, hdigest]

/-- A node is nested if there are two ids or more below its root on the way down to it. -/
def Nested (w : Workspace) (n : NodeId) : Prop := 2 ≤ (w.scopePath n).length

variable {w : Workspace} {s n : NodeId}

/-- The logical id of a nested node is derived. -/
theorem Nested.logicalId_eq (h : w.Nested n) : w.logicalId n = derivedId (w.scopePath n) := by
  unfold Nested at h
  unfold logicalId logicalIdOf derivedId
  split
  · next hnil => simp [hnil] at h
  · next hone => simp [hone] at h
  · rfl

/-- The logical id of a child of a stack is its id. -/
theorem Forest.logicalId_of_child (hw : w.Forest) (hp : (w.node n).parent = some s)
    (hs : (w.node s).parent = none) : w.logicalId n = (w.node n).id := by
  rw [logicalId, hw.scopePath_of_parent hp, scopePath_of_no_parent hs]
  rfl

/-- What is below a stack is its child, or nested. -/
theorem Reached.child_or_nested (hw : Reached w) (hs : (w.node s).isStack = true)
    (hn : n ∈ w.walk s) (hns : n ≠ s) :
    (w.node n).parent = some s ∧ ¬ w.Nested n ∨ w.Nested n ∧ (w.node n).parent ≠ some s := by
  have hforest := hw.forest
  obtain ⟨hlt, hroot⟩ := (hw.trees.mem_walk_iff hs).mp hn
  have hsnone : (w.node s).parent = none :=
    (hw.trees.parent_eq_none_iff s (lt_size_of_isStack hs)).mpr hs
  cases hp : (w.node n).parent with
  | none =>
    -- a node without a parent is the root
    have hself : w.root n = n := hforest.root_eq_iff.mpr ⟨.refl, hp⟩
    exact absurd (hself.symm.trans hroot) hns
  | some p =>
    have hlength : (w.scopePath n).length = (w.scopePath p).length + 1 := by
      rw [hforest.scopePath_of_parent hp, List.length_append, List.length_singleton]
    have hrootp : w.root p = s := by
      rw [← hforest.root_eq_of_above (.step hp .refl), hroot]
    by_cases hps : p = s
    · refine .inl ⟨by rw [hps], fun h => ?_⟩
      rw [Nested, hlength, hps, Forest.scopePath_of_no_parent hsnone] at h
      simp at h
    · refine .inr ⟨?_, fun h => hps (Option.some.inj h)⟩
      cases hq : (w.node p).parent with
      | none =>
        have hself : w.root p = p := hforest.root_eq_iff.mpr ⟨.refl, hq⟩
        exact absurd (hself.symm.trans hrootp) hps
      | some q =>
        rw [Nested, hlength, hforest.scopePath_of_parent hq]
        simp

/-- No two nodes below a stack have one path. They have one logical id just if both are nested, their
ids read alike between underscores and the digests of their paths start alike; or if one of them is a
child of the stack, the other is not, and the id of the first is the one derived for the other. -/
theorem Reached.path_ne_and_logicalId_eq_iff (hw : Reached w) {s a b : NodeId}
    (hs : (w.node s).isStack = true) (ha : a ∈ w.walk s) (has : a ≠ s) (hb : b ∈ w.walk s)
    (hbs : b ≠ s) (hab : a ≠ b) :
    w.path a ≠ w.path b ∧ (w.logicalId a = w.logicalId b ↔
      (w.Nested a ∧ w.Nested b ∧
        "_".intercalate (w.scopePath a) = "_".intercalate (w.scopePath b) ∧
        digestStart (w.scopePath a) = digestStart (w.scopePath b)) ∨
      ((w.node a).parent = some s ∧ w.Nested b ∧ (w.node a).id = derivedId (w.scopePath b)) ∨
      ((w.node b).parent = some s ∧ w.Nested a ∧ (w.node b).id = derivedId (w.scopePath a))) := by
  have hforest := hw.forest
  obtain ⟨halt, haroot⟩ := (hw.trees.mem_walk_iff hs).mp ha
  obtain ⟨hblt, hbroot⟩ := (hw.trees.mem_walk_iff hs).mp hb
  have hsnone : (w.node s).parent = none :=
    (hw.trees.parent_eq_none_iff s (lt_size_of_isStack hs)).mpr hs
  have hne {n : NodeId} (h : w.Nested n) : w.scopePath n ≠ [] := by
    intro hnil
    rw [Nested, hnil] at h
    cases h
  refine ⟨fun h => hab (hw.eq_of_path_eq halt hblt (haroot.trans hbroot.symm) h), ?_⟩
  rcases hw.child_or_nested hs ha has with ⟨hpa, hna⟩ | ⟨hna, hpa⟩
  · rw [hforest.logicalId_of_child hpa hsnone]
    rcases hw.child_or_nested hs hb hbs with ⟨hpb, hnb⟩ | ⟨hnb, hpb⟩
    · -- siblings have different ids
      rw [hforest.logicalId_of_child hpb hsnone]
      have hid : (w.node a).id ≠ (w.node b).id := fun h => hab (hw.distinctSiblings hpa hpb h)
      simp [hid, hna, hnb]
    · rw [hnb.logicalId_eq]
      simp [hna, hpa, hnb, hpb]
  · rw [hna.logicalId_eq]
    rcases hw.child_or_nested hs hb hbs with ⟨hpb, hnb⟩ | ⟨hnb, hpb⟩
    · rw [hforest.logicalId_of_child hpb hsnone, eq_comm]
      simp [hna, hpa, hnb, hpb]
    · rw [hnb.logicalId_eq, derivedId_eq_iff (hne hna) (hne hnb)]
      simp [hna, hpa, hnb, hpb]

/-- Requests that declare a resource in a group, and one beside the group under the id derived for
it. -/
def namesakeCalls : List Call :=
  [.createApp "", .createStack 0 (.text "stack"), .addConstruct 0 (.text "a"),
    .addBlock 1 .resource (.text "vpc") (.text "b") .null,
    .addBlock 0 .resource (.text "vpc") (.text "a_b_A7E86136") .null]

/-- The two resources have different paths and one logical id. -/
theorem path_ne_and_logicalId_eq_iff_namesake :
    (run {} namesakeCalls).path 2 ≠ (run {} namesakeCalls).path 3 ∧
      (run {} namesakeCalls).logicalId 2 = (run {} namesakeCalls).logicalId 3 := by
  have hw : Reached (run {} namesakeCalls) := Reached.start.run (by decide +kernel)
  obtain ⟨hpath, hid⟩ := hw.path_ne_and_logicalId_eq_iff (s := 0) (a := 2) (b := 3) (by decide +kernel)
    (by decide +kernel) (by decide) (by decide +kernel) (by decide) (by decide)
  refine ⟨hpath, hid.mpr (.inr (.inr ⟨by decide +kernel, ?_, by decide +kernel⟩))⟩
  unfold Nested
  decide +kernel

end Workspace

end Groundplan
