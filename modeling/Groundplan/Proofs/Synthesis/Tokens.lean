import Groundplan.Proofs.Document.Queries
import Groundplan.Proofs.Synthesis.Integrity
import Groundplan.Proofs.Workspace.Paths

/-!
# Tokens

A token is the address of a block, which is its type and logical id with dots after them, and then an
attribute. Nothing but the dots tells the parts apart, and types, ids and attributes may have dots of
their own. So two references have one token exactly where an attribute can make up for what the
address of one block has more than that of the other. Where types and logical ids have no dots, and no
resource is of the type that the tokens of data sources begin with, that never happens: then a token
says what it points at, and a predicate that asks for a reference is met by no other.
-/

namespace Groundplan

namespace Datum

/-- What stands under names, one inside the other. -/
def atFields (names : List String) (d : Datum) : Option Datum := names.foldlM field? d

/-- Mappings one inside the other under names, with a datum in the innermost. -/
def nested : List String → Datum → Datum
  | [], d => d
  | name :: names, d => .record [(name, nested names d)]

variable {F : Datum → Datum}

/-- What changes no keys changes what stands under names. -/
theorem atFields_relabels (hF : Relabels F) (names : List String) (d : Datum) :
    (F d).atFields names = (d.atFields names).map F := by
  induction names generalizing d with
  | nil => rfl
  | cons name names ih =>
    simp only [atFields, List.foldlM_cons] at ih ⊢
    rw [hF.field?_eq]
    cases d.field? name with
    | none => rfl
    | some x => exact ih x

/-- A document keeps the keys of what it records. -/
theorem relabels_freeze_withTokens (token : Reference → String) :
    Relabels fun d => (d.withTokens token).freeze where
  atom a := by cases a <;> exact ⟨_, rfl⟩
  loop _ := rfl
  sequence fixed items := ⟨true, by simp [withTokens, freeze, withFixed]⟩
  mapping fixed es := ⟨true, by simp [withTokens, freeze, withFixed, Entries.mapValues]⟩

/-- Nested mappings ask for what stands under their names. -/
theorem satisfies_nested_iff {names : List String} {actual e : Datum} :
    actual.satisfies (nested names e) = true ↔
      ∃ x, actual.atFields names = some x ∧ x.satisfies e = true := by
  induction names generalizing actual with
  | nil => simp [nested, atFields]
  | cons name names ih =>
    have hfield : actual.satisfies (nested (name :: names) e) = true ↔
        ∃ x, actual.field? name = some x ∧ x.satisfies (nested names e) = true := by
      cases actual with
      | mapping fixed es =>
        simp only [nested, record, List.map_cons, List.map_nil, satisfies, satisfiesEntries,
          Bool.and_true, field?, entries, entries?, Option.getD_some]
        cases Entries.get? es (.text name) <;> simp
      | _ => simp [nested, record, satisfies, field?, entries, entries?, Entries.get?]
    simp only [hfield, ih, atFields, List.foldlM_cons, Option.bind_eq_bind,
      Option.bind_eq_some_iff]
    constructor
    · rintro ⟨x, hx, y, hy, he⟩
      exact ⟨y, ⟨x, hx, hy⟩, he⟩
    · rintro ⟨y, ⟨x, hx, hy⟩, he⟩
      exact ⟨x, hx, y, hy, he⟩

/-- Only the innermost datum has references. -/
theorem withTokens_nested (token : Reference → String) (names : List String) (d : Datum) :
    (nested names d).withTokens token = nested names (d.withTokens token) := by
  induction names with
  | nil => rfl
  | cons name names ih => simp [nested, record, withTokens, ih]

/-- A text is met in a document by that text, and by the references whose token it is. -/
theorem satisfies_text_iff {token : Reference → String} {d : Datum} {s : String} :
    (d.withTokens token).freeze.satisfies (.text s) = true ↔
      d = .text s ∨ ∃ r, d = .atom (.reference r) ∧ token r = s := by
  cases d with
  | atom a =>
    cases a with
    | scalar t => cases t <;> simp [withTokens, freeze, withFixed, satisfies, satisfiesAtom,
        Atom.eqValue, Atom.eqBy, Scalar.eqValue]
    | _ => simp [withTokens, freeze, withFixed, satisfies, satisfiesAtom, Atom.eqValue,
        Atom.eqBy, Scalar.eqValue]
  | _ => simp [withTokens, freeze, withFixed, satisfies]

end Datum

namespace Workspace

/-- What the tokens of a block have before the attribute: its type and logical id with dots after
them, and a word before them that tells data sources from resources. -/
def address (w : Workspace) (n : NodeId) : String :=
  (if (w.node n).kind = .block .data then "data." else "") ++
    token.tagText (w.node n).typeTag ++ "." ++ w.logicalId n ++ "."

/-- A reference that its target gives out. -/
def Offers (w : Workspace) (r : Reference) : Prop := ∃ attr, w.ref r.target attr = .ok r

/-- The address of a block begins with that of another, and what it has more may begin an
attribute. -/
def Shadows (w : Workspace) (n n' : NodeId) : Prop :=
  ∃ rest, w.address n' = w.address n ++ rest ∧
    ∀ c ∈ rest.toList.head?, Text.isBlank c = false

/-- A block with a type and without dots in its type and logical id. The type of a resource is not the
word that the addresses of data sources begin with. -/
structure Undotted (w : Workspace) (n : NodeId) : Prop where
  type : ∃ type, (w.node n).typeTag = some type ∧ '.' ∉ type.toList ∧
    ((w.node n).kind = .block .resource → type ≠ "data")
  id : '.' ∉ (w.logicalId n).toList

variable {w : Workspace} {stack : NodeId} {doc : Document}

/-- A token is an address with an attribute after it. -/
theorem token_eq_address (r : Reference) :
    w.token r = "$\x7b" ++ (w.address r.target ++ r.attr) ++ "\x7d" := by
  simp only [token, address, String.append_assoc]

/-- Tokens are equal exactly if their addresses with the attributes after them are. -/
theorem token_eq_token_iff {r r' : Reference} : w.token r = w.token r' ↔
    w.address r.target ++ r.attr = w.address r'.target ++ r'.attr := by
  rw [token_eq_address, token_eq_address]
  simp

private theorem offers_facts {r : Reference} (h : w.Offers r) :
    (w.node r.target).kind.isReferenceable = true ∧
      ∀ c ∈ r.attr.toList.head?, Text.isBlank c = false := by
  obtain ⟨attr, h⟩ := h
  refine ⟨(refers_of_ref h).2, fun c hc => ?_⟩
  simp only [ref] at h
  split at h
  · cases h
  · split at h
    · split at h
      · cases h
      · rw [← Except.ok.inj h] at hc
        exact Text.isBlank_head?_stripChars (by simpa [Text.strip] using hc)
    · cases h

private theorem offers_of_attr {n : NodeId} (hn : (w.node n).kind.isReferenceable = true)
    {attr : String} (hhead : ∀ c ∈ attr.toList.head?, Text.isBlank c = false)
    (hlast : ∃ c ∈ attr.toList.getLast?, Text.isBlank c = false) : w.Offers ⟨n, attr⟩ := by
  obtain ⟨c, hc, hblank⟩ := hlast
  have hmem : c ∈ attr.toList := List.mem_of_getLast? hc
  have hsome : Text.isBlankText attr = false := by
    rw [Text.isBlankText, List.all_eq_false]
    exact ⟨c, hmem, by simp [hblank]⟩
  have hstrip : Text.strip attr = attr := by
    rw [Text.strip, Text.stripChars_eq_self hhead, String.ofList_toList]
    intro d hd
    cases hc.symm.trans hd
    exact hblank
  exact ⟨.text attr, by simp [ref, hn, Value.text?, hsome, hstrip]⟩

/-- Of two references with one token, the address of one block begins with that of the other. -/
theorem shadows_of_token_eq {r r' : Reference} (hr : w.Offers r) (hr' : w.Offers r')
    (h : w.token r = w.token r') :
    w.Shadows r.target r'.target ∨ w.Shadows r'.target r.target := by
  have hone {r r' : Reference} (hr : w.Offers r) {rest : List Char}
      (haddress : (w.address r'.target).toList = (w.address r.target).toList ++ rest)
      (hattr : r.attr.toList = rest ++ r'.attr.toList) : w.Shadows r.target r'.target := by
    refine ⟨String.ofList rest, ?_, fun c hc => (offers_facts hr).2 c ?_⟩
    · rw [← String.toList_inj, haddress, String.toList_append, String.toList_ofList]
    · rw [String.toList_ofList] at hc
      rw [hattr, List.head?_append, Option.mem_def.mp hc]
      rfl
  have hlists := congrArg String.toList (token_eq_token_iff.mp h)
  rw [String.toList_append, String.toList_append] at hlists
  rcases List.append_eq_append_iff.mp hlists with ⟨rest, haddress, hattr⟩ | ⟨rest, haddress, hattr⟩
  · exact .inl (hone hr haddress hattr)
  · exact .inr (hone hr' haddress hattr)

/-- If the address of a block begins with that of another, some references to the two have one
token. -/
theorem exists_token_eq_of_shadows {n n' : NodeId} (hn : (w.node n).kind.isReferenceable = true)
    (hn' : (w.node n').kind.isReferenceable = true) (h : w.Shadows n n') :
    ∃ attr attr', w.Offers ⟨n, attr⟩ ∧ w.Offers ⟨n', attr'⟩ ∧
      w.token ⟨n, attr⟩ = w.token ⟨n', attr'⟩ := by
  obtain ⟨rest, haddress, hblank⟩ := h
  have hid : ∀ c ∈ "id".toList.head?, Text.isBlank c = false := by
    intro c hc
    obtain rfl : 'i' = c := by simpa using hc
    rfl
  refine ⟨rest ++ "id", "id", offers_of_attr hn ?_ ⟨'d', by simp, rfl⟩,
    offers_of_attr hn' hid ⟨'d', by simp, rfl⟩, ?_⟩
  · intro c hc
    cases hrest : rest.toList with
    | nil => exact hid c (by simpa [hrest] using hc)
    | cons d ds =>
      obtain rfl : d = c := by simpa [hrest] using hc
      exact hblank d (by simp [hrest])
  · rw [token_eq_token_iff]
    simp only [haddress, String.append_assoc]

private theorem toList_address {n : NodeId} {type : String}
    (htype : (w.node n).typeTag = some type) (rest : List Char) :
    (w.address n).toList ++ rest =
      if (w.node n).kind = .block .data then
        "data".toList ++ '.' :: (type.toList ++ '.' :: ((w.logicalId n).toList ++ '.' :: rest))
      else type.toList ++ '.' :: ((w.logicalId n).toList ++ '.' :: rest) := by
  have hdot : ".".toList = ['.'] := rfl
  have hdata : "data.".toList = "data".toList ++ ['.'] := rfl
  split <;> simp [address, token.tagText, *]

/-- Addresses of two blocks without dots of their own tell kind, type and id apart. -/
private theorem parts_eq_of_shadows {n n' : NodeId}
    (hkind : (w.node n).kind = .block .resource ∨ (w.node n).kind = .block .data)
    (hkind' : (w.node n').kind = .block .resource ∨ (w.node n').kind = .block .data)
    (hn : w.Undotted n) (hn' : w.Undotted n') (h : w.Shadows n n') :
    (w.node n).kind = (w.node n').kind ∧ (w.node n).typeTag = (w.node n').typeTag ∧
      w.logicalId n = w.logicalId n' := by
  obtain ⟨type, htype, hdot, hword⟩ := hn.type
  obtain ⟨type', htype', hdot', hword'⟩ := hn'.type
  have hdata : '.' ∉ "data".toList := by decide
  obtain ⟨rest, haddress, -⟩ := h
  have hlists : (w.address n').toList ++ [] = (w.address n).toList ++ rest.toList := by
    rw [haddress, String.toList_append, List.append_nil]
  rw [toList_address htype', toList_address htype] at hlists
  -- the part after the word of data sources, which is all there is of a resource's address
  have hsame (hlists : type'.toList ++ '.' :: ((w.logicalId n').toList ++ '.' :: []) =
      type.toList ++ '.' :: ((w.logicalId n).toList ++ '.' :: rest.toList)) :
      (w.node n).typeTag = (w.node n').typeTag ∧ w.logicalId n = w.logicalId n' := by
    obtain ⟨htypes, hlists⟩ := Text.append_mark_inj hdot' hdot hlists
    obtain ⟨hids, -⟩ := Text.append_mark_inj hn'.id hn.id hlists
    rw [htype, htype', String.toList_inj.mp htypes, String.toList_inj.mp hids]
    exact ⟨rfl, rfl⟩
  rcases hkind with hk | hk <;> rcases hkind' with hk' | hk' <;>
    simp only [hk, hk', NodeKind.block.injEq, reduceCtorEq, ↓reduceIte] at hlists ⊢
  · exact ⟨trivial, hsame hlists⟩
  · have hwrong := (Text.append_mark_inj hdata hdot hlists).1
    exact absurd (String.toList_inj.mp hwrong).symm (hword hk)
  · have hwrong := (Text.append_mark_inj hdot' hdata hlists).1
    exact absurd (String.toList_inj.mp hwrong) (hword' hk')
  · exact ⟨trivial, hsame (Text.append_mark_inj hdata hdata hlists).2⟩

/-- A reference to a block of the stack that has a type, as that block gives it out. -/
structure Issued (w : Workspace) (stack : NodeId) (r : Reference) : Prop where
  root_eq : w.root r.target = stack
  typed : (w.node r.target).typeTag ≠ none
  offers : w.Offers r

/-- The address of one of two blocks begins with that of the other. -/
def Tangled (w : Workspace) (n n' : NodeId) : Prop :=
  n ≠ n' ∧ (w.Shadows n n' ∨ w.Shadows n' n)

/-- What the tokens of a stack and the document that it became say about each other. -/
structure TokensTell (w : Workspace) (stack : NodeId) (doc : Document) : Prop where
  /-- References with one token are one reference, unless the addresses of their targets are
  tangled. -/
  eq_or_tangled : ∀ r r', w.Issued stack r → w.Issued stack r' → w.token r = w.token r' →
    r = r' ∨ w.Tangled r.target r'.target
  /-- Where addresses are tangled, some references have one token. -/
  exists_of_tangled : ∀ r r', w.Issued stack r → w.Issued stack r' →
    w.Tangled r.target r'.target → ∃ attr attr', w.Issued stack ⟨r.target, attr⟩ ∧
      w.Issued stack ⟨r'.target, attr'⟩ ∧ w.token ⟨r.target, attr⟩ = w.token ⟨r'.target, attr'⟩
  /-- Blocks without dots in their types and logical ids are not tangled. -/
  not_tangled : ∀ r r', w.Issued stack r → w.Issued stack r' → w.Undotted r.target →
    w.Undotted r'.target → ¬ w.Tangled r.target r'.target
  /-- A predicate that asks for a reference under some names is met by the blocks that have it there,
  or the text of its token, and by no other references that are not tangled with it. -/
  matched_iff : ∀ kind type name names r, kind ≠ .output → w.Issued stack r →
    (∀ n ∈ w.nodesOfType stack kind (some type), ∀ r',
      (w.propertiesOf n).atFields (name :: names) = some (.atom (.reference r')) →
        w.Issued stack r' ∧ ¬ w.Tangled r.target r'.target) →
    (doc.hasTypeWith kind (.text type)
        ((Datum.nested (name :: names) (.atom (.reference r))).withTokens w.token) = .ok true ↔
      ∃ n ∈ w.nodesOfType stack kind (some type),
        (w.propertiesOf n).atFields (name :: names) = some (.atom (.reference r)) ∨
        (w.propertiesOf n).atFields (name :: names) = some (.text (w.token r)))

private theorem Issued.eq_or_tangled {r r' : Reference} (hr : w.Issued stack r)
    (hr' : w.Issued stack r') (h : w.token r = w.token r') :
    r = r' ∨ w.Tangled r.target r'.target := by
  refine or_iff_not_imp_left.mpr fun hne => ⟨fun htarget => hne ?_,
    shadows_of_token_eq hr.offers hr'.offers h⟩
  obtain ⟨n, attr⟩ := r
  obtain ⟨n', attr'⟩ := r'
  obtain rfl : n = n' := htarget
  have hattr := token_eq_token_iff.mp h
  rw [String.append_right_inj] at hattr
  exact congrArg _ hattr

private theorem Issued.kind_eq {r : Reference} (hr : w.Issued stack r) :
    (w.node r.target).kind = .block .resource ∨ (w.node r.target).kind = .block .data := by
  have hkind := (offers_facts hr.offers).1
  unfold NodeKind.isReferenceable at hkind
  split at hkind
  · next h => exact .inl h
  · next h => exact .inr h
  · cases hkind

private theorem Issued.mem_nodesOfType (hw : w.Forest) {r : Reference} (hr : w.Issued stack r)
    {kind : BlockKind} (hkind : (w.node r.target).kind = .block kind) :
    r.target ∈ w.nodesOfType stack kind (w.node r.target).typeTag := by
  have hlt : r.target < w.nodes.size := lt_size_of_kind_ne (by simp [hkind])
  have habove : w.Above stack r.target := (hw.root_eq_iff.mp hr.root_eq).1
  have hmem : r.target ∈ w.blockNodes stack :=
    (hw.mem_blockNodes_iff (hw.lt_size_of_above hlt habove)).mpr ⟨habove, by simp [hkind]⟩
  simp [nodesOfType, nodesOf, hmem, hkind]

private theorem Issued.eq_of_shadows (hw : w.Forest) (hdoc : w.Records stack doc)
    {r r' : Reference} (hr : w.Issued stack r) (hr' : w.Issued stack r')
    (hdot : w.Undotted r.target) (hdot' : w.Undotted r'.target)
    (h : w.Shadows r.target r'.target) : r.target = r'.target := by
  obtain ⟨hkind, htype, hid⟩ := parts_eq_of_shadows hr.kind_eq hr'.kind_eq hdot hdot' h
  have hslot {kind : BlockKind} (hk : kind = .resource ∨ kind = .data)
      (hn : (w.node r.target).kind = .block kind) : r.target = r'.target := by
    have hmem := hr.mem_nodesOfType hw hn
    have hmem' := hr'.mem_nodesOfType hw (hkind ▸ hn)
    rw [← htype] at hmem'
    exact List.inj_on_of_nodup_map (hdoc.ids_nodup kind _ hk) hmem hmem' hid
  exact hr.kind_eq.elim (hslot (.inl rfl)) (hslot (.inr rfl))

private theorem Records.hasTypeWith_nested_iff (hdoc : w.Records stack doc) {kind : BlockKind}
    (hkind : kind ≠ .output) {type name s : String} {names : List String} :
    doc.hasTypeWith kind (.text type) (.nested (name :: names) (.text s)) = .ok true ↔
      ∃ n ∈ w.nodesOfType stack kind (some type),
        (w.propertiesOf n).atFields (name :: names) = some (.text s) ∨
          ∃ r, (w.propertiesOf n).atFields (name :: names) = some (.atom (.reference r)) ∧
            w.token r = s := by
  rw [Document.hasTypeWith_eq_true, hdoc.bodies_eq hkind]
  simp only [List.mem_map, exists_exists_and_eq_and, Datum.satisfies_nested_iff]
  constructor
  · rintro ⟨-, n, hn, x, hx, hsatisfies⟩
    refine ⟨n, hn, ?_⟩
    rw [fixedBody, Datum.atFields_relabels (Datum.relabels_freeze_withTokens w.token)] at hx
    obtain ⟨y, hy, rfl⟩ := Option.map_eq_some_iff.mp hx
    rcases Datum.satisfies_text_iff.mp hsatisfies with rfl | ⟨r, rfl, htoken⟩
    · exact .inl hy
    · exact .inr ⟨r, hy, htoken⟩
  · rintro ⟨n, hn, h⟩
    refine ⟨⟨_, _, rfl⟩, n, hn, ?_⟩
    rw [fixedBody, Datum.atFields_relabels (Datum.relabels_freeze_withTokens w.token)]
    rcases h with h | ⟨r, h, htoken⟩
    · exact ⟨_, congrArg _ h, Datum.satisfies_text_iff.mpr (.inl rfl)⟩
    · exact ⟨_, congrArg _ h, Datum.satisfies_text_iff.mpr (.inr ⟨r, rfl, htoken⟩)⟩

/-- In a stack that becomes a document, references with one token are one reference unless the dots in
their targets' types and ids tangle the addresses, and predicates tell the references apart. -/
theorem synthesize_tokensTell (hw : Reached w) {emit : Bool}
    (h : (w.synthesize (.atom (.entity (.node stack true))) emit).2 = .ok doc) :
    w.TokensTell stack doc := by
  have hdoc : w.Records stack doc := by
    obtain ⟨placed, hs, rfl⟩ := synthesize_eq_ok h
    exact records_of_settled hs rfl
  refine ⟨fun r r' hr hr' => hr.eq_or_tangled hr', fun r r' hr hr' ⟨hne, htangled⟩ => ?_,
    fun r r' hr hr' hdot hdot' ⟨hne, htangled⟩ => ?_,
    fun kind type name names r hkind hr hothers => ?_⟩
  · have hn := (offers_facts hr.offers).1
    have hn' := (offers_facts hr'.offers).1
    rcases htangled with hs | hs
    · obtain ⟨attr, attr', ho, ho', he⟩ := exists_token_eq_of_shadows hn hn' hs
      exact ⟨attr, attr', ⟨hr.root_eq, hr.typed, ho⟩, ⟨hr'.root_eq, hr'.typed, ho'⟩, he⟩
    · obtain ⟨attr', attr, ho', ho, he⟩ := exists_token_eq_of_shadows hn' hn hs
      exact ⟨attr, attr', ⟨hr.root_eq, hr.typed, ho⟩, ⟨hr'.root_eq, hr'.typed, ho'⟩, he.symm⟩
  · rcases htangled with hs | hs
    · exact hne (hr.eq_of_shadows hw.forest hdoc hr' hdot hdot' hs)
    · exact hne (hr'.eq_of_shadows hw.forest hdoc hr hdot' hdot hs).symm
  · rw [Datum.withTokens_nested, Datum.withTokens, hdoc.hasTypeWith_nested_iff hkind]
    refine exists_congr fun n => and_congr_right fun hn => ?_
    constructor
    · rintro (htext | ⟨r', hr', htoken⟩)
      · exact .inr htext
      · obtain ⟨hissued, hapart⟩ := hothers n hn r' hr'
        rcases hr.eq_or_tangled hissued htoken.symm with rfl | htangled
        · exact .inl hr'
        · exact absurd htangled hapart
    · rintro (href | htext)
      · exact .inr ⟨r, href, rfl⟩
      · exact .inl htext

/-- The tokens of the network tell what they point at. -/
theorem synthesize_tokensTell_network :
    ∃ doc, ((run {} networkCalls).synthesize (.atom (.entity (.node 0 true))) true).2 = .ok doc ∧
      (run {} networkCalls).TokensTell 0 doc := by
  have hw : Reached (run {} networkCalls) := Reached.start.run (by decide +kernel)
  have hok : (((run {} networkCalls).synthesize (.atom (.entity (.node 0 true))) true).2).isOk =
      true := by decide +kernel
  cases h : ((run {} networkCalls).synthesize (.atom (.entity (.node 0 true))) true).2 with
  | error e =>
    rw [h] at hok
    cases hok
  | ok doc => exact ⟨doc, rfl, synthesize_tokensTell hw h⟩

/-- Requests that declare two resources of one type, of which one id goes on after a dot where the
other ends, and a third resource that points at the longer one. -/
def dottedCalls : List Call :=
  [.createApp "", .createStack 0 (.text "stack"),
    .addBlock 0 .resource (.text "a") (.text "b") .null,
    .addBlock 0 .resource (.text "a") (.text "b.c") .null,
    .keep (.mapping [(.text "link", .atom (.reference ⟨2, "d"⟩))]),
    .addBlock 0 .resource (.text "user") (.text "u") (.cell 3)]

/-- References to two resources have one token, and a predicate that asks for one of them is met by
the other. -/
theorem token_dotted :
    Call.AllInScope {} dottedCalls ∧
      (run {} dottedCalls).ref 1 (.text "c.d") = .ok ⟨1, "c.d"⟩ ∧
      (run {} dottedCalls).ref 2 (.text "d") = .ok ⟨2, "d"⟩ ∧
      (run {} dottedCalls).token ⟨1, "c.d"⟩ = (run {} dottedCalls).token ⟨2, "d"⟩ ∧
      (((run {} dottedCalls).propertiesOf 3).atFields ["link"]).map Datum.referenced = some [2] ∧
      ∃ doc, ((run {} dottedCalls).synthesize (.atom (.entity (.node 0 true))) true).2 = .ok doc ∧
        doc.hasTypeWith .resource (.text "user") ((Datum.nested ["link"]
          (.atom (.reference ⟨1, "c.d"⟩))).withTokens (run {} dottedCalls).token) = .ok true := by
  refine ⟨by decide +kernel, toOption_eq_some.mp (by decide +kernel),
    toOption_eq_some.mp (by decide +kernel), by decide +kernel, by decide +kernel, ?_⟩
  have hrun : ((((run {} dottedCalls).synthesize
      (.atom (.entity (.node 0 true))) true).2.toOption.map fun doc =>
        (doc.hasTypeWith .resource (.text "user") ((Datum.nested ["link"]
          (.atom (.reference ⟨1, "c.d"⟩))).withTokens
            (run {} dottedCalls).token)).toOption)) = some (some true) := by decide +kernel
  obtain ⟨doc, hdoc, hmatch⟩ := Option.map_eq_some_iff.mp hrun
  exact ⟨doc, toOption_eq_some.mp hdoc, toOption_eq_some.mp hmatch⟩

end Workspace

end Groundplan
