import Groundplan.Proofs.Sequencing
import Groundplan.Synthesis.References
import Mathlib.Data.List.Chain
import Mathlib.Data.List.Nodup
import Mathlib.Data.List.TakeWhile

/-!
# Cycles of references

The search for cycles ends with a cycle exactly if there is one. `Explores` tells the search without
a bound on its depth; no place comes twice on a trail, so the fuel lasts and `search` is such a
search. The places done with are kept in an order in which all that a place points at comes after
it, so none of them can lead back to itself; and the trail is a chain of places, each pointing at
the next, which closes where the search fails.
-/

namespace Groundplan.References

variable {α : Type} [DecidableEq α]

/-- The first place points at the second. -/
def Edge (graph : Graph α) (a b : α) : Prop := b ∈ targets graph a

/-- A way of places, each pointing at the next, that ends where it starts. -/
def IsCycle (graph : Graph α) (c : List α) : Prop :=
  ∃ a l, c = a :: l ++ [a] ∧ c.IsChain (Edge graph)

/-- Each place comes once, and before all that it points at. -/
def Sorted (graph : Graph α) : List α → Prop
  | [] => True
  | a :: rest => a ∉ rest ∧ (∀ t, Edge graph a t → t ∈ rest) ∧ Sorted graph rest

variable {graph : Graph α}

/-- A place points only at others if it is listed. -/
theorem Edge.mem_keys {a b : α} (h : Edge graph a b) : a ∈ graph.map (·.1) := by
  unfold Edge targets at h
  cases hf : graph.find? fun e => e.1 = a with
  | none => simp [hf] at h
  | some e =>
    have he : e.1 = a := by simpa using List.find?_some hf
    exact he ▸ List.mem_map_of_mem (List.mem_of_find?_eq_some hf)

/-- No place comes twice in a sorted list. -/
theorem Sorted.nodup {done : List α} (hs : Sorted graph done) : done.Nodup := by
  induction done with
  | nil => exact .nil
  | cons x rest ih => exact List.nodup_cons.mpr ⟨hs.1, ih hs.2.2⟩

/-- What a place of a sorted list points at comes later in the list. -/
theorem Sorted.sublist_of_edge {done : List α} (hs : Sorted graph done) {a t : α} (ha : a ∈ done)
    (ht : Edge graph a t) : [a, t].Sublist done := by
  induction done with
  | nil => cases ha
  | cons x rest ih =>
    rcases List.mem_cons.mp ha with rfl | ha
    · exact .cons_cons _ (List.singleton_sublist.mpr (hs.2.1 t ht))
    · exact .cons _ (ih hs.2.2 ha)

private theorem Sorted.mem_of_transGen {done : List α} (hs : Sorted graph done) {a b : α}
    (ha : a ∈ done) (h : Relation.TransGen (Edge graph) a b) : b ∈ done := by
  have step {a t : α} (ha : a ∈ done) (ht : Edge graph a t) : t ∈ done :=
    (hs.sublist_of_edge ha ht).subset (by simp)
  induction h with
  | single ht => exact step ha ht
  | tail _ ht ih => exact step ih ht

/-- No place of a sorted list leads back to itself. -/
theorem Sorted.not_transGen {done : List α} (hs : Sorted graph done) {a : α} (ha : a ∈ done) :
    ¬ Relation.TransGen (Edge graph) a a := by
  induction done with
  | nil => cases ha
  | cons x rest ih =>
    rcases List.mem_cons.mp ha with rfl | ha
    · -- all that the first place leads to comes after it
      intro h
      obtain ⟨t, ht, hta⟩ : ∃ t, Edge graph a t ∧ Relation.ReflTransGen (Edge graph) t a :=
        Relation.TransGen.head'_iff.mp h
      have hmem := hs.2.1 t ht
      rcases Relation.reflTransGen_iff_eq_or_transGen.mp hta with rfl | hta
      · exact hs.1 hmem
      · exact hs.1 (hs.2.2.mem_of_transGen hmem hta)
    · exact ih hs.2.2 ha

private theorem transGen_of_isChain {a b : α} {l : List α}
    (h : (a :: l ++ [b]).IsChain (Edge graph)) : Relation.TransGen (Edge graph) a b := by
  induction l generalizing a with
  | nil => exact .single (List.isChain_pair.mp h)
  | cons x l ih =>
    obtain ⟨hax, hx⟩ := List.isChain_cons_cons.mp h
    exact .head hax (ih hx)

/-- The place that a cycle starts from leads back to itself. -/
theorem IsCycle.exists_transGen {c : List α} (h : IsCycle graph c) :
    ∃ a, Relation.TransGen (Edge graph) a a := by
  obtain ⟨a, l, rfl, hc⟩ := h
  exact ⟨a, transGen_of_isChain hc⟩

/-- Each place of a cycle is listed, since it points at the next. -/
theorem IsCycle.mem_keys {c : List α} (h : IsCycle graph c) {x : α} (hx : x ∈ c) :
    x ∈ graph.map (·.1) := by
  obtain ⟨a, l, rfl, hchain⟩ := h
  have hx : x ∈ a :: l := by
    rcases List.mem_append.mp hx with hx | hx
    · exact hx
    · rw [List.mem_singleton.mp hx]
      exact List.mem_cons_self
  obtain ⟨before, after, he⟩ := List.append_of_mem hx
  rw [he, List.append_assoc] at hchain
  have hrest : (x :: (after ++ [a])).IsChain (Edge graph) := hchain.right_of_append
  cases hnext : after ++ [a] with
  | nil => simp at hnext
  | cons y rest =>
    rw [hnext] at hrest
    exact (List.isChain_cons_cons.mp hrest).1.mem_keys

/-- A search through places in order, below the places on `trail` and with some done with before,
comes to an end with all places done with, or with a cycle. No bound is set to how deep it goes. -/
inductive Explores (graph : Graph α) :
    List α → List α → List α → Except (List α) (List α) → Prop
  | finish {trail done : List α} : Explores graph trail done [] (.ok done)
  | close {trail done rest : List α} {place : α} (ht : place ∈ trail) :
      Explores graph trail done (place :: rest)
        (.error (trail.dropWhile (· ≠ place) ++ [place]))
  | skip {trail done rest : List α} {place : α} {result : Except (List α) (List α)}
      (ht : place ∉ trail) (hd : place ∈ done) (hrest : Explores graph trail done rest result) :
      Explores graph trail done (place :: rest) result
  | descend {trail done below rest : List α} {place : α} {result : Except (List α) (List α)}
      (ht : place ∉ trail) (hd : place ∉ done)
      (hbelow : Explores graph (trail ++ [place]) done (targets graph place) (.ok below))
      (hrest : Explores graph trail (place :: below) rest result) :
      Explores graph trail done (place :: rest) result
  | fail {trail done rest c : List α} {place : α} (ht : place ∉ trail) (hd : place ∉ done)
      (hbelow : Explores graph (trail ++ [place]) done (targets graph place) (.error c)) :
      Explores graph trail done (place :: rest) (.error c)

section Fuel

/-- Visits places in order, below those on a trail. -/
private def visitAll (graph : Graph α) (fuel : Nat) (trail places done : List α) :
    Except (List α) (List α) :=
  places.foldlM (fun done place =>
    if place ∈ trail then .error (trail.dropWhile (· ≠ place) ++ [place])
    else if place ∈ done then .ok done
    else visit graph fuel trail done place) done

private theorem visitAll_cons (fuel : Nat) (trail done rest : List α) (place : α) :
    visitAll graph fuel trail (place :: rest) done =
      (if place ∈ trail then .error (trail.dropWhile (· ≠ place) ++ [place])
        else if place ∈ done then .ok done
        else visit graph fuel trail done place) >>= visitAll graph fuel trail rest := by
  rw [visitAll, List.foldlM_cons]
  rfl

private theorem visit_succ (fuel : Nat) (trail done : List α) (place : α) :
    visit graph (fuel + 1) trail done place =
      visitAll graph fuel (trail ++ [place]) (targets graph place) done >>= fun below =>
        .ok (place :: below) := rfl

private theorem search_eq (graph : Graph α) :
    search graph = visitAll graph (graph.length + 1) [] (graph.map (·.1)) [] := by
  simp only [search, visitAll, List.foldlM_map, List.not_mem_nil, if_false]

/-- Whoever is on a trail and points on is listed, and none of them twice, so the fuel lasts. -/
private theorem explores_visitAll {fuel : Nat} {trail places done : List α} (hnodup : trail.Nodup)
    (hlisted : places ≠ [] → ∀ a ∈ trail, a ∈ graph.map (·.1))
    (hfuel : graph.length < fuel + trail.length) :
    Explores graph trail done places (visitAll graph fuel trail places done) := by
  induction fuel generalizing trail places done with
  | zero =>
    cases places with
    | nil => exact .finish
    | cons place rest =>
      have hle := hnodup.length_le_of_subset (hlisted (List.cons_ne_nil _ _))
      rw [List.length_map] at hle
      omega
  | succ fuel ih =>
    induction places generalizing done with
    | nil => exact .finish
    | cons place rest ihrest =>
      have hlisted := hlisted (List.cons_ne_nil _ _)
      have hrest (done : List α) :
          Explores graph trail done rest (visitAll graph (fuel + 1) trail rest done) :=
        ihrest fun _ => hlisted
      rw [visitAll_cons]
      by_cases ht : place ∈ trail
      · rw [if_pos ht]
        exact .close ht
      · rw [if_neg ht]
        by_cases hd : place ∈ done
        · rw [if_pos hd]
          exact .skip ht hd (hrest done)
        · rw [if_neg hd, visit_succ]
          have hbelow : Explores graph (trail ++ [place]) done (targets graph place)
              (visitAll graph fuel (trail ++ [place]) (targets graph place) done) := by
            refine ih ?_ ?_ ?_
            · rw [← List.concat_eq_append]
              exact hnodup.concat ht
            · intro hne a ha
              rcases List.mem_append.mp ha with ha | ha
              · exact hlisted a ha
              · obtain ⟨target, htarget⟩ := List.exists_mem_of_ne_nil _ hne
                rw [List.mem_singleton.mp ha]
                exact Edge.mem_keys htarget
            · rw [List.length_append, List.length_singleton]
              omega
          cases hresult : visitAll graph fuel (trail ++ [place]) (targets graph place) done with
          | error c =>
            rw [hresult] at hbelow
            exact .fail ht hd hbelow
          | ok below =>
            rw [hresult] at hbelow
            exact .descend ht hd hbelow (hrest (place :: below))

/-- The search comes to an end by itself, before its bound. -/
theorem explores_search (graph : Graph α) :
    Explores graph [] [] (graph.map (·.1)) (search graph) := by
  rw [search_eq]
  exact explores_visitAll .nil (fun _ a ha => absurd ha List.not_mem_nil) (by simp)

end Fuel

namespace Explores

variable {trail done done' places c : List α}

/-- All that a search is done with is sorted, if it was before, and has the places looked for and none
of the trail that it did not have. -/
theorem sorted (h : Explores graph trail done places (.ok done')) (hs : Sorted graph done) :
    Sorted graph done' ∧ (∀ a ∈ done, a ∈ done') ∧ (∀ a ∈ places, a ∈ done') ∧
      ∀ a ∈ done', a ∈ done ∨ a ∉ trail := by
  generalize hr : Except.ok done' = result at h
  induction h generalizing done' with
  | finish =>
    cases hr
    exact ⟨hs, fun _ ha => ha, by simp, fun _ ha => .inl ha⟩
  | close => cases hr
  | skip _ hd _ ih =>
    obtain ⟨hs', hkept, hin, hnew⟩ := ih hs hr
    exact ⟨hs', hkept, List.forall_mem_cons.mpr ⟨hkept _ hd, hin⟩, hnew⟩
  | @descend trail done below rest place _ ht hd _ _ ihbelow ihrest =>
    obtain ⟨hsbelow, hkept, hin, hnew⟩ := ihbelow hs rfl
    have hplace : place ∉ below := fun hmem => by
      rcases hnew place hmem with h | h
      · exact hd h
      · exact h (by simp)
    obtain ⟨hs', hkept', hin', hnew'⟩ := ihrest ⟨hplace, hin, hsbelow⟩ hr
    refine ⟨hs', fun a ha => hkept' a (List.mem_cons_of_mem _ (hkept a ha)),
      List.forall_mem_cons.mpr ⟨hkept' _ List.mem_cons_self, hin'⟩, fun a ha => ?_⟩
    rcases hnew' a ha with ha | ha
    · rcases List.mem_cons.mp ha with rfl | ha
      · exact .inr ht
      · exact (hnew a ha).imp_right fun hnot hmem => hnot (List.mem_append_left _ hmem)
    · exact .inr ha
  | fail => cases hr

/-- A trail closes where its end points back at one of its places. -/
private theorem isCycle_of_mem {place : α} (hc : (trail ++ [place]).IsChain (Edge graph))
    (ht : place ∈ trail) : IsCycle graph (trail.dropWhile (· ≠ place) ++ [place]) := by
  obtain ⟨before, hsuffix⟩ := List.dropWhile_suffix (l := trail) (fun x => decide (x ≠ place))
  cases hd : trail.dropWhile (· ≠ place) with
  | nil =>
    have hall := List.dropWhile_eq_nil_iff.mp hd place ht
    simp at hall
  | cons a l =>
    have ha : a = place := by
      have hhead := List.head?_dropWhile_not (fun x => decide (x ≠ place)) trail
      rw [hd] at hhead
      simpa using hhead
    refine ⟨a, l, by rw [ha], ?_⟩
    rw [← hsuffix, hd, List.append_assoc] at hc
    exact hc.right_of_append

/-- Where each place looked for goes on a trail of places that each point at the next, what is
reported is a cycle. -/
theorem isCycle (h : Explores graph trail done places (.error c))
    (hc : ∀ p ∈ places, (trail ++ [p]).IsChain (Edge graph)) : IsCycle graph c := by
  generalize hr : Except.error c = result at h
  induction h generalizing c with
  | finish => cases hr
  | close ht =>
    cases hr
    exact isCycle_of_mem (hc _ List.mem_cons_self) ht
  | skip _ _ _ ih => exact ih (fun p hp => hc p (List.mem_cons_of_mem _ hp)) hr
  | descend _ _ _ _ _ ih => exact ih (fun p hp => hc p (List.mem_cons_of_mem _ hp)) hr
  | fail _ _ _ ih =>
    refine ih (fun p hp => ?_) hr
    rw [List.append_assoc, List.singleton_append, List.isChain_append_cons_cons]
    exact ⟨hc _ List.mem_cons_self, hp, List.isChain_singleton _⟩

/-- What is reported comes to no place twice but to that which it ends in. -/
theorem nodup_dropLast (h : Explores graph trail done places (.error c)) (hn : trail.Nodup) :
    c.dropLast.Nodup := by
  generalize hr : Except.error c = result at h
  induction h generalizing c with
  | finish => cases hr
  | close =>
    cases hr
    rw [List.dropLast_concat]
    exact hn.sublist (List.dropWhile_sublist _)
  | skip _ _ _ ih => exact ih hn hr
  | descend _ _ _ _ _ ih => exact ih hn hr
  | fail ht _ _ ih =>
    refine ih ?_ hr
    rw [← List.concat_eq_append]
    exact hn.concat ht

end Explores

private theorem search_of_cycle? {c : List α} (h : cycle? graph = some c) :
    Explores graph [] [] (graph.map (·.1)) (.error c) := by
  have hexplores := explores_search graph
  unfold cycle? at h
  split at h
  · next c' hc =>
    cases h
    rwa [hc] at hexplores
  · cases h

/-- What is reported is a cycle. -/
theorem isCycle_of_cycle?_eq_some {c : List α} (h : cycle? graph = some c) :
    IsCycle graph c :=
  (search_of_cycle? h).isCycle fun _ _ => List.isChain_singleton _

/-- What is reported comes to no place twice but to that which it starts from. -/
theorem nodup_of_cycle?_eq_some {c : List α} (h : cycle? graph = some c) : c.dropLast.Nodup :=
  (search_of_cycle? h).nodup_dropLast .nil

/-- Where no cycle is reported, all that is listed can be sorted. -/
theorem exists_sorted_of_cycle?_eq_none (h : cycle? graph = none) :
    ∃ order, Sorted graph order ∧ ∀ a ∈ graph.map (·.1), a ∈ order := by
  have hexplores := explores_search graph
  unfold cycle? at h
  split at h
  · cases h
  · next done hd =>
    rw [hd] at hexplores
    obtain ⟨hs, -, hin, -⟩ := hexplores.sorted trivial
    exact ⟨done, hs, hin⟩

/-- A cycle is reported unless no place leads back to itself. -/
theorem cycle?_eq_none_iff :
    cycle? graph = none ↔ ∀ a, ¬ Relation.TransGen (Edge graph) a a := by
  constructor
  · intro h a ha
    obtain ⟨order, hs, hin⟩ := exists_sorted_of_cycle?_eq_none h
    obtain ⟨t, ht, -⟩ := Relation.TransGen.head'_iff.mp ha
    exact hs.not_transGen (hin a ht.mem_keys) ha
  · intro h
    cases hc : cycle? graph with
    | none => rfl
    | some c =>
      obtain ⟨a, ha⟩ := (isCycle_of_cycle?_eq_some hc).exists_transGen
      exact absurd ha (h a)

end Groundplan.References
