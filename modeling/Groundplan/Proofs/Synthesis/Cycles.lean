import Groundplan.Proofs.Synthesis.Refusals

/-!
# What the search for cycles reports

On every graph the search comes to an end, and it reports a way exactly if some place leads back to
itself: the way goes from place to place along the edges, ends where it starts, and comes to no
other place twice. A stack whose blocks all have their slots is refused exactly for such a way,
which the fault names by the paths of its nodes.
-/

namespace Groundplan

namespace References

variable {α : Type} [DecidableEq α] {graph : Graph α}

/-- A cycle has both its ends in one place, and they are two. -/
theorem IsCycle.ends {c : List α} (h : IsCycle graph c) :
    2 ≤ c.length ∧ c.head? = c.getLast? := by
  obtain ⟨a, l, rfl, -⟩ := h
  constructor
  · simp
  · rw [List.getLast?_concat]
    rfl

/-- A way is reported exactly if some place leads back to itself. -/
theorem exists_cycle?_iff :
    (∃ c, cycle? graph = some c) ↔ ∃ a, Relation.TransGen (Edge graph) a a := by
  rw [← Option.ne_none_iff_exists', ne_eq, cycle?_eq_none_iff, not_forall_not]

end References

namespace Workspace

open References

/-- The search for cycles comes to an end on every graph. It reports a way exactly if there is a
cycle: a way of at least one step along the edges that ends where it starts and comes to no place
twice but to that. A stack whose blocks have their slots is refused exactly for the way that is
reported. -/
theorem cycles_exact :
    (∀ graph : Graph NodeId,
      Explores graph [] [] (graph.map (·.1)) (search graph) ∧
      ((∃ c, cycle? graph = some c) ↔ ∃ a, Relation.TransGen (Edge graph) a a) ∧
      ∀ c, cycle? graph = some c →
        2 ≤ c.length ∧ c.head? = c.getLast? ∧ c.IsChain (Edge graph) ∧ c.dropLast.Nodup) ∧
    ∀ (w : Workspace) stack emit placed, w.placeAll stack = .ok placed → ∀ f,
      w.documentOf stack emit = .error f ↔
        ∃ c, cycle? (w.referenceGraph stack) = some c ∧ f = .cycle (c.map w.path) := by
  refine ⟨fun graph => ⟨explores_search graph, exists_cycle?_iff, fun c hc => ?_⟩, ?_⟩
  · have hcycle := isCycle_of_cycle?_eq_some hc
    obtain ⟨hlength, hends⟩ := hcycle.ends
    obtain ⟨a, l, -, hchain⟩ := hcycle
    exact ⟨hlength, hends, hchain, nodup_of_cycle?_eq_some hc⟩
  · intro w stack emit placed hplaced f
    rw [documentOf_eq, hplaced]
    cases cycle? (w.referenceGraph stack) with
    | none => simp [bind, Except.bind, pure, Except.pure]
    | some c => simp [bind, Except.bind, throw, throwThe, MonadExceptOf.throw, eq_comm]

/-- Two resources that point at each other have their slots, and the way from one over the other and
back is what their stack is refused for. -/
theorem cycles_exact_mutual : ∃ placed, (run {} mutualCalls).placeAll 0 = .ok placed ∧
    (run {} mutualCalls).documentOf 0 true = .error (.cycle ["stack/a", "stack/b", "stack/a"]) := by
  have hok : ((run {} mutualCalls).placeAll 0).isOk = true := by decide +kernel
  cases hplaced : (run {} mutualCalls).placeAll 0 with
  | error f =>
    rw [hplaced] at hok
    cases hok
  | ok placed =>
    refine ⟨placed, rfl, (cycles_exact.2 _ 0 true placed hplaced _).mpr ⟨[1, 2, 1], ?_, ?_⟩⟩
    · decide +kernel
    · decide +kernel

end Workspace

end Groundplan
