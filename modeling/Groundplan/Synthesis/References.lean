/-!
# Chains of references

Search for a chain of references that leads back to where it started, over a list of places with the
places that each points at. The search goes depth first in the order of the lists; the first place met
again on the way closes the cycle that is reported, from that place round to it again.
-/

namespace Groundplan.References

variable {α : Type} [DecidableEq α]

/-- Places, each with those it points at. -/
abbrev Graph (α : Type) := List (α × List α)

/-- The places that a place points at; one that is not listed points at none. -/
def targets (graph : Graph α) (place : α) : List α :=
  ((graph.find? fun e => e.1 = place).map (·.2)).getD []

/-- Searches from a place, below those on `trail`, which come in the order of the way. Answers with
all places done with, or with a cycle. Embeds `visit` of `_check_reference_cycles`. -/
def visit (graph : Graph α) : Nat → List α → List α → α → Except (List α) (List α)
  | 0, _, done, _ => .ok done
  | fuel + 1, trail, done, place => do
      let trail := trail ++ [place]
      let done ← (targets graph place).foldlM (fun done target =>
        if target ∈ trail then .error (trail.dropWhile (· ≠ target) ++ [target])
        else if target ∈ done then .ok done
        else visit graph fuel trail done target) done
      return place :: done

/-- Searches from every place that is listed. No trail is longer than the list and one more. -/
def search (graph : Graph α) : Except (List α) (List α) :=
  graph.foldlM (fun done (place, _) =>
    if place ∈ done then .ok done else visit graph (graph.length + 1) [] done place) []

/-- A cycle, with the place it starts from at both ends. Embeds `_check_reference_cycles`. -/
def cycle? (graph : Graph α) : Option (List α) :=
  match search graph with
  | .error cycle => some cycle
  | .ok _ => none

end Groundplan.References
