import Ramify.Relation

/-!
What a solver can say about a list of relations.
-/

namespace Ramify

/-- A candidate solution: values for some of the unknowns, which may mention the others. -/
abbrev Solution (K : Type) := SortedMap Symbol (Fraction K)

inductive Answer (K : Type)
  /-- The relations contradict each other. -/
  | noSolution
  /-- Every solution is one of the candidates. -/
  | solved (candidates : List (Solution K))
  /-- No solution can be expressed, which says nothing about the relations. -/
  | indeterminate

/-- The answer that lists the candidates; without candidates there is no solution. -/
def Answer.ofCandidates {K : Type} : List (Solution K) → Answer K
  | [] => noSolution
  | candidates => solved candidates

end Ramify
