import Ramify.Proofs.Worksheet.Course

/-!
The order of attempts. In one round of solving a branch all subsets of its relations are tried, as
long as none resolves anything: smaller ones first, those of one size in lexicographic order, each
once.
-/

namespace Ramify.Worksheet

variable {K σ : Type} [Scalar K]

omit [Scalar K] in
/-- No more relations are solved together than there are. -/
theorem largestSubset_le (options : WorksheetOptions K) (count : Nat) :
    largestSubset options count ≤ count := by
  unfold largestSubset
  split
  · exact Nat.le_refl count
  · exact Nat.min_le_left count _

/-- The search through the subsets of relations is complete. For every size up to their number, it
goes through all increasing vectors of that many positions in range, each once, in lexicographic
order: it tests the relations at each of them until a test passes, and if none passes it ends when
it has handed over all of them. Through all sizes that are tried, it goes through the vectors of
each size, smaller ones first, each once. There is a relation at every position, the places of a
vector are accessed with a proof that they exist, and in unsigned words that can hold the number of
relations, the largest position at a place is calculated without an overflow. An attempt is made
with the relations at every vector if no attempt resolves anything. -/
theorem every_subset_is_tried (options : WorksheetOptions K) (relations : List (Relation K))
    (id : Nat) :
    (∀ size, 1 ≤ size → size ≤ relations.length →
      Enumerates (indexVectors relations.length size)
        (fun indices => indices.length = size ∧ IsIndexVector relations.length indices) (· < ·) ∧
      (∀ (m : Type → Type) [Monad m] [LawfulMonad m] (test : List (Relation K) → m Bool),
        anySubset test size relations =
          (indexVectors relations.length size).anyM fun indices =>
            test (elementsAt relations indices)) ∧
      (anySubset (m := StateM (List (List (Relation K))))
          (fun subset => do modify (· ++ [subset]); pure false) size relations).run [] =
        (false, (indexVectors relations.length size).map (elementsAt relations)) ∧
      ∀ word place, relations.length < 2 ^ word → 1 ≤ place → place ≤ size →
        let total := BitVec.ofNat word relations.length
        let chosen := BitVec.ofNat word size
        let before := BitVec.ofNat word place - BitVec.ofNat word 1
        total.usubOverflow chosen = false ∧
          (BitVec.ofNat word place).usubOverflow (BitVec.ofNat word 1) = false ∧
          (total - chosen).uaddOverflow before = false ∧
          (total - chosen + before).toNat =
            Combination.top relations.length size (place - 1) ∧
          Combination.top relations.length size (place - 1) < relations.length) ∧
    largestSubset options relations.length ≤ relations.length ∧
    Enumerates (indexVectorsUpTo relations.length (largestSubset options relations.length))
      (fun indices => 1 ≤ indices.length ∧
        indices.length ≤ largestSubset options relations.length ∧
        IsIndexVector relations.length indices) Earlier ∧
    (∀ (m : Type → Type) [Monad m] [LawfulMonad m] (test : List (Relation K) → m Bool),
      anySubsetUpTo test (largestSubset options relations.length) relations =
        (indexVectorsUpTo relations.length (largestSubset options relations.length)).anyM
          fun indices => test (elementsAt relations indices)) ∧
    (∀ indices, IsIndexVector relations.length indices →
      (elementsAt relations indices).map some = indices.map (relations[·]?)) ∧
    ∀ (sheet after : Worksheet K σ),
      outcome (anySubsetUpTo (resolveBy id) (largestSubset options relations.length) relations)
        sheet = (.ok false, after) →
      ∀ indices ∈ indexVectorsUpTo relations.length (largestSubset options relations.length),
        ∃ moment next,
          Reaches (fun indices => resolveBy id (elementsAt relations indices)) (· = false)
            (indexVectorsUpTo relations.length (largestSubset options relations.length)) sheet
            indices moment ∧
          outcome (resolveBy id (elementsAt relations indices)) moment = (.ok false, next) := by
  refine ⟨fun size _ hsize => ⟨enumerates_indexVectors _ _, ?_, ?_, ?_⟩, largestSubset_le _ _,
    enumerates_indexVectorsUpTo _ _, ?_, fun _ => map_some_elementsAt, ?_⟩
  · exact fun m _ _ test => anySubset_eq_anyM_indexVectors test size relations
  · rw [anySubset_eq_anyM_indexVectors, run_anyM_record, List.nil_append]
  · intro word place hword hpos hplace
    exact toNat_top_word hword hsize hpos hplace
  · exact fun m _ _ test => anySubsetUpTo_eq_anyM_indexVectors test _ relations
  · intro sheet after hrun
    rw [anySubsetUpTo_eq_anyM_indexVectors] at hrun
    exact reaches_of_anyM hrun

end Ramify.Worksheet
