import Ramify.Proofs.Algebra.Homomorphism
import Ramify.Proofs.Algebra.Substitution

/-!
Substitution and evaluation. Replacing symbols by fractions, all at once, and evaluating the result
gives the same number as evaluating the fraction itself where the replaced symbols have the numbers
that their replacements evaluate to. A replacement is evaluated at the point as it was, also for
symbols that are themselves replaced.
-/

namespace Ramify.Fraction

section Overridden

variable {K : Type} [Scalar K] {point : SortedMap Symbol K}

/-- The point with a number for a symbol, if a replacement for it evaluates to one. -/
def overrideEntry (point : SortedMap Symbol K) (values : SortedMap Symbol K)
    (entry : Symbol × Fraction K) : SortedMap Symbol K :=
  match entry.2.eval point with
  | .ok (some value) => values.insert entry.1 value
  | _ => values

/-- A point overridden with the numbers that replacements evaluate to at it. -/
def overridden (point : SortedMap Symbol K) (replacements : SortedMap Symbol (Fraction K)) :
    SortedMap Symbol K :=
  replacements.entries.foldl (overrideEntry point) point

theorem find?_overrideEntry_of_ne {entry : Symbol × Fraction K} {symbol : Symbol}
    (h : entry.1 ≠ symbol) (values : SortedMap Symbol K) :
    (overrideEntry point values entry).find? symbol = values.find? symbol := by
  unfold overrideEntry
  split
  · exact SortedMap.find?_insert_of_ne _ _ h
  · rfl

private theorem find?_overrideEntries_of_not_mem {entries : List (Symbol × Fraction K)}
    {symbol : Symbol} (h : symbol ∉ entries.map Prod.fst) (values : SortedMap Symbol K) :
    (entries.foldl (overrideEntry point) values).find? symbol = values.find? symbol := by
  induction entries generalizing values with
  | nil => rfl
  | cons entry rest ih =>
      rw [List.map_cons, List.mem_cons, not_or] at h
      rw [List.foldl_cons, ih h.2, find?_overrideEntry_of_ne (Ne.symm h.1)]

private theorem find?_overrideEntries_of_mem {entries : List (Symbol × Fraction K)}
    (hdistinct : (entries.map Prod.fst).Nodup) {entry : Symbol × Fraction K}
    (hentry : entry ∈ entries) {w : K} (hw : entry.2.eval point = .ok (some w))
    (values : SortedMap Symbol K) :
    (entries.foldl (overrideEntry point) values).find? entry.1 = some w := by
  induction entries generalizing values with
  | nil => cases hentry
  | cons head rest ih =>
      rw [List.map_cons, List.nodup_cons] at hdistinct
      rw [List.foldl_cons]
      rcases List.mem_cons.1 hentry with rfl | hrest
      · rw [find?_overrideEntries_of_not_mem hdistinct.1]
        unfold overrideEntry
        rw [hw]
        exact SortedMap.find?_insert_self _ _ _
      · exact ih hdistinct.2 hrest _

variable {replacements : SortedMap Symbol (Fraction K)} {symbol : Symbol}

theorem find?_overridden_of_none (h : replacements.find? symbol = none) :
    (overridden point replacements).find? symbol = point.find? symbol := by
  apply find?_overrideEntries_of_not_mem
  intro hmem
  have hsome := (SortedMap.mem_keys_iff replacements symbol).1 hmem
  rw [h] at hsome
  cases hsome

theorem find?_overridden_of_some {replacement : Fraction K}
    (h : replacements.find? symbol = some replacement) {w : K}
    (hw : replacement.eval point = .ok (some w)) :
    (overridden point replacements).find? symbol = some w :=
  find?_overrideEntries_of_mem (SortedMap.nodup_keys replacements)
    ((SortedMap.mem_entries_iff replacements (symbol, replacement)).2 h) hw point

end Overridden

variable {K : Type} [ExactScalar K] {point : SortedMap Symbol K}
  {replacements : SortedMap Symbol (Fraction K)}

theorem rebinds_overridden (hresolution : 0 < (Scalar.resolution : K))
    (h : ∀ entry ∈ replacements.entries, ∃ w, entry.2.eval point = .ok (some w)) :
    Rebinds replacements (assignment point) (assignment (overridden point replacements)) where
  kept hnone := by
    unfold assignment
    rw [find?_overridden_of_none hnone]
  replaced {symbol replacement} hfound := by
    obtain ⟨w, hw⟩ :=
      h (symbol, replacement) ((SortedMap.mem_entries_iff _ (symbol, replacement)).2 hfound)
    unfold assignment
    rw [find?_overridden_of_some hfound hw]
    exact hasValue_of_eval hresolution hw

/-- A substitution evaluates to the number of the fraction at the point overridden with the numbers
of the replacements, and leaves a replaced symbol only if a replacement has it. -/
theorem substitution_overrides_the_point (hresolution : 0 < (Scalar.resolution : K))
    (a : Fraction K) (replacements : SortedMap Symbol (Fraction K)) :
    (∀ (point : SortedMap Symbol K) (v : K),
      (∀ entry ∈ replacements.entries, ∃ w, entry.2.eval point = .ok (some w)) →
      a.eval (overridden point replacements) = .ok (some v) →
      Evaluates point (a.subst replacements) v) ∧
    ∀ b, a.subst replacements = .ok b → ∀ symbol ∈ b.symbols, replacements.contains symbol = true →
      ∃ entry ∈ replacements.entries, symbol ∈ entry.2.symbols := by
  constructor
  · intro point v hreplacements hv
    exact evaluates_of_hasValue hresolution
      ((rebinds_overridden hresolution hreplacements).hasValue_subst
        (hasValue_of_eval hresolution hv))
  · intro b hb symbol hsymbol hreplaced
    -- the symbols of the result are the ones not replaced and the ones of the replacements
    have hwithin : b.Within (fun other => replacements.find? other = none ∨
        ∃ entry ∈ replacements.entries, other ∈ entry.2.symbols) := by
      refine within_subst (fun other value hfound => ?_) (over_iff.2 fun _ _ => Or.inl) hb
      exact over_iff.2 fun used hused =>
        Or.inr ⟨(other, value), (SortedMap.mem_entries_iff _ (other, value)).2 hfound, hused⟩
    rcases over_iff.1 ⟨hwithin.num_over, hwithin.den_over⟩ symbol hsymbol with hnone | hmentioned
    · unfold SortedMap.contains at hreplaced
      rw [hnone] at hreplaced
      cases hreplaced
    · exact hmentioned

/-- Two symbols that are replaced by fractions in each other, at once. -/
theorem symbols_replaced_by_each_other :
    let x : Monomial Rat := .ofSymbol ⟨"x", false⟩
    let y : Monomial Rat := .ofSymbol ⟨"y", false⟩
    let point : SortedMap Symbol Rat := .ofList [(⟨"x", false⟩, 1), (⟨"y", false⟩, 4)]
    let replacements : SortedMap Symbol (Fraction Rat) :=
      .ofList [(⟨"x", false⟩, ⟨.ofMonomial y, .ofTerms [x, .const 1]⟩),
        (⟨"y", false⟩, ⟨.ofMonomial x, .one⟩)]
    let a : Fraction Rat := ⟨.ofTerms [x * x, .single 3 ⟨"y", false⟩ (-1)], .ofTerms [x, y]⟩
    (∀ entry ∈ replacements.entries, ∃ w, entry.2.eval point = .ok (some w)) ∧
      a.eval (overridden point replacements) = .ok (some (7 / 3)) ∧
      Evaluates point (a.subst replacements) (7 / 3) ∧
      (a.subst replacements >>= fun b => b.eval point) = .ok (some (7 / 3)) := by
  intro x y point replacements a
  have hreplacements : ∀ entry ∈ replacements.entries, ∃ w, entry.2.eval point = .ok (some w) := by
    have hall : ∀ entry ∈ replacements.entries,
        entry.2.eval point = .ok (some 2) ∨ entry.2.eval point = .ok (some 1) := by
      decide +kernel
    intro entry hentry
    rcases hall entry hentry with hw | hw
    · exact ⟨2, hw⟩
    · exact ⟨1, hw⟩
  have ha : a.eval (overridden point replacements) = .ok (some (7 / 3)) := by decide +kernel
  have hresolution : 0 < (Scalar.resolution : Rat) := by decide +kernel
  have hsubst := (substitution_overrides_the_point hresolution a replacements).1
  exact ⟨hreplacements, ha, hsubst point (7 / 3) hreplacements ha, by decide +kernel⟩

end Ramify.Fraction
