import Ramify.Proofs.Algebra.Symbols

/-!
Substitution of fractions for symbols. The value of its result at a point is the value of the
fraction at the point where each replaced symbol stands for the value of its replacement. The points
are the same where each replacement has the value of the symbol that it replaces: there a
substitution changes no value.
-/

namespace Ramify.Fraction

variable {K : Type} [ExactScalar K] {z rebound : Symbol → K} {P : Symbol → Prop}

/-- A point differs from another in that each replaced symbol has the value of its replacement. -/
structure Rebinds (replacements : SortedMap Symbol (Fraction K)) (z rebound : Symbol → K) :
    Prop where
  kept {symbol : Symbol} : replacements.find? symbol = none → rebound symbol = z symbol
  replaced {symbol : Symbol} {value : Fraction K} :
    replacements.find? symbol = some value → value.HasValue z (rebound symbol)

/-- Every replacement has the value of the symbol that it replaces. -/
def Matches (z : Symbol → K) (replacements : SortedMap Symbol (Fraction K)) : Prop :=
  ∀ symbol value, replacements.find? symbol = some value → value.HasValue z (z symbol)

theorem matches_single {symbol : Symbol} {value : Fraction K}
    (hvalue : value.HasValue z (z symbol)) :
    Matches z (SortedMap.single symbol value) := by
  intro other found hfound
  rw [SortedMap.find?_single] at hfound
  split at hfound
  · rename_i hsame
    cases hfound
    rw [← hsame]
    exact hvalue
  · cases hfound

variable {replacements : SortedMap Symbol (Fraction K)}

theorem Matches.rebinds (h : Matches z replacements) : Rebinds replacements z z :=
  ⟨fun _ => rfl, fun {_ _} hfound => h _ _ hfound⟩

theorem hasValue_mulPower {a base : Fraction K} {v w : K} (ha : a.HasValue z v)
    (hbase : base.HasValue z w) {exponent : Int} (hdefined : exponent < 0 → w ≠ 0) :
    ∃ b, a.mulPower base exponent = .ok b ∧ b.HasValue z (v * w ^ exponent) := by
  obtain ⟨power, hpower, hvalue⟩ := hasValue_powNat hbase exponent.natAbs
  unfold mulPower
  rw [hpower, except_ok_bind]
  split
  · rename_i hneg
    obtain ⟨b, hb, hquotient⟩ := hasValue_div ha hvalue (pow_ne_zero _ (hdefined hneg))
    refine ⟨b, hb, ?_⟩
    have hzpow : v * w ^ exponent = v / w ^ exponent.natAbs := by
      rw [div_eq_mul_inv, ← zpow_natCast, ← zpow_neg]
      congr 2
      omega
    rw [hzpow]
    exact hquotient
  · obtain ⟨b, hb, hproduct⟩ := hasValue_mul ha hvalue
    refine ⟨b, hb, ?_⟩
    have hzpow : w ^ exponent = w ^ exponent.natAbs := by
      rw [← zpow_natCast]
      congr 1
      omega
    rw [hzpow]
    exact hproduct

/-- Powers of different symbols are taken over one after the other. -/
private theorem hasValue_substPowers (h : Rebinds replacements z rebound)
    (entries : List (Symbol × Int))
    (hdistinct : (entries.map Prod.fst).Nodup)
    (hdefined : ∀ entry ∈ entries, entry.2 < 0 → rebound entry.1 ≠ 0) (kept : Monomial K)
    (replaced : Fraction K) {v : K} (hkept : kept.exponents.DefinedAt z)
    (hnew : ∀ entry ∈ entries, kept.exponents.get entry.1 = 0) (hreplaced : replaced.HasValue z v) :
    ∃ kept' replaced' w,
      entries.foldlM (substPower replacements) (kept, replaced) = .ok (kept', replaced') ∧
      kept'.exponents.DefinedAt z ∧ replaced'.HasValue z w ∧
      kept'.value z * w =
        kept.value z * v * (entries.map (fun entry => rebound entry.1 ^ entry.2)).prod := by
  induction entries generalizing kept replaced v with
  | nil => exact ⟨kept, replaced, v, rfl, hkept, hreplaced, by simp⟩
  | cons entry rest ih =>
      rw [List.map_cons, List.nodup_cons] at hdistinct
      have hhere := hdefined entry List.mem_cons_self
      have hdefined' := fun e he => hdefined e (List.mem_cons_of_mem entry he)
      have hnew' := fun e he => hnew e (List.mem_cons_of_mem entry he)
      rw [List.foldlM_cons, List.map_cons, List.prod_cons]
      cases hfind : replacements.find? entry.1 with
      | none =>
          have hstep : substPower replacements (kept, replaced) entry =
              .ok (⟨kept.coeff, kept.exponents.set entry.1 entry.2⟩, replaced) := by
            unfold substPower
            rw [hfind]
            rfl
          have hset : (kept.exponents.set entry.1 entry.2).DefinedAt z := by
            intro symbol hneg
            rw [Powers.get_set] at hneg
            split at hneg
            · rename_i hsame
              rw [← hsame, ← h.kept hfind]
              exact hhere hneg
            · exact hkept symbol hneg
          have hfresh : ∀ e ∈ rest, (kept.exponents.set entry.1 entry.2).get e.1 = 0 := by
            intro e he
            have hne : entry.1 ≠ e.1 := by
              intro hsame
              apply hdistinct.1
              rw [hsame]
              exact List.mem_map.2 ⟨e, he, rfl⟩
            rw [Powers.get_set, if_neg hne]
            exact hnew' e he
          obtain ⟨kept', replaced', w, hrun, hdefined'', hvalue, hproduct⟩ :=
            ih hdistinct.2 hdefined' ⟨kept.coeff, kept.exponents.set entry.1 entry.2⟩ replaced hset
              hfresh hreplaced
          refine ⟨kept', replaced', w, ?_, hdefined'', hvalue, ?_⟩
          · rw [hstep, except_ok_bind]
            exact hrun
          · rw [hproduct]
            simp only [Monomial.value]
            rw [Powers.value_set_new z kept.exponents entry.1 entry.2
              (hnew entry List.mem_cons_self), h.kept hfind]
            ring
      | some replacement =>
          obtain ⟨product, hproduct, hproductValue⟩ :=
            hasValue_mulPower hreplaced (h.replaced hfind) hhere
          have hstep : substPower replacements (kept, replaced) entry = .ok (kept, product) := by
            unfold substPower
            rw [hfind]
            simp only [hproduct, except_ok_bind, except_pure]
          obtain ⟨kept', replaced', w, hrun, hdefined'', hvalue, htotal⟩ :=
            ih hdistinct.2 hdefined' kept product hkept hnew' hproductValue
          refine ⟨kept', replaced', w, ?_, hdefined'', hvalue, ?_⟩
          · rw [hstep, except_ok_bind]
            exact hrun
          · rw [htotal]
            ring

/-- A term is split into two parts whose product it is. -/
theorem hasValue_substTerm (h : Rebinds replacements z rebound) {m : Monomial K}
    (hm : m.exponents.DefinedAt rebound) :
    ∃ kept replaced w, substTerm m replacements = .ok (kept, replaced) ∧
      kept.exponents.DefinedAt z ∧ replaced.HasValue z w ∧ kept.value z * w = m.value rebound := by
  have hentry : ∀ entry ∈ m.exponents.entries, entry.2 < 0 → rebound entry.1 ≠ 0 := by
    intro entry hentry hneg
    apply hm entry.1
    rw [((Powers.mem_entries_iff m.exponents entry).1 hentry).1]
    exact hneg
  obtain ⟨kept, replaced, w, hrun, hkept, hvalue, hproduct⟩ :=
    hasValue_substPowers h m.exponents.entries (SortedMap.nodup_keys m.exponents.map) hentry
      (Monomial.const m.coeff) (const 1) (natural_empty.definedAt z) (fun _ _ => rfl)
      (hasValue_const z 1)
  refine ⟨kept, replaced, w, hrun, hkept, hvalue, ?_⟩
  have hconst : (Monomial.const m.coeff).value z = m.coeff := mul_one m.coeff
  rw [hproduct, hconst, mul_one]
  rfl

theorem hasValue_addSubst (h : Rebinds replacements z rebound) {a : Fraction K} {v : K}
    (ha : a.HasValue z v) {m : Monomial K} (hm : m.exponents.DefinedAt rebound) :
    ∃ b, addSubst replacements a m = .ok b ∧ b.HasValue z (v + m.value rebound) := by
  obtain ⟨kept, replaced, w, hsplit, hkept, hreplaced, hproduct⟩ := hasValue_substTerm h hm
  obtain ⟨product, hmul, hproductValue⟩ := hasValue_mul hreplaced (hasValue_ofMonomial hkept)
  obtain ⟨sum, hadd, hsum⟩ := hasValue_add ha hproductValue
  refine ⟨sum, ?_, ?_⟩
  · unfold addSubst
    simp only [hsplit, hmul, hadd, except_ok_bind]
  · rw [← hproduct, mul_comm (kept.value z) w]
    exact hsum

theorem Rebinds.hasValue_substPolynomial (h : Rebinds replacements z rebound) {p : Polynomial K}
    (hp : p.All (Powers.DefinedAt rebound)) :
    ∃ a, substPolynomial p replacements = .ok a ∧ a.HasValue z (p.value rebound) := by
  have hfold (terms : List (Monomial K)) (hterms : ∀ m ∈ terms, m.exponents.DefinedAt rebound)
      (acc : Fraction K) (v : K) (hacc : acc.HasValue z v) :
      ∃ a, terms.foldlM (addSubst replacements) acc = .ok a ∧
        a.HasValue z (v + (terms.map (Monomial.value rebound)).sum) := by
    induction terms generalizing acc v with
    | nil => exact ⟨acc, rfl, by simpa using hacc⟩
    | cons m rest ih =>
        obtain ⟨sum, hadd, hsum⟩ := hasValue_addSubst h hacc (hterms m List.mem_cons_self)
        obtain ⟨a, hrun, hvalue⟩ := ih (fun n hn => hterms n (List.mem_cons_of_mem m hn)) sum _ hsum
        refine ⟨a, ?_, ?_⟩
        · rw [List.foldlM_cons, hadd, except_ok_bind]
          exact hrun
        · rw [List.map_cons, List.sum_cons, ← add_assoc]
          exact hvalue
  obtain ⟨a, hrun, hvalue⟩ := hfold p.terms hp (const 0) 0 (hasValue_const z 0)
  rw [zero_add] at hvalue
  exact ⟨a, hrun, hvalue⟩

/-- The value of a substitution is that of the fraction at the rebound point. -/
theorem Rebinds.hasValue_subst (h : Rebinds replacements z rebound) {a : Fraction K} {v : K}
    (ha : a.HasValue rebound v) : ∃ b, a.subst replacements = .ok b ∧ b.HasValue z v := by
  obtain ⟨num, hnum, hnumValue⟩ := h.hasValue_substPolynomial ha.num_defined
  obtain ⟨den, hden, hdenValue⟩ := h.hasValue_substPolynomial ha.den_defined
  obtain ⟨b, hdiv, hvalue⟩ := hasValue_div hnumValue hdenValue ha.den_ne
  refine ⟨b, ?_, ?_⟩
  · unfold subst
    simp only [hnum, hden, except_ok_bind]
    exact hdiv
  · rw [ha.eq, mul_div_cancel_right₀ v ha.den_ne] at hvalue
    exact hvalue

theorem hasValue_substPolynomial (h : Matches z replacements) {p : Polynomial K}
    (hp : p.All (Powers.DefinedAt z)) :
    ∃ a, substPolynomial p replacements = .ok a ∧ a.HasValue z (p.value z) :=
  h.rebinds.hasValue_substPolynomial hp

/-- A substitution that agrees with the point changes no value. -/
theorem hasValue_subst (h : Matches z replacements) {a : Fraction K} {v : K}
    (ha : a.HasValue z v) : ∃ b, a.subst replacements = .ok b ∧ b.HasValue z v :=
  h.rebinds.hasValue_subst ha

/-- A substitution gives a fraction in normal form, in the symbols that are not replaced and those
of the replacements. -/
theorem within_subst
    (hrep : ∀ symbol value, replacements.find? symbol = some value → value.Over P)
    {a b : Fraction K} (ha : a.Over (fun symbol => replacements.find? symbol = none → P symbol))
    (h : a.subst replacements = .ok b) : b.Within P := by
  unfold subst at h
  obtain ⟨num, hnum, hrest⟩ := except_bind_eq_ok.1 h
  obtain ⟨den, hden, hdiv⟩ := except_bind_eq_ok.1 hrest
  exact within_div (over_substPolynomial hrep ha.1 hnum) (over_substPolynomial hrep ha.2 hden) hdiv

end Ramify.Fraction
