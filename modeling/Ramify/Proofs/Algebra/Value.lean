import Mathlib.Algebra.BigOperators.Field
import Mathlib.Algebra.BigOperators.Ring.List
import Mathlib.Tactic.Abel
import Mathlib.Tactic.Ring
import Ramify.Algebra.Polynomial
import Ramify.Proofs.Powers
import Ramify.Proofs.Scalar.Exact

/-!
The value of a polynomial where every symbol has a value. Over exact numbers the operations on
polynomials are those on their values, as far as no negative power of zero occurs.
-/

namespace Ramify

section Sum

variable {κ α M : Type} [Ord κ] [Std.LawfulEqOrd κ] [Std.TransOrd κ] [AddCommGroup M]

/-- How a sum over the entries of a map changes when a value is written. -/
theorem SortedMap.sum_insert (f : κ × α → M) (map : SortedMap κ α) (key : κ) (value : α) :
    ((map.insert key value).entries.map f).sum = (map.entries.map f).sum + f (key, value) -
      ((map.find? key).map (fun old => f (key, old))).getD 0 := by
  have hnew := (entries_perm (map.find?_insert_self key value)).map f
  rw [erase_insert] at hnew
  rw [hnew.sum_eq, List.map_cons, List.sum_cons]
  cases hfind : map.find? key with
  | none =>
      rw [erase_of_find?_none hfind]
      simp [add_comm]
  | some old =>
      have hold := (entries_perm hfind).map f
      rw [hold.sum_eq, List.map_cons, List.sum_cons]
      simp only [Option.map_some, Option.getD_some]
      abel

end Sum

/-- Powers add up, unless a negative power of zero is among them. -/
theorem zpow_add_of_defined {K : Type} [Field K] (x : K) {a b : Int} (ha : a < 0 → x ≠ 0)
    (hb : b < 0 → x ≠ 0) : x ^ (a + b) = x ^ a * x ^ b := by
  by_cases hx : x = 0
  · have ha' : 0 ≤ a := not_lt.1 (fun h => ha h hx)
    have hb' : 0 ≤ b := not_lt.1 (fun h => hb h hx)
    lift a to ℕ using ha'
    lift b to ℕ using hb'
    rw [← Nat.cast_add, zpow_natCast, zpow_natCast, zpow_natCast, pow_add]
  · exact zpow_add₀ hx a b

namespace Powers

variable {κ K : Type} [Ord κ] [Field K]

def value (z : κ → K) (powers : Powers κ) : K :=
  (powers.entries.map (fun entry => z entry.1 ^ entry.2)).prod

/-- Whether no negative power of zero occurs at a point. -/
def DefinedAt (z : κ → K) (powers : Powers κ) : Prop := ∀ base, powers.get base < 0 → z base ≠ 0

/-- Whether no exponent is negative. -/
def Natural (powers : Powers κ) : Prop := ∀ base, 0 ≤ powers.get base

/-- Whether only bases with a property occur. -/
def Over (P : κ → Prop) (powers : Powers κ) : Prop := ∀ base, powers.get base ≠ 0 → P base

omit [Field K] in
theorem Natural.definedAt [Zero K] {powers : Powers κ} (h : powers.Natural) (z : κ → K)
    (base : κ) (hneg : powers.get base < 0) : z base ≠ 0 :=
  absurd hneg (not_lt.2 (h base))

@[simp] theorem value_one (z : κ → K) : (∅ : Powers κ).value z = 1 := rfl

section Decide

variable [Std.LawfulEqOrd κ]

omit [Field K] in
/-- Only the stored bases have to be looked at. -/
instance (P : κ → Prop) [DecidablePred P] (powers : Powers κ) : Decidable (powers.Over P) :=
  decidable_of_iff (∀ entry ∈ powers.entries, P entry.1) <| by
    constructor
    · intro h base hne
      exact h (base, powers.get base) ((powers.mem_entries_iff _).2 ⟨rfl, hne⟩)
    · intro h entry hentry
      obtain ⟨hget, hne⟩ := (powers.mem_entries_iff entry).1 hentry
      exact h entry.1 (hget ▸ hne)

instance [DecidableEq K] (z : κ → K) (powers : Powers κ) : Decidable (powers.DefinedAt z) :=
  decidable_of_iff (∀ entry ∈ powers.entries, entry.2 < 0 → z entry.1 ≠ 0) <| by
    constructor
    · intro h base hneg
      exact h (base, powers.get base) ((powers.mem_entries_iff _).2 ⟨rfl, hneg.ne⟩) hneg
    · intro h entry hentry hneg
      exact h entry.1 (((powers.mem_entries_iff entry).1 hentry).1 ▸ hneg)

end Decide

theorem value_mul_point (z w : κ → K) (powers : Powers κ) :
    powers.value (fun base => z base * w base) = powers.value z * powers.value w := by
  unfold value
  simp only [mul_zpow]
  exact List.prod_map_mul

/-- The value depends on the bases that occur. -/
theorem value_congr [Std.LawfulEqOrd κ] {P : κ → Prop} {powers : Powers κ} (h : powers.Over P)
    {z w : κ → K} (hsame : ∀ base, P base → z base = w base) : powers.value z = powers.value w := by
  unfold value
  congr 1
  apply List.map_congr_left
  intro entry hentry
  obtain ⟨hget, hne⟩ := (mem_entries_iff powers entry).1 hentry
  rw [hsame entry.1 (h entry.1 (hget ▸ hne))]

variable [Std.LawfulEqOrd κ] [DecidableEq κ]

/-- The value as a product over any set of bases that has all that occur. -/
theorem value_eq_prod (z : κ → K) {powers : Powers κ} (bases : Finset κ)
    (h : ∀ base, powers.get base ≠ 0 → base ∈ bases) :
    powers.value z = ∏ base ∈ bases, z base ^ powers.get base := by
  have hkeys : powers.value z =
      (powers.map.keys.map (fun base => z base ^ powers.get base)).prod := by
    unfold value SortedMap.keys
    rw [List.map_map]
    congr 1
    apply List.map_congr_left
    intro entry hentry
    rw [Function.comp_apply, ((mem_entries_iff powers entry).1 hentry).1]
  rw [hkeys, ← List.prod_toFinset _ (SortedMap.nodup_keys powers.map)]
  apply Finset.prod_subset
  · intro base hbase
    exact h base ((mem_keys_iff powers base).1 (List.mem_toFinset.1 hbase))
  · intro base _ hbase
    have hzero : powers.get base = 0 := by
      by_contra hne
      exact hbase (List.mem_toFinset.2 ((mem_keys_iff powers base).2 hne))
    rw [hzero, zpow_zero]

/-- The bases that occur. -/
def support (powers : Powers κ) : Finset κ := powers.map.keys.toFinset

theorem mem_support {powers : Powers κ} {base : κ} :
    base ∈ powers.support ↔ powers.get base ≠ 0 := by
  unfold support
  rw [List.mem_toFinset, mem_keys_iff]

theorem value_erase (z : κ → K) (powers : Powers κ) (base : κ) :
    powers.value z = (powers.erase base).value z * z base ^ powers.get base := by
  have hall : ∀ other, powers.get other ≠ 0 → other ∈ insert base powers.support :=
    fun other h => Finset.mem_insert_of_mem (mem_support.2 h)
  rw [value_eq_prod z _ hall, value_eq_prod z (insert base powers.support) ?_]
  · rw [← Finset.mul_prod_erase _ _ (Finset.mem_insert_self base _),
      ← Finset.mul_prod_erase _ (fun other => z other ^ (powers.erase base).get other)
        (Finset.mem_insert_self base _), get_erase, if_pos rfl, zpow_zero, one_mul, mul_comm]
    congr 1
    apply Finset.prod_congr rfl
    intro other hother
    rw [get_erase, if_neg (Finset.ne_of_mem_erase hother).symm]
  · intro other hne
    rw [get_erase] at hne
    split at hne
    · exact absurd rfl hne
    · exact hall other hne

theorem value_ne_zero {z : κ → K} {powers : Powers κ}
    (h : ∀ base, powers.get base ≠ 0 → z base ≠ 0) : powers.value z ≠ 0 := by
  rw [value_eq_prod z _ (fun base hbase => mem_support.2 hbase)]
  exact Finset.prod_ne_zero_iff.2 (fun base hbase => zpow_ne_zero _ (h base (mem_support.1 hbase)))

/-- A positive power of zero makes the product zero. -/
theorem value_eq_zero {z : κ → K} {powers : Powers κ} {base : κ} (hbase : 0 < powers.get base)
    (hz : z base = 0) : powers.value z = 0 := by
  rw [value_erase z powers base, hz, zero_zpow _ (Int.ne_of_gt hbase), mul_zero]

variable [Std.TransOrd κ]

theorem value_mul {z : κ → K} {left right : Powers κ} (hleft : left.DefinedAt z)
    (hright : right.DefinedAt z) :
    (left.mul right).value z = left.value z * right.value z := by
  have hl : ∀ base, left.get base ≠ 0 → base ∈ left.support ∪ right.support :=
    fun base h => Finset.mem_union_left _ (mem_support.2 h)
  have hr : ∀ base, right.get base ≠ 0 → base ∈ left.support ∪ right.support :=
    fun base h => Finset.mem_union_right _ (mem_support.2 h)
  have hm : ∀ base, (left.mul right).get base ≠ 0 → base ∈ left.support ∪ right.support := by
    intro base h
    rw [get_mul] at h
    by_cases hzero : left.get base = 0
    · exact hr base (by rw [hzero, zero_add] at h; exact h)
    · exact hl base hzero
  rw [value_eq_prod z _ hl, value_eq_prod z _ hr, value_eq_prod z _ hm, ← Finset.prod_mul_distrib]
  apply Finset.prod_congr rfl
  intro base _
  rw [get_mul, zpow_add_of_defined (z base) (hleft base) (hright base)]

/-- Division by powers of bases other than zero. -/
theorem value_div {z : κ → K} (left : Powers κ) {right : Powers κ}
    (hright : ∀ base, right.get base ≠ 0 → z base ≠ 0) :
    left.value z = (left.div right).value z * right.value z := by
  have hl : ∀ base, left.get base ≠ 0 → base ∈ left.support ∪ right.support :=
    fun base h => Finset.mem_union_left _ (mem_support.2 h)
  have hr : ∀ base, right.get base ≠ 0 → base ∈ left.support ∪ right.support :=
    fun base h => Finset.mem_union_right _ (mem_support.2 h)
  have hd : ∀ base, (left.div right).get base ≠ 0 → base ∈ left.support ∪ right.support := by
    intro base h
    rw [get_div] at h
    by_cases hzero : left.get base = 0
    · apply hr base
      intro hzero'
      rw [hzero, hzero', sub_zero] at h
      exact h rfl
    · exact hl base hzero
  rw [value_eq_prod z _ hl, value_eq_prod z _ hr, value_eq_prod z _ hd, ← Finset.prod_mul_distrib]
  apply Finset.prod_congr rfl
  intro base _
  rw [get_div]
  by_cases hzero : right.get base = 0
  · rw [hzero, sub_zero, zpow_zero, mul_one]
  · rw [← zpow_add₀ (hright base hzero), sub_add_cancel]

/-- Writing a power of a base that does not occur multiplies by it. -/
theorem value_set_new (z : κ → K) (powers : Powers κ) (base : κ) (exponent : Int)
    (h : powers.get base = 0) :
    (powers.set base exponent).value z = powers.value z * z base ^ exponent := by
  have herase : (powers.set base exponent).erase base = powers := by
    apply ext_get
    intro other
    rw [get_erase, get_set]
    split
    · rename_i hsame
      rw [← hsame, h]
    · rfl
  rw [value_erase z _ base, herase, get_set, if_pos rfl]

theorem value_single (z : κ → K) (base : κ) (exponent : Int) :
    (single base exponent).value z = z base ^ exponent := by
  have h := value_set_new z ∅ base exponent (get_one base)
  rw [value_one, one_mul] at h
  exact h

theorem value_pow (z : κ → K) (powers : Powers κ) (factor : Int) :
    (powers.pow factor).value z = powers.value z ^ factor := by
  have hall : ∀ base, (powers.pow factor).get base ≠ 0 → base ∈ powers.support := by
    intro base hbase
    rw [get_pow] at hbase
    exact mem_support.2 (left_ne_zero_of_mul hbase)
  rw [value_eq_prod z _ hall, value_eq_prod z _ (fun base hbase => mem_support.2 hbase),
    ← Finset.prod_zpow]
  apply Finset.prod_congr rfl
  intro base _
  rw [get_pow, zpow_mul]

end Powers

def Monomial.value {K : Type} [Field K] (z : Symbol → K) (m : Monomial K) : K :=
  m.coeff * m.exponents.value z

namespace Polynomial

variable {K : Type}

def value [Field K] (z : Symbol → K) (p : Polynomial K) : K :=
  (p.terms.map (Monomial.value z)).sum

/-- Whether the exponents of all terms have a property. -/
def All (Q : Exponents → Prop) (p : Polynomial K) : Prop := ∀ m ∈ p.terms, Q m.exponents

instance (Q : Exponents → Prop) [DecidablePred Q] (p : Polynomial K) : Decidable (p.All Q) :=
  inferInstanceAs (Decidable (∀ m ∈ p.terms, Q m.exponents))

/-- Whether no coefficient is zero. -/
def Proper [Zero K] (p : Polynomial K) : Prop := ∀ m ∈ p.terms, m.coeff ≠ 0

instance [Zero K] [DecidableEq K] (p : Polynomial K) : Decidable p.Proper :=
  inferInstanceAs (Decidable (∀ m ∈ p.terms, m.coeff ≠ 0))

theorem All.imp {Q R : Exponents → Prop} {p : Polynomial K} (h : p.All Q)
    (himp : ∀ e, Q e → R e) : p.All R :=
  fun m hm => himp _ (h m hm)

/-- The value depends on the symbols that occur. -/
theorem value_congr [Field K] {P : Symbol → Prop} {p : Polynomial K} (hp : p.All (Powers.Over P))
    {z w : Symbol → K} (h : ∀ symbol, P symbol → z symbol = w symbol) : p.value z = p.value w := by
  unfold value
  congr 1
  apply List.map_congr_left
  intro m hm
  unfold Monomial.value
  rw [Powers.value_congr (hp m hm) h]

variable [ExactField K]

section Sum

variable {M : Type} [AddCommGroup M] (f : Exponents → K →+ M)

/-- The tally of a list of terms has their sum, for whatever is additive in the coefficients. -/
private theorem sum_tally (terms : List (Monomial K)) (acc : SortedMap Exponents (K × K)) :
    ((terms.foldl tallyTerm acc).entries.map (fun entry => f entry.1 entry.2.1)).sum =
    (acc.entries.map (fun entry => f entry.1 entry.2.1)).sum +
      (terms.map (fun m => f m.exponents m.coeff)).sum := by
  induction terms generalizing acc with
  | nil => simp
  | cons m rest ih =>
      rw [List.foldl_cons, ih, List.map_cons, List.sum_cons, ← add_assoc]
      congr 1
      unfold tallyTerm
      split
      · rename_i hzero
        rw [eq_of_beq hzero, map_zero, add_zero]
      · rw [SortedMap.sum_insert]
        cases acc.find? m.exponents with
        | none => simp
        | some old =>
            simp only [Option.map_some, Option.getD_some, map_add]
            abel

/-- What is dropped when terms are collected is zero, so collecting keeps every sum. -/
theorem sum_ofTerms (terms : List (Monomial K)) :
    ((ofTerms terms).terms.map (fun m => f m.exponents m.coeff)).sum =
      (terms.map (fun m => f m.exponents m.coeff)).sum := by
  have hsurvivors (entries : List (Exponents × (K × K))) :
      ((entries.filterMap survivor).map (fun m => f m.exponents m.coeff)).sum =
        (entries.map (fun entry => f entry.1 entry.2.1)).sum := by
    induction entries with
    | nil => rfl
    | cons entry rest ih =>
        rw [List.map_cons, List.sum_cons, ← ih, List.filterMap_cons]
        unfold survivor
        split
        · rename_i hnone
          split at hnone
          · rename_i hzero
            have hsum : entry.2.1 = 0 := by
              rw [Bool.or_eq_true, beq_iff_eq] at hzero
              exact hzero.elim id ExactField.eq_zero_of_isNoise
            rw [hsum, map_zero, zero_add]
          · cases hnone
        · rename_i m hsome
          split at hsome
          · cases hsome
          · cases hsome
            rfl
  have hsum := sum_tally f terms ∅
  rw [SortedMap.entries_empty, List.map_nil, List.sum_nil, zero_add] at hsum
  exact (hsurvivors _).trans hsum

end Sum

/-- Collecting terms does not change the value. -/
theorem value_ofTerms (z : Symbol → K) (terms : List (Monomial K)) :
    (ofTerms terms).value z = (terms.map (Monomial.value z)).sum :=
  sum_ofTerms (fun exponents => AddMonoidHom.mulRight (exponents.value z)) terms

omit [ExactField K] in
/-- The exponents in a tally are those of the terms. -/
private theorem keys_tally [Scalar K] (terms : List (Monomial K))
    (acc : SortedMap Exponents (K × K)) {entry : Exponents × (K × K)}
    (h : entry ∈ (terms.foldl tallyTerm acc).entries) :
    entry.1 ∈ acc.keys ∨ ∃ m ∈ terms, m.exponents = entry.1 := by
  induction terms generalizing acc with
  | nil => exact Or.inl (List.mem_map.2 ⟨entry, h, rfl⟩)
  | cons m rest ih =>
      rcases ih _ h with hkey | ⟨n, hn, hexponents⟩
      · unfold tallyTerm at hkey
        split at hkey
        · exact Or.inl hkey
        · obtain ⟨other, hother, hsame⟩ := List.mem_map.1 hkey
          rcases mem_insertEntry hother with rfl | hold
          · exact Or.inr ⟨m, List.mem_cons_self, hsame⟩
          · exact Or.inl (List.mem_map.2 ⟨other, hold, hsame⟩)
      · exact Or.inr ⟨n, List.mem_cons_of_mem _ hn, hexponents⟩

omit [ExactField K] in
/-- Collecting terms invents no exponents. -/
theorem all_ofTerms [Scalar K] {Q : Exponents → Prop} {terms : List (Monomial K)}
    (h : ∀ m ∈ terms, Q m.exponents) : (ofTerms terms).All Q := by
  intro m hm
  obtain ⟨entry, hentry, hsurvivor⟩ := List.mem_filterMap.1 hm
  rw [exponents_of_survivor hsurvivor]
  rcases keys_tally terms ∅ hentry with hkey | ⟨n, hn, hexponents⟩
  · cases hkey
  · rw [← hexponents]
    exact h n hn

theorem proper_ofTerms (terms : List (Monomial K)) : (ofTerms terms).Proper := by
  intro m hm
  obtain ⟨entry, hentry, hsurvivor⟩ := List.mem_filterMap.1 hm
  unfold survivor at hsurvivor
  split at hsurvivor
  · cases hsurvivor
  · rename_i hne
    cases hsurvivor
    intro hzero
    apply hne
    rw [Bool.or_eq_true, beq_iff_eq]
    exact Or.inl hzero

theorem proper_neg {p : Polynomial K} (h : p.Proper) : (-p).Proper := by
  intro m hm
  obtain ⟨n, hn, rfl⟩ := List.mem_map.1 hm
  exact neg_ne_zero.2 (h n hn)

section Operations

variable {z : Symbol → K} {Q : Exponents → Prop}

@[simp] theorem value_zero (z : Symbol → K) : (0 : Polynomial K).value z = 0 := rfl

theorem value_of_isZero {p : Polynomial K} (h : p.isZero = true) (z : Symbol → K) :
    p.value z = 0 := by
  unfold value
  rw [List.isEmpty_iff.1 h]
  rfl

@[simp] theorem value_one (z : Symbol → K) : (1 : Polynomial K).value z = 1 := by
  change ([Monomial.const (1 : K)].map (Monomial.value z)).sum = 1
  simp [Monomial.value, Monomial.const]

theorem value_ofMonomial (z : Symbol → K) (m : Monomial K) :
    (ofMonomial m).value z = m.value z := by
  unfold ofMonomial
  split
  · rename_i hzero
    unfold Monomial.value
    rw [eq_of_beq hzero, zero_mul]
    rfl
  · exact List.sum_singleton

@[simp] theorem value_const (z : Symbol → K) (c : K) : (const c).value z = c := by
  unfold const
  rw [value_ofMonomial]
  simp [Monomial.value, Monomial.const]

@[simp] theorem value_ofSymbol (z : Symbol → K) (symbol : Symbol) :
    (ofSymbol symbol : Polynomial K).value z = z symbol := by
  have hsingle : (Powers.single symbol 1).value z = z symbol := by
    have hset := Powers.value_set_new z Powers.one symbol 1 rfl
    rw [zpow_one] at hset
    exact hset.trans (one_mul _)
  change ([(Monomial.ofSymbol symbol : Monomial K)].map (Monomial.value z)).sum = z symbol
  rw [List.map_singleton, List.sum_singleton]
  unfold Monomial.value Monomial.ofSymbol Monomial.single
  rw [hsingle, one_mul]

theorem value_mapCoeffs (z : Symbol → K) (p : Polynomial K) {f : K → K} {c : K}
    (h : ∀ a, f a = a * c) : (p.mapCoeffs f).value z = p.value z * c := by
  unfold value mapCoeffs
  rw [List.map_map, ← List.sum_map_mul_right]
  congr 1
  apply List.map_congr_left
  intro m _
  simp only [Function.comp_apply, Monomial.value, h]
  ring

theorem value_collected (z : Symbol → K) (p : Polynomial K) : p.collected.value z = p.value z :=
  value_ofTerms z p.terms

theorem value_add (z : Symbol → K) (p q : Polynomial K) :
    (p + q).value z = p.value z + q.value z := by
  change (ofTerms (p.terms ++ q.terms)).value z = _
  rw [value_ofTerms, List.map_append, List.sum_append]
  rfl

theorem value_neg (z : Symbol → K) (p : Polynomial K) : (-p).value z = -p.value z := by
  change (p.mapCoeffs (- ·)).value z = _
  rw [value_mapCoeffs z p (c := -1) (fun a => by ring)]
  ring

theorem value_sub (z : Symbol → K) (p q : Polynomial K) :
    (p - q).value z = p.value z - q.value z := by
  change (ofTerms (p.terms ++ q.terms.map Monomial.neg)).value z = _
  rw [value_ofTerms, List.map_append, List.sum_append, sub_eq_add_neg]
  have hneg : ((q.terms.map Monomial.neg).map (Monomial.value z)).sum = (-q).value z := by
    change _ = (((-q).terms).map (Monomial.value z)).sum
    rfl
  rw [hneg, value_neg]
  rfl

theorem value_mul {p q : Polynomial K} (hp : p.All (Powers.DefinedAt z))
    (hq : q.All (Powers.DefinedAt z)) : (p * q).value z = p.value z * q.value z := by
  have hterm (m : Monomial K) (hm : m ∈ p.terms) :
      ((q.terms.map (fun n => m * n)).map (Monomial.value z)).sum = m.value z * q.value z := by
    unfold value
    rw [List.map_map, ← List.sum_map_mul_left]
    congr 1
    apply List.map_congr_left
    intro n hn
    change (m.coeff * n.coeff) * (m.exponents.mul n.exponents).value z = _
    rw [Powers.value_mul (hp m hm) (hq n hn)]
    unfold Monomial.value
    ring
  change (ofTerms (p.terms.flatMap (fun m => q.terms.map (fun n => m * n)))).value z = _
  rw [value_ofTerms]
  change _ = (p.terms.map (Monomial.value z)).sum * q.value z
  generalize p.terms = terms at hterm
  induction terms with
  | nil => simp
  | cons m rest ih =>
      rw [List.flatMap_cons, List.map_append, List.sum_append,
        hterm m List.mem_cons_self, ih (fun n hn => hterm n (List.mem_cons_of_mem _ hn)),
        List.map_cons, List.sum_cons, add_mul]

omit [ExactField K] in
theorem all_add [Scalar K] {p q : Polynomial K} (hp : p.All Q) (hq : q.All Q) : (p + q).All Q := by
  apply all_ofTerms
  intro m hm
  rcases List.mem_append.1 hm with hm | hm
  · exact hp m hm
  · exact hq m hm

omit [ExactField K] in
theorem all_mapCoeffs {p : Polynomial K} (hp : p.All Q) (f : K → K) : (p.mapCoeffs f).All Q := by
  intro m hm
  obtain ⟨n, hn, rfl⟩ := List.mem_map.1 hm
  exact hp n hn

omit [ExactField K] in
theorem all_sub [Scalar K] {p q : Polynomial K} (hp : p.All Q) (hq : q.All Q) : (p - q).All Q := by
  apply all_ofTerms
  intro m hm
  rcases List.mem_append.1 hm with hm | hm
  · exact hp m hm
  · obtain ⟨n, hn, rfl⟩ := List.mem_map.1 hm
    exact hq n hn

omit [ExactField K] in
theorem all_mul [Scalar K] {R S : Exponents → Prop} {p q : Polynomial K}
    (hproduct : ∀ a b, Q a → R b → S (a.mul b)) (hp : p.All Q) (hq : q.All R) : (p * q).All S := by
  apply all_ofTerms
  intro m hm
  obtain ⟨a, ha, hm⟩ := List.mem_flatMap.1 hm
  obtain ⟨b, hb, rfl⟩ := List.mem_map.1 hm
  exact hproduct _ _ (hp a ha) (hq b hb)

omit [ExactField K] in
theorem all_ofMonomial [Scalar K] {m : Monomial K} (h : Q m.exponents) : (ofMonomial m).All Q := by
  unfold ofMonomial
  split
  · nofun
  · intro n hn
    rw [List.mem_singleton.1 hn]
    exact h

end Operations

end Polynomial

section Closed

variable {κ K : Type} [Ord κ] [Std.TransOrd κ] [Std.LawfulEqOrd κ]

/-- A product of defined products is defined. -/
theorem Powers.DefinedAt.mul [Field K] {z : κ → K} {a b : Powers κ} (ha : a.DefinedAt z)
    (hb : b.DefinedAt z) : (a.mul b).DefinedAt z := by
  intro base hneg
  rw [Powers.get_mul] at hneg
  by_cases hfirst : a.get base < 0
  · exact ha base hfirst
  · exact hb base (by omega)

theorem Powers.Over.mul {P : κ → Prop} {a b : Powers κ} (ha : a.Over P) (hb : b.Over P) :
    (a.mul b).Over P := by
  intro base hne
  rw [Powers.get_mul] at hne
  by_cases hfirst : a.get base = 0
  · exact hb base (by omega)
  · exact ha base hfirst

theorem Powers.Natural.mul {a b : Powers κ} (ha : a.Natural) (hb : b.Natural) :
    (a.mul b).Natural := by
  intro base
  rw [Powers.get_mul]
  exact add_nonneg (ha base) (hb base)

end Closed

section Equality

variable {K : Type} [ExactField K]

instance : LawfulBEq (Monomial K) where
  eq_of_beq {a b} h := by
    obtain ⟨hcoeff, hexponents⟩ := Bool.and_eq_true_iff.1 h
    cases a
    cases b
    cases eq_of_beq hcoeff
    cases eq_of_beq hexponents
    rfl
  rfl {a} := Bool.and_eq_true_iff.2 ⟨beq_self_eq_true a.coeff, beq_self_eq_true a.exponents⟩

instance : LawfulBEq (Polynomial K) where
  eq_of_beq h := Polynomial.ext (eq_of_beq h)
  rfl {p} := beq_self_eq_true p.terms

end Equality

end Ramify
