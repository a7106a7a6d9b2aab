import Mathlib.Algebra.BigOperators.Group.Finset.Basic
import Mathlib.Algebra.Ring.Int.Defs
import Mathlib.Data.Finset.Basic
import Ramify.Powers
import Ramify.Proofs.SortedMap

/-!
Exponents as a function on the bases. Every operation on a product of powers is described by the
exponents after it, and a product of powers is determined by its exponents.
-/

namespace Ramify.Powers

variable {κ : Type} [Ord κ]

@[simp] theorem get_one (base : κ) : (∅ : Powers κ).get base = 0 := rfl

variable [Std.LawfulEqOrd κ]

/-- The stored entries are the exponents other than zero. -/
theorem mem_entries_iff (powers : Powers κ) (entry : κ × Int) :
    entry ∈ powers.entries ↔ powers.get entry.1 = entry.2 ∧ entry.2 ≠ 0 := by
  unfold entries get
  constructor
  · intro hmem
    rw [(SortedMap.mem_entries_iff _ _).1 hmem]
    exact ⟨rfl, powers.nonzero entry hmem⟩
  · rintro ⟨hget, hne⟩
    rw [SortedMap.mem_entries_iff]
    cases hfind : powers.map.find? entry.1 with
    | none =>
        rw [hfind] at hget
        exact absurd hget.symm hne
    | some exponent =>
        rw [hfind] at hget
        exact congrArg some hget

theorem mem_keys_iff (powers : Powers κ) (base : κ) :
    base ∈ powers.map.keys ↔ powers.get base ≠ 0 := by
  unfold SortedMap.keys
  constructor
  · intro hmem
    obtain ⟨entry, hentry, rfl⟩ := List.mem_map.1 hmem
    have hexp := (mem_entries_iff powers entry).1 hentry
    exact hexp.1 ▸ hexp.2
  · intro hne
    exact List.mem_map.2 ⟨(base, powers.get base), (mem_entries_iff powers _).2 ⟨rfl, hne⟩, rfl⟩

/-- A product of powers is determined by its exponents. -/
theorem ext_get [Std.TransOrd κ] {left right : Powers κ}
    (h : ∀ base, left.get base = right.get base) : left = right := by
  apply ext
  apply SortedMap.ext_find?
  intro base
  have hsome (powers : Powers κ) (exponent : Int) :
      powers.map.find? base = some exponent ↔ powers.get base = exponent ∧ exponent ≠ 0 := by
    rw [← SortedMap.mem_entries_iff powers.map (base, exponent)]
    exact mem_entries_iff powers (base, exponent)
  apply Option.ext
  intro exponent
  rw [hsome left, hsome right, h]

theorem isOne_iff (powers : Powers κ) : powers.isOne = true ↔ ∀ base, powers.get base = 0 := by
  unfold isOne
  rw [SortedMap.isEmpty_iff]
  constructor
  · intro hnone base
    unfold get
    rw [hnone]
    rfl
  · intro hzero base
    cases hfind : powers.map.find? base with
    | none => rfl
    | some exponent =>
        have hne := powers.nonzero _
          ((SortedMap.mem_entries_iff powers.map (base, exponent)).2 hfind)
        have hget := hzero base
        unfold get at hget
        rw [hfind] at hget
        exact absurd hget hne

theorem isOne_iff_eq [Std.TransOrd κ] (powers : Powers κ) : powers.isOne = true ↔ powers = ∅ := by
  rw [isOne_iff]
  constructor
  · exact fun h => ext_get h
  · rintro rfl base
    rfl

theorem get_erase [DecidableEq κ] (powers : Powers κ) (base other : κ) :
    (powers.erase base).get other = if base = other then 0 else powers.get other := by
  unfold get erase
  rw [SortedMap.find?_erase]
  split <;> rfl

theorem erase_of_get_eq_zero [Std.TransOrd κ] {powers : Powers κ} {base : κ}
    (h : powers.get base = 0) : powers.erase base = powers := by
  classical
  apply ext_get
  intro other
  rw [get_erase]
  split
  · rename_i hsame
    exact hsame ▸ h.symm
  · rfl

/-- Among the entries, that of a base is the only one with its exponent. -/
theorem sum_entries [DecidableEq κ] (f : Int → Int) (hf : f 0 = 0) (powers : Powers κ)
    (base : κ) :
    (powers.entries.map (fun entry => if entry.1 = base then f entry.2 else 0)).sum =
      f (powers.get base) := by
  have hzero (entries : List (κ × Int)) (h : base ∉ entries.map Prod.fst) :
      (entries.map (fun entry => if entry.1 = base then f entry.2 else 0)).sum = 0 := by
    apply List.sum_eq_zero
    intro x hx
    obtain ⟨entry, hentry, rfl⟩ := List.mem_map.1 hx
    rw [if_neg]
    intro heq
    exact h (List.mem_map.2 ⟨entry, hentry, heq⟩)
  by_cases hget : powers.get base = 0
  · rw [hzero, hget, hf]
    exact fun hmem => (mem_keys_iff powers base).1 hmem hget
  · have hmem : (base, powers.get base) ∈ powers.entries :=
      (mem_entries_iff powers _).2 ⟨rfl, hget⟩
    obtain ⟨before, after, hsplit⟩ := List.append_of_mem hmem
    have hnodup : (powers.entries.map Prod.fst).Nodup := SortedMap.nodup_keys powers.map
    rw [hsplit] at hnodup ⊢
    simp only [List.map_append, List.map_cons, List.nodup_append, List.nodup_cons,
      List.mem_cons] at hnodup
    have hbefore : base ∉ before.map Prod.fst := fun h => hnodup.2.2 base h base (Or.inl rfl) rfl
    have hafter : base ∉ after.map Prod.fst := hnodup.2.1.1
    simp only [List.map_append, List.map_cons, List.sum_append, List.sum_cons, if_true,
      hzero before hbefore, hzero after hafter, zero_add, add_zero]

variable [Std.TransOrd κ]

theorem get_set [DecidableEq κ] (powers : Powers κ) (base other : κ) (exponent : Int) :
    (powers.set base exponent).get other = if base = other then exponent else powers.get other := by
  unfold set
  split
  · rename_i hzero
    rw [get_erase, hzero]
  · unfold get
    rw [SortedMap.find?_insert]
    split <;> rfl

theorem get_single [DecidableEq κ] (base other : κ) (exponent : Int) :
    (single base exponent).get other = if base = other then exponent else 0 :=
  get_set one base other exponent

theorem get_raise [DecidableEq κ] (powers : Powers κ) (base other : κ) (exponent : Int) :
    (powers.raise base exponent).get other =
      powers.get other + if base = other then exponent else 0 := by
  unfold raise
  rw [get_set]
  split
  · rename_i h
    rw [h]
  · simp

/-- Raising by a list of entries adds up the entries of each base. -/
theorem get_foldl_raise [DecidableEq κ] (f : Int → Int) (entries : List (κ × Int))
    (powers : Powers κ) (base : κ) :
    (entries.foldl (fun acc entry => acc.raise entry.1 (f entry.2)) powers).get base =
      powers.get base +
        (entries.map (fun entry => if entry.1 = base then f entry.2 else 0)).sum := by
  induction entries generalizing powers with
  | nil => simp
  | cons entry rest ih =>
      rw [List.foldl_cons, ih, get_raise, List.map_cons, List.sum_cons, add_assoc]

theorem get_mul (left right : Powers κ) (base : κ) :
    (left.mul right).get base = left.get base + right.get base := by
  classical
  unfold mul
  have h := get_foldl_raise id right.entries left base
  simp only [id] at h
  rw [h]
  exact congrArg _ (sum_entries id rfl right base)

theorem get_pow (powers : Powers κ) (factor : Int) (base : κ) :
    (powers.pow factor).get base = powers.get base * factor := by
  classical
  unfold pow
  rw [get_foldl_raise (· * factor) powers.entries one base,
    sum_entries (· * factor) (Int.zero_mul _) powers base]
  exact Int.zero_add _

theorem get_div (left right : Powers κ) (base : κ) :
    (left.div right).get base = left.get base - right.get base := by
  unfold div
  rw [get_mul, get_pow]
  omega

end Ramify.Powers
