import Mathlib.Data.List.Nodup
import Mathlib.Data.List.Pairwise
import Ramify.SortedMap

/-!
What the look-ups of a map see. Each operation is described by the look-ups after it, and a map is
determined by its look-ups, so later proofs never open the list of entries of a map.
-/

namespace Ramify

namespace SortedMap

variable {κ α : Type} [Ord κ]

@[simp] theorem find?_empty (key : κ) : (∅ : SortedMap κ α).find? key = none := rfl

@[simp] theorem entries_empty : (∅ : SortedMap κ α).entries = [] := rfl

instance [BEq κ] [LawfulBEq κ] [BEq α] [LawfulBEq α] : LawfulBEq (SortedMap κ α) where
  eq_of_beq h := ext (eq_of_beq h)
  rfl {map} := beq_self_eq_true map.entries

variable [Std.LawfulEqOrd κ]

private theorem ne_of_compare_lt {a b : κ} (h : compare a b = .lt) : a ≠ b := by
  intro heq
  rw [Std.LawfulEqOrd.compare_eq_iff_eq.2 heq] at h
  cases h

private theorem find_entry_cons [DecidableEq κ] (entry : κ × α) (rest : List (κ × α)) (key : κ) :
    (entry :: rest).find? (fun e => compare e.1 key == .eq) =
      if entry.1 = key then some entry
      else rest.find? (fun e => compare e.1 key == .eq) := by
  rw [List.find?_cons]
  by_cases h : entry.1 = key
  · simp [h]
  · have hcmp : (compare entry.1 key == .eq) = false := by
      simpa using h
    simp only [hcmp, if_neg h]

private theorem find_insertEntry [DecidableEq κ] (key other : κ) (value : α)
    (entries : List (κ × α)) :
    (insertEntry key value entries).find? (fun e => compare e.1 other == .eq) =
      if key = other then some (key, value)
      else entries.find? (fun e => compare e.1 other == .eq) := by
  induction entries with
  | nil => rw [insertEntry, find_entry_cons]
  | cons entry rest ih =>
      unfold insertEntry
      split
      · rw [find_entry_cons]
      · rename_i hsame
        have hkey : key = entry.1 := Std.LawfulEqOrd.compare_eq_iff_eq.1 hsame
        rw [find_entry_cons, find_entry_cons, ← hkey]
        split <;> rfl
      · rename_i hbeyond
        rw [find_entry_cons, find_entry_cons, ih]
        by_cases hentry : entry.1 = other
        · have hne : key ≠ other := by
            intro hkey
            rw [Std.LawfulEqOrd.compare_eq_iff_eq.2 (hkey.trans hentry.symm)] at hbeyond
            cases hbeyond
          simp [hentry, hne]
        · simp [hentry]

/-- Writing a key changes the look-up of that key only. -/
theorem find?_insert [Std.TransOrd κ] [DecidableEq κ] (map : SortedMap κ α) (key other : κ)
    (value : α) :
    (map.insert key value).find? other = if key = other then some value else map.find? other := by
  unfold find? insert
  rw [find_insertEntry]
  split <;> rfl

@[simp] theorem find?_insert_self [Std.TransOrd κ] (map : SortedMap κ α) (key : κ) (value : α) :
    (map.insert key value).find? key = some value := by
  classical
  rw [find?_insert, if_pos rfl]

theorem find?_insert_of_ne [Std.TransOrd κ] (map : SortedMap κ α) {key other : κ} (value : α)
    (h : key ≠ other) : (map.insert key value).find? other = map.find? other := by
  classical
  rw [find?_insert, if_neg h]

theorem find?_single [DecidableEq κ] (key other : κ) (value : α) :
    (single key value).find? other = if key = other then some value else none := by
  unfold find? single
  rw [find_entry_cons]
  split <;> rfl

/-- Removing a key changes the look-up of that key only. -/
theorem find?_erase [DecidableEq κ] (map : SortedMap κ α) (key other : κ) :
    (map.erase key).find? other = if key = other then none else map.find? other := by
  unfold find? erase
  simp only [List.find?_filter]
  by_cases h : key = other
  · have hnone : map.entries.find? (fun e => decide ((compare e.1 key != .eq) = true ∧
        (compare e.1 other == .eq) = true)) = none := by
      rw [List.find?_eq_none]
      intro e _ hboth
      simp only [decide_eq_true_eq, bne_iff_ne, beq_iff_eq, h] at hboth
      exact hboth.1 hboth.2
    rw [if_pos h, hnone]
    rfl
  · rw [if_neg h]
    congr 2
    funext e
    by_cases heq : compare e.1 other = .eq
    · have hother : e.1 = other := Std.LawfulEqOrd.compare_eq_iff_eq.1 heq
      have hne : compare e.1 key ≠ .eq := fun hk =>
        h ((Std.LawfulEqOrd.compare_eq_iff_eq.1 hk).symm.trans hother)
      simp [heq, hne]
    · simp [heq]

private theorem find_of_mem {entries : List (κ × α)}
    (hinc : entries.Pairwise (fun a b => compare a.1 b.1 = .lt)) {entry : κ × α}
    (hmem : entry ∈ entries) :
    entries.find? (fun e => compare e.1 entry.1 == .eq) = some entry := by
  classical
  induction entries with
  | nil => cases hmem
  | cons head rest ih =>
      obtain ⟨habove, hrest⟩ := List.pairwise_cons.1 hinc
      rw [find_entry_cons]
      rcases List.mem_cons.1 hmem with rfl | htail
      · rw [if_pos rfl]
      · rw [if_neg (ne_of_compare_lt (habove entry htail))]
        exact ih hrest htail

/-- The entries of a map are what its look-ups find. -/
theorem mem_entries_iff (map : SortedMap κ α) (entry : κ × α) :
    entry ∈ map.entries ↔ map.find? entry.1 = some entry.2 := by
  constructor
  · intro hmem
    unfold find?
    rw [find_of_mem map.increasing hmem]
    rfl
  · intro hfind
    obtain ⟨found, hfound, hvalue⟩ := Option.map_eq_some_iff.1 hfind
    have hkey : found.1 = entry.1 := by
      have hpred := List.find?_some hfound
      exact Std.LawfulEqOrd.compare_eq_iff_eq.1 (by simpa using hpred)
    have heq : found = entry := Prod.ext hkey hvalue
    exact heq ▸ List.mem_of_find?_eq_some hfound

theorem mem_keys_iff (map : SortedMap κ α) (key : κ) :
    key ∈ map.keys ↔ (map.find? key).isSome := by
  unfold keys
  constructor
  · intro hmem
    obtain ⟨entry, hentry, rfl⟩ := List.mem_map.1 hmem
    rw [(mem_entries_iff map entry).1 hentry]
    rfl
  · intro hsome
    obtain ⟨value, hvalue⟩ := Option.isSome_iff_exists.1 hsome
    exact List.mem_map.2 ⟨(key, value), (mem_entries_iff map (key, value)).2 hvalue, rfl⟩

theorem contains_iff (map : SortedMap κ α) (key : κ) :
    map.contains key = true ↔ key ∈ map.keys := by
  rw [mem_keys_iff]
  rfl

theorem nodup_keys (map : SortedMap κ α) : map.keys.Nodup := by
  unfold keys
  rw [List.Nodup, List.pairwise_map]
  exact map.increasing.imp ne_of_compare_lt

/-- A map is determined by its look-ups. -/
theorem ext_find? [Std.TransOrd κ] {left right : SortedMap κ α}
    (h : ∀ key, left.find? key = right.find? key) : left = right := by
  have hnodup (map : SortedMap κ α) : map.entries.Nodup :=
    (nodup_keys map).of_map Prod.fst
  have hperm : left.entries.Perm right.entries := by
    rw [List.perm_ext_iff_of_nodup (hnodup left) (hnodup right)]
    intro entry
    rw [mem_entries_iff, mem_entries_iff, h]
  apply ext
  refine hperm.eq_of_pairwise ?_ left.increasing right.increasing
  intro a b _ _ hab hba
  rw [Std.OrientedCmp.gt_of_lt hab] at hba
  cases hba

theorem nodup_entries (map : SortedMap κ α) : map.entries.Nodup := (nodup_keys map).of_map Prod.fst

/-- The entries of a map are the one under a key and the others. -/
theorem entries_perm {map : SortedMap κ α} {key : κ} {value : α}
    (h : map.find? key = some value) :
    map.entries.Perm ((key, value) :: (map.erase key).entries) := by
  classical
  have hnew : (key, value) ∉ (map.erase key).entries := by
    rw [mem_entries_iff, find?_erase, if_pos rfl]
    nofun
  rw [List.perm_ext_iff_of_nodup map.nodup_entries (List.nodup_cons.2 ⟨hnew, nodup_entries _⟩)]
  rintro ⟨other, found⟩
  rw [List.mem_cons, mem_entries_iff, mem_entries_iff, find?_erase]
  by_cases hkey : key = other
  · subst hkey
    simp [h, eq_comm]
  · simp [hkey, Ne.symm hkey]

theorem erase_insert [Std.TransOrd κ] (map : SortedMap κ α) (key : κ) (value : α) :
    (map.insert key value).erase key = map.erase key := by
  classical
  apply ext_find?
  intro other
  rw [find?_erase, find?_erase]
  by_cases hkey : key = other
  · rw [if_pos hkey, if_pos hkey]
  · rw [if_neg hkey, if_neg hkey, find?_insert_of_ne _ _ hkey]

theorem erase_of_find?_none [Std.TransOrd κ] {map : SortedMap κ α} {key : κ}
    (h : map.find? key = none) : map.erase key = map := by
  classical
  apply ext_find?
  intro other
  rw [find?_erase]
  split
  · rename_i hkey
    rw [← hkey, h]
  · rfl

theorem isEmpty_iff (map : SortedMap κ α) :
    map.isEmpty = true ↔ ∀ key, map.find? key = none := by
  unfold isEmpty
  rw [List.isEmpty_iff]
  constructor
  · intro hnil key
    unfold find?
    rw [hnil]
    rfl
  · intro hnone
    rw [List.eq_nil_iff_forall_not_mem]
    intro entry hmem
    have hsome := (mem_entries_iff map entry).1 hmem
    rw [hnone] at hsome
    cases hsome

theorem isEmpty_insert [Std.TransOrd κ] (map : SortedMap κ α) (key : κ) (value : α) :
    (map.insert key value).isEmpty = false := by
  by_contra hempty
  have hnone := (isEmpty_iff _).1 (by simpa using hempty) key
  rw [find?_insert_self] at hnone
  cases hnone

end SortedMap

section Ascending

variable {κ : Type} [Ord κ] [Std.LawfulEqOrd κ] [Std.TransOrd κ]

private theorem mem_keys_foldl (elements : List κ) (map : SortedMap κ Unit) (key : κ) :
    key ∈ (elements.foldl (fun (map : SortedMap κ Unit) key => map.insert key ()) map).keys ↔
      key ∈ map.keys ∨ key ∈ elements := by
  classical
  induction elements generalizing map with
  | nil => simp
  | cons head rest ih =>
      rw [List.foldl_cons, ih, SortedMap.mem_keys_iff, SortedMap.mem_keys_iff,
        SortedMap.find?_insert, List.mem_cons]
      by_cases h : head = key
      · simp [h]
      · simp [h, Ne.symm h]

/-- Sorting keeps the elements. -/
@[simp] theorem mem_ascending (elements : List κ) (key : κ) :
    key ∈ ascending elements ↔ key ∈ elements := by
  unfold ascending
  rw [mem_keys_foldl]
  simp [SortedMap.keys]

/-- A list in increasing order is determined by its members. -/
theorem eq_of_increasing {left right : List κ} (hleft : left.Pairwise (compare · · = .lt))
    (hright : right.Pairwise (compare · · = .lt)) (h : ∀ key, key ∈ left ↔ key ∈ right) :
    left = right := by
  have hnodup {keys : List κ} (hkeys : keys.Pairwise (compare · · = .lt)) : keys.Nodup :=
    hkeys.imp SortedMap.ne_of_compare_lt
  have hperm := (List.perm_ext_iff_of_nodup (hnodup hleft) (hnodup hright)).2 h
  refine hperm.eq_of_pairwise ?_ hleft hright
  intro a b _ _ hab hba
  rw [Std.OrientedCmp.gt_of_lt hab] at hba
  cases hba

omit [Std.LawfulEqOrd κ] in
theorem increasing_ascending (elements : List κ) :
    (ascending elements).Pairwise (compare · · = .lt) :=
  List.pairwise_map.2 (SortedMap.increasing _)

end Ascending

end Ramify
