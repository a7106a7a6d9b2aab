import Mathlib.Algebra.Group.Nat.Defs
import Mathlib.Data.List.Lex
import Mathlib.Data.List.Sort
import Ramify.Subsets

/-!
The search through the subsets of a list, described by the list of all of them. From each vector of
positions the search goes on to the next one in lexicographic order, so it comes to all of them.
-/

namespace Ramify

/-- The subsets of a given size of a list, as sublists, in the lexicographic order of positions. -/
def subsets {α : Type} : Nat → List α → List (List α)
  | 0, _ => [[]]
  | _ + 1, [] => []
  | size + 1, x :: rest => (subsets size rest).map (x :: ·) ++ subsets (size + 1) rest

/-- All subsets of sizes one to `largest`, smaller ones first. -/
def subsetsUpTo {α : Type} (largest : Nat) (elements : List α) : List (List α) :=
  (List.range largest).flatMap (fun size => subsets (size + 1) elements)

section Lists

variable {α β : Type}

/-- The subsets of changed elements are the changed subsets. -/
theorem subsets_map (change : α → β) (size : Nat) (elements : List α) :
    subsets size (elements.map change) = (subsets size elements).map (List.map change) := by
  induction size, elements using subsets.induct with
  | case1 elements => simp [subsets]
  | case2 size => simp [subsets]
  | case3 size x rest ihwith ihwithout =>
    simp [subsets, ihwith, ihwithout, Function.comp_def]

/-- A list has no subset that is larger than itself. -/
theorem subsets_eq_nil {size : Nat} {elements : List α} (h : elements.length < size) :
    subsets size elements = [] := by
  induction size, elements using subsets.induct with
  | case1 elements => exact absurd h (Nat.not_lt_zero _)
  | case2 size => rfl
  | case3 size x rest ihwith ihwithout =>
    rw [List.length_cons] at h
    rw [subsets, ihwith (by omega), ihwithout (by omega)]
    rfl

/-- The subsets of a range are the increasing lists of its numbers. -/
theorem mem_subsets_range' (size start count : Nat) (chosen : List Nat) :
    chosen ∈ subsets size (List.range' start count) ↔
      chosen.length = size ∧ chosen.Pairwise (· < ·) ∧
        ∀ index ∈ chosen, start ≤ index ∧ index < start + count := by
  induction count generalizing size start chosen with
  | zero =>
    cases size with
    | zero =>
      rw [subsets, List.mem_singleton]
      exact ⟨by rintro rfl; simp, fun h => List.length_eq_zero_iff.mp h.1⟩
    | succ size =>
      refine ⟨fun h => absurd h List.not_mem_nil, fun h => ?_⟩
      obtain ⟨index, hindex⟩ := List.exists_mem_of_length_eq_add_one h.1
      have := h.2.2 index hindex
      omega
  | succ count ih =>
    cases size with
    | zero =>
      rw [subsets, List.mem_singleton]
      exact ⟨by rintro rfl; simp, fun h => List.length_eq_zero_iff.mp h.1⟩
    | succ size =>
      rw [List.range'_succ, subsets, List.mem_append, List.mem_map]
      constructor
      · rintro (⟨rest, hrest, rfl⟩ | hrest)
        · obtain ⟨hlength, hsorted, hrange⟩ := (ih _ _ _).mp hrest
          refine ⟨by simp [hlength], List.pairwise_cons.mpr ⟨?_, hsorted⟩, ?_⟩
          · intro index hindex
            exact (hrange index hindex).1
          · intro index hindex
            obtain rfl | hindex := List.mem_cons.mp hindex
            · omega
            · have := hrange index hindex
              omega
        · obtain ⟨hlength, hsorted, hrange⟩ := (ih _ _ _).mp hrest
          refine ⟨hlength, hsorted, fun index hindex => ?_⟩
          have := hrange index hindex
          omega
      · rintro ⟨hlength, hsorted, hrange⟩
        obtain _ | ⟨index, rest⟩ := chosen
        · cases hlength
        obtain ⟨hless, hrest⟩ := List.pairwise_cons.mp hsorted
        have hindex := hrange index List.mem_cons_self
        -- The first number decides whether the subset is one with or without the start.
        obtain rfl | hne := Nat.eq_or_lt_of_le hindex.1
        · refine .inl ⟨rest, (ih _ _ _).mpr ⟨Nat.succ.inj hlength, hrest, ?_⟩, rfl⟩
          intro other hother
          have := hless other hother
          have := hrange other (List.mem_cons_of_mem _ hother)
          omega
        · refine .inr ((ih _ _ _).mpr ⟨hlength, hsorted, ?_⟩)
          intro other hother
          have := hrange other hother
          obtain rfl | hother := List.mem_cons.mp hother
          · omega
          · have := hless other hother
            omega

/-- The subsets of a range are in lexicographic order. -/
theorem pairwise_subsets_range' (size start count : Nat) :
    (subsets size (List.range' start count)).Pairwise (· < ·) := by
  induction count generalizing size start with
  | zero => cases size <;> simp [subsets]
  | succ count ih =>
    cases size with
    | zero => simp [subsets]
    | succ size =>
      rw [List.range'_succ, subsets, List.pairwise_append]
      refine ⟨?_, ih _ _, ?_⟩
      · exact (ih size (start + 1)).map _ fun _ _ => List.Lex.cons
      · intro former hformer later hlater
        obtain ⟨rest, _, rfl⟩ := List.mem_map.mp hformer
        obtain ⟨hlength, _, hrange⟩ := (mem_subsets_range' _ _ _ _).mp hlater
        obtain _ | ⟨index, others⟩ := later
        · cases hlength
        · exact List.Lex.rel (hrange index List.mem_cons_self).1

end Lists

namespace Combination

variable {count size : Nat}

/-- Positions are earlier than others if at the first place where they differ they are smaller. -/
theorem toList_lt_iff (former later : Vector Nat size) :
    former.toList < later.toList ↔ ∃ (place : Nat) (hplace : place < size),
      (∀ (i : Nat) (hi : i < place), former[i] = later[i]) ∧ former[place] < later[place] := by
  rw [List.lt_iff_exists]
  simp

/-- The positions are increasing. -/
theorem pairwise_toList (c : Combination count size) : c.indices.toList.Pairwise (· < ·) := by
  rw [List.pairwise_iff_getElem]
  intro i j hi hj hij
  simpa using c.increasing i j (by simpa using hj) hij

/-- All positions are in range. -/
theorem lt_of_mem (c : Combination count size) {index : Nat} (h : index ∈ c.indices.toList) :
    index < count := by
  obtain ⟨i, hi, rfl⟩ := List.getElem_of_mem h
  rw [Vector.getElem_toList]
  exact c.below i (by simpa using hi)

/-- Every increasing list of positions in range is that of some positions. -/
theorem exists_toList_eq {chosen : List Nat} (hlength : chosen.length = size)
    (hsorted : chosen.Pairwise (· < ·)) (hrange : ∀ index ∈ chosen, index < count) :
    ∃ c : Combination count size, c.indices.toList = chosen := by
  subst hlength
  refine ⟨⟨⟨chosen.toArray, rfl⟩, ?_, ?_⟩, by simp⟩
  · intro i j hj hi
    simpa using List.pairwise_iff_getElem.mp hsorted i j (hi.trans hj) hj hi
  · intro i hi
    simpa using hrange _ (List.getElem_mem hi)

theorem toList_injective {c d : Combination count size}
    (h : c.indices.toList = d.indices.toList) : c = d := by
  obtain ⟨c, _, _⟩ := c
  obtain ⟨d, _, _⟩ := d
  obtain rfl : c = d := Vector.toList_inj.mp h
  rfl

/-- No positions come before the first ones. -/
theorem first_le (hsize : size ≤ count) (c : Combination count size) :
    (first hsize).indices.toList ≤ c.indices.toList := by
  rw [← not_lt, toList_lt_iff]
  rintro ⟨place, hplace, _, hless⟩
  have := c.add_le_getElem hplace (Nat.zero_le place)
  simp only [first, Vector.getElem_range] at hless
  omega

/-- What positions that have a next one look like: there is a place whose position can be raised,
and all after it have the largest possible position. -/
theorem next_eq_some {c d : Combination count size} (h : c.next = some d) :
    ∃ (place : Nat) (hplace : place < size),
      (∀ (i : Nat) (hi : i < place), d.indices[i] = c.indices[i]) ∧
      (∀ (i : Nat) (hi : i < size), place ≤ i →
        d.indices[i] = c.indices[place] + 1 + (i - place)) ∧
      ∀ (i : Nat) (hi : i < size), place < i → c.indices[i] = top count size i := by
  rw [next] at h
  split at h
  · cases h
  next place hpivot =>
    have hne := ne_top_of_pivot c.indices size (Nat.le_refl size) hpivot
    cases h
    refine ⟨place, hne.1, ?_, ?_, ?_⟩
    · exact fun i hi => getElem_raise_of_lt _ hne.1 (hi.trans hne.1) hi
    · exact fun i hi hle => getElem_raise_of_le _ hne.1 hi hle
    · exact fun i hi hlt => top_of_pivot_le _ _ (Nat.le_refl size) hi (hpivot.trans_le hlt)

/-- Positions that have no next one are the last ones. -/
theorem le_of_next_eq_none {c : Combination count size} (h : c.next = none)
    (e : Combination count size) : e.indices.toList ≤ c.indices.toList := by
  rw [next] at h
  split at h
  next hpivot =>
    rw [← not_lt, toList_lt_iff]
    rintro ⟨place, hplace, _, hless⟩
    rw [top_of_pivot_le _ _ (Nat.le_refl size) hplace (hpivot.trans_le (Nat.zero_le _))] at hless
    exact absurd (e.le_top hplace) (Nat.not_le_of_lt hless)
  · cases h

/-- No positions come between some and the next ones. -/
theorem next_le {c d : Combination count size} (h : c.next = some d)
    (e : Combination count size) (hless : c.indices.toList < e.indices.toList) :
    d.indices.toList ≤ e.indices.toList := by
  obtain ⟨place, hplace, hbefore, hfrom, hafter⟩ := next_eq_some h
  obtain ⟨p, hp, hequal, hp'⟩ := (toList_lt_iff _ _).mp hless
  have hple : p ≤ place := by
    by_contra hnot
    have := e.le_top hp
    have := hafter p hp (by omega)
    omega
  rw [← not_lt, toList_lt_iff]
  rintro ⟨q, hq, hsame, hq'⟩
  obtain hlt | rfl := Nat.lt_or_eq_of_le hple
  · -- The later positions differ from the former before the raised place.
    obtain hqp | rfl | hqp := Nat.lt_trichotomy q p
    · have := hbefore q (by omega)
      have := hequal q hqp
      omega
    · have := hbefore q hlt
      omega
    · have := hsame p hqp
      have := hbefore p hlt
      omega
  · -- They agree before it, and from it on they grow at least as the next ones do.
    obtain hqp | hqp := Nat.lt_or_ge q p
    · have := hbefore q hqp
      have := hequal q hqp
      omega
    · have := e.add_le_getElem hq hqp
      have := hfrom q hq hqp
      omega

/-- Positions that do not come before the next ones come after the present ones. -/
theorem lt_of_next_le {c d e : Combination count size} (h : c.next = some d)
    (hle : d.indices.toList ≤ e.indices.toList) : c.indices.toList < e.indices.toList := by
  obtain hless | hequal := le_iff_lt_or_eq.mp hle
  · exact lt_trans (lt_next h) hless
  · exact hequal ▸ lt_next h

/-- Some positions and all that come after them, in order. -/
def visits (c : Combination count size) : List (Combination count size) :=
  c :: match _hnext : c.next with
    | none => []
    | some d => visits d
termination_by remaining count c.indices.toList
decreasing_by exact remaining_next _hnext

theorem visits_of_none {c : Combination count size} (h : c.next = none) : c.visits = [c] := by
  rw [visits]
  split
  · rfl
  · simp_all

theorem visits_of_some {c d : Combination count size} (h : c.next = some d) :
    c.visits = c :: d.visits := by
  rw [visits]
  split <;> simp_all

/-- A step of a visit. -/
theorem visits_induction {motive : Combination count size → Prop}
    (last : ∀ c, c.next = none → motive c)
    (step : ∀ c d, c.next = some d → motive d → motive c) (c : Combination count size) :
    motive c := by
  induction c using visits.induct with
  | case1 c ih =>
    cases hnext : c.next with
    | none => exact last c hnext
    | some d => exact step c d hnext (ih d hnext)

/-- The positions that are visited are those that do not come before the start. -/
theorem mem_visits (c e : Combination count size) :
    e ∈ c.visits ↔ c.indices.toList ≤ e.indices.toList := by
  induction c using visits_induction with
  | last c hnext =>
    rw [visits_of_none hnext, List.mem_singleton]
    refine ⟨by rintro rfl; exact le_refl _, fun h => ?_⟩
    exact toList_injective (le_antisymm (le_of_next_eq_none hnext e) h)
  | step c d hnext ih =>
    rw [visits_of_some hnext, List.mem_cons, ih]
    constructor
    · rintro (rfl | h)
      · exact le_refl _
      · exact le_of_lt (lt_of_next_le hnext h)
    · intro h
      obtain h | h := le_iff_lt_or_eq.mp h
      · exact .inr (next_le hnext e h)
      · exact .inl (toList_injective h.symm)

/-- They are visited in lexicographic order. -/
theorem pairwise_visits (c : Combination count size) :
    (c.visits.map (fun e => e.indices.toList)).Pairwise (· < ·) := by
  induction c using visits_induction with
  | last c hnext => simp [visits_of_none hnext]
  | step c d hnext ih =>
    rw [visits_of_some hnext, List.map_cons, List.pairwise_cons]
    refine ⟨?_, ih⟩
    intro other hother
    obtain ⟨e, he, rfl⟩ := List.mem_map.mp hother
    exact lt_of_next_le hnext ((mem_visits d e).mp he)

/-- From the first positions on, all subsets of the range are visited. -/
theorem map_visits_first (hsize : size ≤ count) :
    (first hsize).visits.map (fun e => e.indices.toList) = subsets size (List.range count) := by
  rw [List.range_eq_range']
  refine (pairwise_visits _).eq_of_mem_iff (pairwise_subsets_range' _ _ _) fun chosen => ?_
  rw [List.mem_map, mem_subsets_range']
  constructor
  · rintro ⟨e, _, rfl⟩
    exact ⟨by simp, e.pairwise_toList, fun index hindex => ⟨Nat.zero_le _, by
      simpa using e.lt_of_mem hindex⟩⟩
  · rintro ⟨hlength, hsorted, hrange⟩
    obtain ⟨e, he⟩ := exists_toList_eq hlength hsorted fun index hindex => by
      simpa using (hrange index hindex).2
    exact ⟨e, (mem_visits _ e).mpr (first_le hsize e), he⟩

end Combination

section Order

variable {count size largest : Nat}

/-- The vectors of positions that the search through the subsets of one size goes through. -/
def indexVectors (count size : Nat) : List (List Nat) :=
  if hsize : size ≤ count then
    (Combination.first hsize).visits.map (fun c => c.indices.toList)
  else []

/-- The vectors of positions that the search through the subsets of sizes one to `largest` goes
through. -/
def indexVectorsUpTo (count largest : Nat) : List (List Nat) :=
  (List.range largest).flatMap (fun size => indexVectors count (size + 1))

def elementsAt {α : Type} (elements : List α) (indices : List Nat) : List α :=
  indices.filterMap (elements[·]?)

/-- Some positions of a list with `count` elements, in increasing order. -/
def IsIndexVector (count : Nat) (indices : List Nat) : Prop :=
  indices.Pairwise (· < ·) ∧ ∀ index ∈ indices, index < count

/-- A vector of positions comes earlier if it is shorter, or as long and less in lexicographic
order. -/
def Earlier (former later : List Nat) : Prop :=
  former.length < later.length ∨ former.length = later.length ∧ former < later

/-- A list consists of everything that is wanted, each once and in order. -/
structure Enumerates {β : Type} (xs : List β) (wanted : β → Prop) (earlier : β → β → Prop) :
    Prop where
  mem_iff : ∀ x, x ∈ xs ↔ wanted x
  ordered : xs.Pairwise earlier
  nodup : xs.Nodup

theorem indexVectors_eq (count size : Nat) :
    indexVectors count size = subsets size (List.range count) := by
  rw [indexVectors]
  split
  next hsize => exact Combination.map_visits_first hsize
  next hsize =>
    rw [subsets_eq_nil]
    rw [List.length_range]
    exact Nat.lt_of_not_le hsize

/-- All vectors of positions of one size are gone through. -/
theorem mem_indexVectors (indices : List Nat) :
    indices ∈ indexVectors count size ↔ indices.length = size ∧ IsIndexVector count indices := by
  rw [indexVectors_eq, List.range_eq_range', mem_subsets_range']
  simp [IsIndexVector]

theorem pairwise_indexVectors (count size : Nat) :
    (indexVectors count size).Pairwise (· < ·) := by
  rw [indexVectors_eq, List.range_eq_range']
  exact pairwise_subsets_range' _ _ _

theorem mem_indexVectorsUpTo (indices : List Nat) :
    indices ∈ indexVectorsUpTo count largest ↔
      1 ≤ indices.length ∧ indices.length ≤ largest ∧ IsIndexVector count indices := by
  simp only [indexVectorsUpTo, List.mem_flatMap, List.mem_range, mem_indexVectors]
  constructor
  · rintro ⟨size, hsize, hlength, hvector⟩
    exact ⟨by omega, by omega, hvector⟩
  · rintro ⟨hpos, hle, hvector⟩
    exact ⟨indices.length - 1, by omega, by omega, hvector⟩

theorem pairwise_indexVectorsUpTo (count largest : Nat) :
    (indexVectorsUpTo count largest).Pairwise Earlier := by
  rw [indexVectorsUpTo, List.pairwise_flatMap]
  constructor
  · intro size _
    refine (pairwise_indexVectors count (size + 1)).imp_of_mem ?_
    intro former later hformer hlater hless
    have hformer := ((mem_indexVectors _).mp hformer).1
    have hlater := ((mem_indexVectors _).mp hlater).1
    exact .inr ⟨hformer.trans hlater.symm, hless⟩
  · refine List.pairwise_lt_range.imp ?_
    intro small large hsizes former hformer later hlater
    have hformer := ((mem_indexVectors _).mp hformer).1
    have hlater := ((mem_indexVectors _).mp hlater).1
    left
    omega

/-- The search through the subsets of one size goes through all vectors of that many positions, each
once, in lexicographic order. -/
theorem enumerates_indexVectors (count size : Nat) :
    Enumerates (indexVectors count size)
      (fun indices => indices.length = size ∧ IsIndexVector count indices) (· < ·) := by
  refine ⟨fun _ => mem_indexVectors _, pairwise_indexVectors count size, ?_⟩
  refine (pairwise_indexVectors count size).imp ?_
  rintro former _ hless rfl
  exact lt_irrefl _ hless

example : indexVectors 4 2 = [[0, 1], [0, 2], [0, 3], [1, 2], [1, 3], [2, 3]] := by decide +kernel

theorem Earlier.ne {former later : List Nat} (h : Earlier former later) : former ≠ later := by
  rintro rfl
  obtain h | h := h
  · exact Nat.lt_irrefl _ h
  · exact lt_irrefl _ h.2

/-- The search through the subsets of all sizes goes through all vectors of at most `largest`
positions, each once, smaller ones first. -/
theorem enumerates_indexVectorsUpTo (count largest : Nat) :
    Enumerates (indexVectorsUpTo count largest)
      (fun indices => 1 ≤ indices.length ∧ indices.length ≤ largest ∧
        IsIndexVector count indices) Earlier :=
  ⟨fun _ => mem_indexVectorsUpTo _, pairwise_indexVectorsUpTo count largest,
    (pairwise_indexVectorsUpTo count largest).imp Earlier.ne⟩

/-- All positions of a vector have an element. -/
theorem map_some_elementsAt {α : Type} {elements : List α} {indices : List Nat}
    (h : IsIndexVector elements.length indices) :
    (elementsAt elements indices).map some = indices.map (elements[·]?) := by
  have hrange := h.2
  clear h
  induction indices with
  | nil => rfl
  | cons index rest ih =>
    have hindex := hrange index List.mem_cons_self
    have hrest := ih fun other hother => hrange other (List.mem_cons_of_mem _ hother)
    simp only [elementsAt] at hrest ⊢
    rw [List.filterMap_cons_some (List.getElem?_eq_getElem hindex), List.map_cons, hrest,
      List.map_cons, List.getElem?_eq_getElem hindex]

/-- The elements that are tested are those at the positions. -/
theorem Combination.pick_eq_elementsAt {α : Type} {elements : List α} {size : Nat}
    (c : Combination elements.length size) : c.pick = elementsAt elements c.indices.toList := by
  have hvector : IsIndexVector elements.length c.indices.toList :=
    ⟨c.pairwise_toList, fun _ => c.lt_of_mem⟩
  refine List.map_injective_iff.mpr (Option.some_injective α) ?_
  rw [map_some_elementsAt hvector]
  apply List.ext_getElem
  · simp [pick]
  · intro i hi hi'
    simp [pick]

/-- The subsets are the elements at the vectors of positions. -/
theorem subsets_eq_map_elementsAt {α : Type} (size : Nat) (elements : List α) :
    subsets size elements = (indexVectors elements.length size).map (elementsAt elements) := by
  have hsome : Function.Injective (List.map (List.map (some : α → Option α))) :=
    List.map_injective_iff.mpr (List.map_injective_iff.mpr (Option.some_injective _))
  have hrange : elements.map some = (List.range elements.length).map (elements[·]?) := by
    apply List.ext_getElem
    · simp
    · intro i hi hi'
      simp
  apply hsome
  rw [← subsets_map, hrange, subsets_map, ← indexVectors_eq, List.map_map]
  exact List.map_congr_left fun indices hindices =>
    (map_some_elementsAt ((mem_indexVectors _).mp hindices).2).symm

/-- With unsigned words that can hold the number of elements, the largest position at a place is
calculated without an overflow, where places are counted from one. -/
theorem toNat_top_word {word place : Nat} (hword : count < 2 ^ word) (hsize : size ≤ count)
    (hpos : 1 ≤ place) (hplace : place ≤ size) :
    let total := BitVec.ofNat word count
    let chosen := BitVec.ofNat word size
    let before := BitVec.ofNat word place - BitVec.ofNat word 1
    total.usubOverflow chosen = false ∧
      (BitVec.ofNat word place).usubOverflow (BitVec.ofNat word 1) = false ∧
      (total - chosen).uaddOverflow before = false ∧
      (total - chosen + before).toNat = Combination.top count size (place - 1) ∧
      Combination.top count size (place - 1) < count := by
  have htotal : (BitVec.ofNat word count).toNat = count := by simp [Nat.mod_eq_of_lt hword]
  have hchosen : (BitVec.ofNat word size).toNat = size := by
    simp [Nat.mod_eq_of_lt (hsize.trans_lt hword)]
  have hplaces : (BitVec.ofNat word place).toNat = place := by
    simp [Nat.mod_eq_of_lt ((hplace.trans hsize).trans_lt hword)]
  have hone : (BitVec.ofNat word 1).toNat = 1 := by
    simp [Nat.mod_eq_of_lt ((hpos.trans (hplace.trans hsize)).trans_lt hword)]
  have hrest : (BitVec.ofNat word count - BitVec.ofNat word size).toNat = count - size := by
    rw [BitVec.toNat_sub_of_le (by rw [BitVec.le_def]; omega), htotal, hchosen]
  have hbefore : (BitVec.ofNat word place - BitVec.ofNat word 1).toNat = place - 1 := by
    rw [BitVec.toNat_sub_of_le (by rw [BitVec.le_def]; omega), hplaces, hone]
  have hsum : count - size + (place - 1) < count := by omega
  simp only [BitVec.usubOverflow, BitVec.uaddOverflow, BitVec.toNat_add, htotal, hchosen, hplaces,
    hone, hrest, hbefore, Combination.top, decide_eq_false_iff_not]
  refine ⟨by omega, by omega, by omega, ?_, hsum⟩
  exact Nat.mod_eq_of_lt (hsum.trans hword)

end Order

section Search

variable {α : Type} {m : Type → Type} [Monad m]

/-- A search through changed elements applies the change before the test. -/
theorem anyM_map {β γ : Type} (test : γ → m Bool) (change : β → γ) (elements : List β) :
    (elements.map change).anyM test = elements.anyM (fun x => test (change x)) := by
  induction elements with
  | nil => rfl
  | cons x rest ih => simp only [List.map_cons, List.anyM, ih]

variable [LawfulMonad m]

/-- A search through a list that is put together looks through the parts one after the other. -/
theorem anyM_append {β : Type} (test : β → m Bool) (first second : List β) :
    (first ++ second).anyM test =
      (first.anyM test >>= fun passed => if passed then pure true else second.anyM test) := by
  induction first with
  | nil => simp [List.anyM]
  | cons x rest ih =>
    simp only [List.cons_append, List.anyM, bind_assoc]
    refine bind_congr fun passed => ?_
    cases passed
    · exact ih
    · simp

omit [LawfulMonad m] in
/-- The search goes through the positions that are visited. -/
theorem Combination.search_eq_anyM {size : Nat} {elements : List α} (test : List α → m Bool)
    (c : Combination elements.length size) :
    c.search test = c.visits.anyM (fun e => test e.pick) := by
  induction c using Combination.visits_induction with
  | last c hnext =>
    rw [search, visits_of_none hnext]
    simp only [List.anyM]
    refine bind_congr fun passed => ?_
    cases passed
    · simp only [Bool.false_eq_true, if_false]
      split <;> simp_all
    · rfl
  | step c d hnext ih =>
    rw [search, visits_of_some hnext]
    simp only [List.anyM]
    refine bind_congr fun passed => ?_
    cases passed
    · simp only [Bool.false_eq_true, if_false]
      split <;> simp_all
    · rfl

omit [LawfulMonad m] in
/-- The search through the subsets of one size is the search through their list. -/
theorem anySubset_eq_anyM (test : List α → m Bool) (size : Nat) (elements : List α) :
    anySubset test size elements = (subsets size elements).anyM test := by
  rw [anySubset]
  split
  next hsize =>
    rw [Combination.search_eq_anyM, subsets_eq_map_elementsAt, indexVectors, dif_pos hsize,
      List.map_map, anyM_map]
    simp only [Function.comp_apply, Combination.pick_eq_elementsAt]
  next hsize =>
    rw [subsets_eq_nil (Nat.lt_of_not_le hsize)]
    rfl

/-- A search through several lists of elements is the search through all of them. -/
theorem anyM_flatMap {β γ : Type} (test : γ → m Bool) (f : β → List γ) (elements : List β) :
    (elements.flatMap f).anyM test = elements.anyM (fun x => (f x).anyM test) := by
  induction elements with
  | nil => rfl
  | cons x rest ih =>
    simp only [List.flatMap_cons, anyM_append, List.anyM, ih]
    refine bind_congr fun passed => ?_
    cases passed <;> rfl

/-- The search through the subsets of all sizes is the search through their list. -/
theorem anySubsetUpTo_eq_anyM (test : List α → m Bool) (largest : Nat) (elements : List α) :
    anySubsetUpTo test largest elements = (subsetsUpTo largest elements).anyM test := by
  simp only [anySubsetUpTo, subsetsUpTo, anyM_flatMap, anySubset_eq_anyM]

omit [LawfulMonad m] in
/-- The search through the subsets of one size tests the elements at each vector of positions. -/
theorem anySubset_eq_anyM_indexVectors (test : List α → m Bool) (size : Nat) (elements : List α) :
    anySubset test size elements =
      (indexVectors elements.length size).anyM fun indices =>
        test (elementsAt elements indices) := by
  rw [anySubset_eq_anyM, subsets_eq_map_elementsAt, anyM_map]

/-- The search through the subsets of all sizes tests the elements at each vector of positions. -/
theorem anySubsetUpTo_eq_anyM_indexVectors (test : List α → m Bool) (largest : Nat)
    (elements : List α) :
    anySubsetUpTo test largest elements =
      (indexVectorsUpTo elements.length largest).anyM fun indices =>
        test (elementsAt elements indices) := by
  simp only [anySubsetUpTo, indexVectorsUpTo, anyM_flatMap, anySubset_eq_anyM_indexVectors]

end Search

/-- A search that finds nothing has handed over all elements of its list, one after the other. -/
theorem run_anyM_record {β γ : Type} (change : β → γ) (elements : List β) (handed : List γ) :
    (elements.anyM (m := StateM (List γ)) fun x => do
      modify (· ++ [change x])
      pure false).run handed = (false, handed ++ elements.map change) := by
  induction elements generalizing handed with
  | nil =>
    rw [List.map_nil, List.append_nil]
    rfl
  | cons x rest ih =>
    rw [List.map_cons, List.append_cons, ← ih]
    rfl

end Ramify
