/-!
The search through the subsets of a list that have a given size, in the lexicographic order of
positions. There may be a great many of them, so they are made one at a time: a vector of positions
is counted on in place, and each access to it, or to the list at one of its positions, carries the
proof that it is in range. That the positions become greater makes the search end.
-/

namespace Ramify

/-- Some positions of a list, in increasing order. -/
structure Combination (count size : Nat) where
  indices : Vector Nat size
  increasing : ∀ (i j : Nat) (hj : j < size) (hi : i < j), indices[i] < indices[j]
  below : ∀ (i : Nat) (hi : i < size), indices[i] < count

namespace Combination

variable {count size : Nat}

/-- The largest position that can stand at a place. -/
def top (count size place : Nat) : Nat :=
  count - size + place

/-- The number of places that are left when, from the last of some places on downwards, those with
the largest possible position are passed over. -/
def pivot (count : Nat) (indices : Vector Nat size) : (places : Nat) → places ≤ size → Nat
  | 0, _ => 0
  | place + 1, hplace =>
    if indices[place] = top count size place then
      pivot count indices place (Nat.le_of_succ_le hplace)
    else place + 1

/-- Counts on from the position before a place, at this place and all places after it. -/
def refill (indices : Vector Nat size) (place : Nat) (hplace : 0 < place) : Vector Nat size :=
  if h : place < size then
    refill (indices.set place (indices[place - 1] + 1)) (place + 1) (Nat.succ_pos place)
  else indices
termination_by size - place

/-- All places that are passed over have the largest possible position. -/
theorem top_of_pivot_le (indices : Vector Nat size) (places : Nat) (hplaces : places ≤ size)
    {place : Nat} (hplace : place < places)
    (hpivot : pivot count indices places hplaces ≤ place) :
    indices[place] = top count size place := by
  induction places with
  | zero => exact absurd hplace (Nat.not_lt_zero _)
  | succ last ih =>
    rw [pivot] at hpivot
    split at hpivot
    next hlast =>
      obtain hplace | rfl := Nat.lt_succ_iff_lt_or_eq.mp hplace
      · exact ih _ hplace hpivot
      · exact hlast
    · omega

/-- The last place that is left over does not have the largest possible position. -/
theorem ne_top_of_pivot (indices : Vector Nat size) (places : Nat) (hplaces : places ≤ size)
    {place : Nat} (hpivot : pivot count indices places hplaces = place + 1) :
    ∃ hplace : place < size, indices[place] ≠ top count size place := by
  induction places with
  | zero => exact absurd hpivot (Nat.succ_ne_zero _).symm
  | succ last ih =>
    rw [pivot] at hpivot
    split at hpivot
    · exact ih _ hpivot
    next hlast =>
      obtain rfl := Nat.succ.inj hpivot
      exact ⟨hplaces, hlast⟩

/-- Counting on leaves the positions before the place as they are. -/
theorem getElem_refill_of_lt (indices : Vector Nat size) (place : Nat) (hplace : 0 < place)
    {i : Nat} (hi : i < size) (hlt : i < place) :
    (refill indices place hplace)[i] = indices[i] := by
  induction indices, place, hplace using refill.induct with
  | case1 indices place hplace h ih =>
    rw [refill, dif_pos h, ih (by omega), Vector.getElem_set_ne _ _ (by omega)]
  | case2 indices place hplace h => rw [refill, dif_neg h]

/-- From the place on, the positions follow each other. -/
theorem getElem_refill_of_le (indices : Vector Nat size) (place : Nat) (hplace : 0 < place)
    {i : Nat} (hi : i < size) (hle : place ≤ i) :
    (refill indices place hplace)[i] = indices[place - 1] + (i - (place - 1)) := by
  induction indices, place, hplace using refill.induct with
  | case1 indices place hplace h ih =>
    rw [refill, dif_pos h]
    obtain rfl | hlt := Nat.eq_or_lt_of_le hle
    · rw [getElem_refill_of_lt _ _ _ _ (Nat.lt_succ_self _)]
      simp
      omega
    · rw [ih hlt]
      simp
      omega
  | case2 indices place hplace h => omega

/-- Raises the position at a place, and lets those after it follow. -/
def raise (indices : Vector Nat size) (place : Nat) (hplace : place < size) : Vector Nat size :=
  refill (indices.set place (indices[place] + 1)) (place + 1) (Nat.succ_pos place)

/-- The positions before the raised one stay. -/
theorem getElem_raise_of_lt (indices : Vector Nat size) {place : Nat} (hplace : place < size)
    {i : Nat} (hi : i < size) (hlt : i < place) :
    (raise indices place hplace)[i] = indices[i] := by
  rw [raise, getElem_refill_of_lt _ _ _ hi (by omega), Vector.getElem_set_ne _ _ (by omega)]

/-- From the raised position on, they follow each other. -/
theorem getElem_raise_of_le (indices : Vector Nat size) {place : Nat} (hplace : place < size)
    {i : Nat} (hi : i < size) (hle : place ≤ i) :
    (raise indices place hplace)[i] = indices[place] + 1 + (i - place) := by
  obtain rfl | hlt := Nat.eq_or_lt_of_le hle
  · rw [raise, getElem_refill_of_lt _ _ _ hi (Nat.lt_succ_self _), Vector.getElem_set_self]
    omega
  · rw [raise, getElem_refill_of_le _ _ _ hi hlt]
    simp

/-- Positions grow by at least one from place to place. -/
theorem add_le_getElem (c : Combination count size) {i j : Nat} (hj : j < size) (hle : i ≤ j) :
    c.indices[i] + (j - i) ≤ c.indices[j] := by
  induction hle with
  | refl => omega
  | @step j hle ih =>
    have := ih (Nat.lt_of_succ_lt hj)
    have hstep : c.indices[j] < c.indices[j.succ] := c.increasing j _ hj (Nat.lt_succ_self j)
    have hle : i ≤ j := hle
    omega

/-- There are no more places than positions. -/
theorem size_le (c : Combination count size) : size ≤ count := by
  cases size with
  | zero => exact Nat.zero_le _
  | succ last =>
    have := c.add_le_getElem (Nat.lt_succ_self last) (Nat.zero_le last)
    have := c.below last (Nat.lt_succ_self last)
    omega

/-- The position at a place leaves room for those after it. -/
theorem le_top (c : Combination count size) {i : Nat} (hi : i < size) :
    c.indices[i] ≤ top count size i := by
  have := c.add_le_getElem (i := i) (j := size - 1) (by omega) (by omega)
  have := c.below (size - 1) (by omega)
  unfold top
  omega

/-- The positions after a raised one that can be raised are increasing again. -/
theorem increasing_raise (c : Combination count size) {place : Nat} (hplace : place < size)
    (i j : Nat) (hj : j < size) (hi : i < j) :
    (raise c.indices place hplace)[i] < (raise c.indices place hplace)[j] := by
  obtain hjl | hjl := Nat.lt_or_ge j place
  · rw [getElem_raise_of_lt _ _ _ (Nat.lt_trans hi hjl), getElem_raise_of_lt _ _ _ hjl]
    exact c.increasing i j hj hi
  · rw [getElem_raise_of_le _ _ hj hjl]
    obtain hil | hil := Nat.lt_or_ge i place
    · rw [getElem_raise_of_lt _ _ _ hil]
      have := c.increasing i place hplace hil
      omega
    · rw [getElem_raise_of_le _ _ _ hil]
      omega

/-- Raising a position that is not the largest possible one keeps all of them in range. -/
theorem raise_below (c : Combination count size) {place : Nat} (hplace : place < size)
    (hne : c.indices[place] ≠ top count size place) (i : Nat) (hi : i < size) :
    (raise c.indices place hplace)[i] < count := by
  obtain hil | hil := Nat.lt_or_ge i place
  · rw [getElem_raise_of_lt _ _ _ hil]
    exact c.below i hi
  · rw [getElem_raise_of_le _ _ hi hil]
    have := c.le_top hplace
    have := c.size_le
    unfold top at *
    omega

/-- The positions that come next: the last one that can be raised is raised, and those after it
follow. -/
def next (c : Combination count size) : Option (Combination count size) :=
  match hpivot : pivot count c.indices size (Nat.le_refl size) with
  | 0 => none
  | place + 1 =>
    have hne := ne_top_of_pivot c.indices size (Nat.le_refl size) hpivot
    some ⟨raise c.indices place hne.1, c.increasing_raise hne.1, c.raise_below hne.1 hne.2⟩

def first (hsize : size ≤ count) : Combination count size where
  indices := Vector.range size
  increasing := by simp
  below := by simp; omega

def pick {α : Type} {elements : List α} (c : Combination elements.length size) : List α :=
  List.ofFn fun i : Fin size => elements.get ⟨c.indices[i], c.below i i.isLt⟩

/-- Positions, counted from the end, as the digits of a number behind those of another one. -/
def remainingAfter (count : Nat) : Nat → List Nat → Nat
  | number, [] => number
  | number, index :: rest => remainingAfter count (number * (count + 1) + (count - index)) rest

/-- A number that becomes smaller when the positions come later in lexicographic order. -/
def remaining (count : Nat) (indices : List Nat) : Nat := remainingAfter count 0 indices

/-- The digits in front decide. -/
theorem remainingAfter_lt {lesser greater : Nat} {former later : List Nat}
    (hlength : former.length = later.length) (h : lesser < greater) :
    remainingAfter count lesser later < remainingAfter count greater former := by
  induction later generalizing lesser greater former with
  | nil =>
    rw [List.eq_nil_of_length_eq_zero hlength]
    exact h
  | cons y ys ih =>
    obtain ⟨x, xs, rfl⟩ := List.exists_cons_of_length_eq_add_one hlength
    have hmul := Nat.mul_le_mul_right (count + 1) (Nat.succ_le_of_lt h)
    rw [Nat.succ_mul] at hmul
    rw [remainingAfter, remainingAfter]
    exact ih (by simpa using hlength) (by omega)

/-- Later positions have the smaller number. -/
theorem remainingAfter_lt_of_lt {former later : List Nat} (number : Nat)
    (hlength : former.length = later.length) (hbelow : ∀ index ∈ later, index < count)
    (hless : former < later) :
    remainingAfter count number later < remainingAfter count number former := by
  induction hless generalizing number with
  | nil => exact absurd hlength (Nat.succ_ne_zero _).symm
  | @rel x xs y ys hxy =>
    have hy := hbelow y List.mem_cons_self
    rw [remainingAfter, remainingAfter]
    exact remainingAfter_lt (by simpa using hlength) (by omega)
  | @cons x xs ys _ ih =>
    exact ih _ (by simpa using hlength) fun index hindex =>
      hbelow index (List.mem_cons_of_mem _ hindex)

/-- The positions that come next are later in lexicographic order. -/
theorem lt_next {c d : Combination count size} (h : c.next = some d) :
    c.indices.toList < d.indices.toList := by
  rw [next] at h
  split at h
  · cases h
  next place hpivot =>
    have hne := ne_top_of_pivot c.indices size (Nat.le_refl size) hpivot
    cases h
    rw [List.lt_iff_exists]
    right
    refine ⟨place, by simpa using hne.1, by simpa using hne.1, ?_, ?_⟩
    · intro i hi
      simp [getElem_raise_of_lt _ hne.1 (Nat.lt_trans hi hne.1) hi]
    · simp [getElem_raise_of_le _ hne.1 hne.1 (Nat.le_refl _)]

theorem remaining_next {c d : Combination count size} (h : c.next = some d) :
    remaining count d.indices.toList < remaining count c.indices.toList := by
  refine remainingAfter_lt_of_lt 0 (by simp) ?_ (lt_next h)
  intro index hindex
  obtain ⟨i, hi, rfl⟩ := List.getElem_of_mem hindex
  rw [Vector.getElem_toList]
  exact d.below i (by simpa using hi)

section Search

variable {α : Type} {m : Type → Type} [Monad m]

/-- Tests the elements at some positions and at all that come next, until a test passes, and says
whether one did. -/
def search {elements : List α} (test : List α → m Bool) (c : Combination elements.length size) :
    m Bool := do
  if ← test c.pick then pure true
  else
    match _hnext : c.next with
    | none => pure false
    | some d => search test d
termination_by remaining elements.length c.indices.toList
decreasing_by exact remaining_next _hnext

end Search
end Combination

section Search

variable {α : Type} {m : Type → Type} [Monad m]

/-- Tests the subsets of a given size in order until one passes, and says whether one did. -/
def anySubset (test : List α → m Bool) (size : Nat) (elements : List α) : m Bool :=
  if hsize : size ≤ elements.length then (Combination.first hsize).search test else pure false

/-- Tests the subsets of sizes one to `largest`, smaller ones first, until one passes, and says
whether one did. -/
def anySubsetUpTo (test : List α → m Bool) (largest : Nat) (elements : List α) : m Bool :=
  (List.range largest).anyM (fun size => anySubset test (size + 1) elements)

end Search

end Ramify
