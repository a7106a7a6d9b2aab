/-!
Finite maps as association lists with strictly increasing keys. The order of the keys is part of
the type, so a map has exactly one list of entries: two maps with the same look-ups are equal, and
walking through the entries always follows the order of the keys.
-/

namespace Ramify

/-- A finite map from `κ` to `α` whose entries are listed by strictly increasing key. -/
structure SortedMap (κ α : Type) [Ord κ] where
  entries : List (κ × α)
  increasing : entries.Pairwise (fun a b => compare a.1 b.1 = .lt)

/-- Writes `value` under `key`: an entry of that key is replaced, and any other entry stays. -/
def insertEntry {κ α : Type} [Ord κ] (key : κ) (value : α) : List (κ × α) → List (κ × α)
  | [] => [(key, value)]
  | entry :: rest =>
    match compare key entry.1 with
    | .lt => (key, value) :: entry :: rest
    | .eq => (key, value) :: rest
    | .gt => entry :: insertEntry key value rest

/-- The keys after an insertion are the old ones and the inserted one. -/
theorem mem_insertEntry {κ α : Type} [Ord κ] {key : κ} {value : α} {entries : List (κ × α)}
    {entry : κ × α} (h : entry ∈ insertEntry key value entries) :
    entry = (key, value) ∨ entry ∈ entries := by
  induction entries with
  | nil => simpa [insertEntry] using h
  | cons head rest ih =>
    unfold insertEntry at h
    split at h <;> simp only [List.mem_cons] at h ⊢
    · exact h
    · exact h.imp_right Or.inr
    · rcases h with h | h
      · exact Or.inr (Or.inl h)
      · exact (ih h).imp_right Or.inr

/-- Insertion keeps the keys strictly increasing. -/
theorem pairwise_insertEntry {κ α : Type} [Ord κ] [Std.TransOrd κ] (key : κ) (value : α)
    {entries : List (κ × α)} (h : entries.Pairwise (fun a b => compare a.1 b.1 = .lt)) :
    (insertEntry key value entries).Pairwise (fun a b => compare a.1 b.1 = .lt) := by
  induction entries with
  | nil => simp [insertEntry]
  | cons head rest ih =>
    obtain ⟨above, tail⟩ := List.pairwise_cons.1 h
    unfold insertEntry
    split
    · rename_i below
      refine List.pairwise_cons.2 ⟨fun e he => ?_, h⟩
      rcases List.mem_cons.1 he with rfl | he
      · exact below
      · exact Std.TransCmp.lt_trans below (above e he)
    · rename_i same
      exact List.pairwise_cons.2
        ⟨fun e he => Std.TransCmp.lt_of_eq_of_lt same (above e he), tail⟩
    · rename_i beyond
      refine List.pairwise_cons.2 ⟨fun e he => ?_, ih tail⟩
      rcases mem_insertEntry he with rfl | he
      · exact Std.OrientedCmp.lt_of_gt beyond
      · exact above e he

namespace SortedMap

variable {κ α : Type} [Ord κ]

/-- Two maps with the same entries are equal. -/
@[ext] theorem ext {left right : SortedMap κ α} (h : left.entries = right.entries) :
    left = right := by
  cases left; cases right; cases h; rfl

instance [DecidableEq κ] [DecidableEq α] : DecidableEq (SortedMap κ α) := fun left right =>
  decidable_of_iff (left.entries = right.entries) ⟨ext, fun h => h ▸ rfl⟩

instance [BEq κ] [BEq α] : BEq (SortedMap κ α) := ⟨fun left right => left.entries == right.entries⟩

def empty : SortedMap κ α := ⟨[], List.Pairwise.nil⟩

instance : EmptyCollection (SortedMap κ α) := ⟨empty⟩

instance : Inhabited (SortedMap κ α) := ⟨empty⟩

/-- The value under `key`, if there is one. -/
def find? (map : SortedMap κ α) (key : κ) : Option α :=
  (map.entries.find? (fun entry => compare entry.1 key == .eq)).map Prod.snd

def contains (map : SortedMap κ α) (key : κ) : Bool := (map.find? key).isSome

/-- The map that holds `value` under `key` and is otherwise unchanged. -/
def insert [Std.TransOrd κ] (map : SortedMap κ α) (key : κ) (value : α) : SortedMap κ α :=
  ⟨insertEntry key value map.entries, pairwise_insertEntry key value map.increasing⟩

def erase (map : SortedMap κ α) (key : κ) : SortedMap κ α :=
  ⟨map.entries.filter (fun entry => compare entry.1 key != .eq), map.increasing.filter _⟩

/-- The map whose only entry is `value` under `key`. -/
def single (key : κ) (value : α) : SortedMap κ α := ⟨[(key, value)], List.pairwise_singleton _ _⟩

/-- The map of a list of entries; of two entries with one key the later one counts. -/
def ofList [Std.TransOrd κ] (entries : List (κ × α)) : SortedMap κ α :=
  entries.foldl (fun map entry => map.insert entry.1 entry.2) empty

def keys (map : SortedMap κ α) : List κ := map.entries.map Prod.fst

def mapValues {β : Type} (f : α → β) (map : SortedMap κ α) : SortedMap κ β :=
  ⟨map.entries.map (fun entry => (entry.1, f entry.2)), by
    rw [List.pairwise_map]; exact map.increasing⟩

def filter (keep : κ → α → Bool) (map : SortedMap κ α) : SortedMap κ α :=
  ⟨map.entries.filter (fun entry => keep entry.1 entry.2), map.increasing.filter _⟩

def isEmpty (map : SortedMap κ α) : Bool := map.entries.isEmpty

end SortedMap

/-- The distinct elements of a list in increasing order. -/
def ascending {κ : Type} [Ord κ] [Std.TransOrd κ] (elements : List κ) : List κ :=
  (elements.foldl (fun (map : SortedMap κ Unit) key => map.insert key ()) ∅).keys

end Ramify
