import Ramify.Random.Twister

/-!
The words of a seed. A generator fills its state word by word, each one mixed from the word before
it, so that the words follow a recurrence and are known without the filling.
-/

namespace Ramify.Twister

variable {seed : UInt32} {words : Vector UInt32 624}

/-- A word from its predecessor and its position. -/
def mix (previous : UInt32) (i : Nat) : UInt32 :=
  (1812433253 : UInt32) * (previous ^^^ (previous >>> 30)) + i.toUInt32

/-- The words of a seed by recurrence. -/
def seedWord (seed : UInt32) : Nat → UInt32
  | 0 => seed
  | i + 1 => mix (seedWord seed i) (i + 1)

def seedWords (seed : UInt32) : Vector UInt32 624 :=
  ⟨((List.range 624).map (seedWord seed)).toArray, by simp⟩

theorem getElem_seedWords (seed : UInt32) (i : Nat) (hi : i < 624) :
    (seedWords seed)[i] = seedWord seed i := by
  simp [seedWords]

/-- Whether the first word and those before a position are those of the recurrence. -/
def FilledTo (seed : UInt32) (words : Vector UInt32 624) (done : Nat) : Prop :=
  ∀ (i : Nat) (hi : i < 624), i < done ∨ i = 0 → words[i] = seedWord seed i

/-- The word that is mixed from its predecessor is the next one of the recurrence. -/
theorem FilledTo.set {previous : Nat} (h : FilledTo seed words (previous + 1))
    (hlt : previous + 1 < 624) {word : UInt32}
    (hword : word = mix words[previous] (previous + 1)) :
    FilledTo seed (words.set (previous + 1) word) (previous + 2) := by
  intro i hi hfilled
  rw [Vector.getElem_set]
  split
  · rename_i hsame
    subst hsame
    rw [hword, h previous (by omega) (Or.inl (Nat.lt_succ_self previous))]
    rfl
  · exact h i hi (by omega)

/-- What fills one position after the other fills all of them. -/
theorem filledTo_foldl {fill : Vector UInt32 624 → Fin 624 → Vector UInt32 624}
    (hfill : ∀ words i, FilledTo seed words i.val → FilledTo seed (fill words i) (i.val + 1))
    {n done : Nat} (hdone : done + n = 624) (h : FilledTo seed words done) :
    FilledTo seed (((List.finRange 624).drop done).foldl fill words) 624 := by
  induction n generalizing done words with
  | zero =>
      rw [List.drop_of_length_le (by simp; omega)]
      obtain rfl : done = 624 := hdone
      exact h
  | succ n ih =>
      have hlt : done < (List.finRange 624).length := by simp; omega
      rw [List.drop_eq_getElem_cons hlt, List.foldl_cons, List.getElem_finRange]
      exact ih (by omega) (hfill words ⟨done, by omega⟩ h)

/-- A generator starts with the words of the recurrence, and has to make new ones before it hands
out the first. -/
theorem ofSeed_eq (seed : UInt32) : ofSeed seed = ⟨seedWords seed, 624⟩ := by
  have hfilled : FilledTo seed (ofSeed seed).words 624 := by
    simp only [ofSeed]
    rw [← List.drop_zero (l := List.finRange 624)]
    refine filledTo_foldl (fun words i h => ?_) (Nat.zero_add 624) (fun i hi hfirst => ?_)
    · obtain ⟨_ | previous, hlt⟩ := i
      · have hfirst : (⟨0, hlt⟩ : Fin 624) = 0 := rfl
        rw [if_pos hfirst]
        exact fun i hi hfirst => h i hi (Or.inr (by omega))
      · have hbefore : (⟨previous + 1, hlt⟩ : Fin 624) - 1 = ⟨previous, by omega⟩ := by
          apply Fin.ext
          rw [Fin.sub_def]
          simp
          omega
        rw [if_neg (fun hzero => Nat.succ_ne_zero previous (congrArg Fin.val hzero)), hbefore]
        exact h.set hlt rfl
    · obtain rfl : i = 0 := by omega
      exact Vector.getElem_set_self hi
  have hwords : (ofSeed seed).words = seedWords seed := by
    apply Vector.ext
    intro i hi
    rw [getElem_seedWords]
    exact hfilled i hi (Or.inl hi)
  rw [← hwords]
  simp only [ofSeed]

end Ramify.Twister
