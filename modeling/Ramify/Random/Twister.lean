import Ramify.Scalar

/-!
A twisted feedback generator of 32-bit words with a state of 624 words, and uniform numbers drawn
from it. A seed determines every number that is ever drawn.
-/

namespace Ramify

/-- A generator: its words, and how many of them have been handed out. -/
structure Twister where
  words : Vector UInt32 624
  used : Nat

namespace Twister

/-- The generator of a seed. Each word is mixed from its predecessor and its position. -/
def ofSeed (seed : UInt32) : Twister :=
  let start := (Vector.replicate 624 0).set 0 seed
  let words := (List.finRange 624).foldl (fun (words : Vector UInt32 624) i =>
    if i = 0 then words
    else
      let previous := words.get (i - 1)
      let word := (1812433253 : UInt32) * (previous ^^^ (previous >>> 30)) + i.val.toUInt32
      words.set i word) start
  ⟨words, 624⟩

/-- The next block of words. Each one replaces its predecessor in place, so that later words of the
block are made from earlier ones. -/
def twist (words : Vector UInt32 624) : Vector UInt32 624 :=
  (List.finRange 624).foldl (fun (words : Vector UInt32 624) i =>
    let joined := (words.get i &&& 0x80000000) ||| (words.get (i + 1) &&& 0x7fffffff)
    let mask : UInt32 := if joined &&& 1 = 0 then 0 else 0x9908b0df
    words.set i (words.get (i + 397) ^^^ (joined >>> 1) ^^^ mask)) words

/-- Scrambles a word of the state into a word of the output. -/
def temper (word : UInt32) : UInt32 :=
  let a := word ^^^ (word >>> 11)
  let b := a ^^^ ((a <<< 7) &&& 0x9d2c5680)
  let c := b ^^^ ((b <<< 15) &&& 0xefc60000)
  c ^^^ (c >>> 18)

/-- The next word and the generator after it. -/
def next (generator : Twister) : UInt32 × Twister :=
  let ready : Twister :=
    if generator.used < 624 then generator else ⟨twist generator.words, 0⟩
  (temper (ready.words[ready.used]?.getD 0), ⟨ready.words, ready.used + 1⟩)

/-- A number between `low` and `high`, made from the next two words. -/
def uniform {K : Type} [Scalar K] (low high : K) : StateM Twister K := fun generator =>
  let (first, generator) := generator.next
  let (second, generator) := generator.next
  (Scalar.fraction first second * (high - low) + low, generator)

end Twister

end Ramify
