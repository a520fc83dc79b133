import ProbeForge.Numeric.Power
import ProbeForge.Random.Source

/-!
# The Mersenne Twister

MT19937 seeded from the 32-bit words of an integer's magnitude. Bounded draws take the leading bits
of a word and repeat until the value is in range; normal draws come in pairs, of which the second is
stored.
-/

namespace ProbeForge

structure MersenneTwister where
  words : Array UInt32
  next : Nat
  spare : Option Float

namespace MersenneTwister

def size : Nat := 624

def wordAt (words : Array UInt32) (i : Nat) : UInt32 := words.getD i 0

/-- `x` mixed into its successor, the step that both seedings share. -/
def carry (x : UInt32) : UInt32 := x ^^^ (x >>> 30)

/-- The state of a plain seed, extended word by word. -/
def spread : Nat → Array UInt32 → Array UInt32
  | 0, words => words
  | k + 1, words =>
    let last := wordAt words (words.size - 1)
    spread k (words.push (1812433253 * carry last + words.size.toUInt32))

/-- The next position, going around past the first word, which then takes the last one's value. -/
def advance (words : Array UInt32) (i : Nat) : Array UInt32 × Nat :=
  if i + 1 ≥ size then (words.set! 0 (wordAt words (size - 1)), 1) else (words, i + 1)

def absorb (key : Array UInt32) : Nat → Array UInt32 → Nat → Nat → Array UInt32 × Nat
  | 0, words, i, _ => (words, i)
  | k + 1, words, i, j =>
    let mixed := (wordAt words i ^^^ (carry (wordAt words (i - 1)) * 1664525)) +
      wordAt key j + j.toUInt32
    let (words, i) := advance (words.set! i mixed) i
    absorb key k words i (if j + 1 ≥ key.size then 0 else j + 1)

def settle : Nat → Array UInt32 → Nat → Array UInt32
  | 0, words, _ => words
  | k + 1, words, i =>
    let mixed := (wordAt words i ^^^ (carry (wordAt words (i - 1)) * 1566083941)) - i.toUInt32
    let (words, i) := advance (words.set! i mixed) i
    settle k words i

/-- The words of a number from the least significant one; zero has one word. -/
def keyWords : Nat → Nat → List UInt32
  | 0, _ => []
  | fuel + 1, n =>
    n.toUInt32 :: if n < Numeric.twoTo 32 then [] else keyWords fuel (n / Numeric.twoTo 32)

def ofSeed (seed : Int) : MersenneTwister :=
  let n := seed.natAbs
  let key := (keyWords (n.log2 / 32 + 1) n).toArray
  let words := spread (size - 1) #[19650218]
  let (words, i) := absorb key (max size key.size) words 1 0
  let words := settle (size - 1) words i
  -- the first word is never zero, so the state is not either
  { words := words.set! 0 0x80000000, next := size, spare := none }

/-- Replaces every word from the one after it and the one 397 places on. -/
def twist : Nat → Array UInt32 → Array UInt32
  | 0, words => words
  | k + 1, words =>
    let i := size - (k + 1)
    let y := (wordAt words i &&& 0x80000000) ||| (wordAt words ((i + 1) % size) &&& 0x7FFFFFFF)
    let shifted := wordAt words ((i + 397) % size) ^^^ (y >>> 1)
    twist k (words.set! i (if y &&& 1 = 1 then shifted ^^^ 0x9908B0DF else shifted))

def temper (y : UInt32) : UInt32 :=
  let y := y ^^^ (y >>> 11)
  let y := y ^^^ ((y <<< 7) &&& 0x9D2C5680)
  let y := y ^^^ ((y <<< 15) &&& 0xEFC60000)
  y ^^^ (y >>> 18)

def word : MersenneTwister → UInt32 × MersenneTwister
  | { words, next, spare } =>
    let (words, next) := if next ≥ size then (twist size words, 0) else (words, next)
    (temper (wordAt words next), { words, next := next + 1, spare })

/-- The leading `k ≤ 32` bits of the next word. -/
def leading (k : Nat) (source : MersenneTwister) : Nat × MersenneTwister :=
  let (w, source) := source.word
  ((w >>> (32 - k).toUInt32).toNat, source)

/-- `k` random bits, from the least significant word up. -/
def bits : Nat → Nat → MersenneTwister → Nat × MersenneTwister
  | 0, _, source => (0, source)
  | fuel + 1, k, source =>
    if k ≤ 32 then source.leading k
    else
      -- low bits are drawn before high ones
      let (low, source) := source.leading 32
      let (high, source) := bits fuel (k - 32) source
      (high * Numeric.twoTo 32 + low, source)

def belowFrom (n width : Nat) : Nat → MersenneTwister → Fin (n + 1) × MersenneTwister
  | 0, source => (0, source)
  | fuel + 1, source =>
    let (value, source) := bits (width / 32 + 1) width source
    if h : value < n + 1 then (⟨value, h⟩, source) else belowFrom n width fuel source

/-- One of `n + 1` values, by redrawing as many bits as `n + 1` has. -/
def below (n : Nat) (source : MersenneTwister) : Fin (n + 1) × MersenneTwister :=
  belowFrom n ((n + 1).log2 + 1) RandomSource.patience source

def unit (source : MersenneTwister) : Float × MersenneTwister :=
  let (high, source) := source.word
  let (low, source) := source.word
  let n := (high >>> 5).toNat * Numeric.twoTo 26 + (low >>> 6).toNat
  (n.toFloat / (Numeric.twoTo 53).toFloat, source)

def turn : Float := 6.283185307179586

def normal (source : MersenneTwister) : Float × MersenneTwister :=
  match source.spare with
  | some z => (z, { source with spare := none })
  | none =>
    let (u, source) := source.unit
    let (v, source) := source.unit
    let angle := u * turn
    let radius := Float.sqrt (-2.0 * Float.log (1.0 - v))
    (Float.cos angle * radius, { source with spare := some (Float.sin angle * radius) })

instance : RandomSource MersenneTwister where
  seeded := ofSeed
  below := below
  unit := unit
  normal := normal

end MersenneTwister

end ProbeForge
