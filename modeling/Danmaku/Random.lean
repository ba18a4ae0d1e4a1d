import Danmaku.Binary32.Basic

/-!
# Random numbers

The generator xoshiro256++, with its four words filled from a seed by a 64-bit congruential
generator that puts out permuted 32-bit halves, low half first.
-/

namespace Danmaku

/-- The state of the generator. -/
structure Random where
  s0 : UInt64
  s1 : UInt64
  s2 : UInt64
  s3 : UInt64
deriving DecidableEq, Inhabited

namespace Random

def rotateLeft (x : UInt64) (n : UInt64) : UInt64 := (x <<< n) ||| (x >>> (64 - n))

def rotateRight32 (x : UInt32) (n : UInt32) : UInt32 := (x >>> n) ||| (x <<< ((32 - n) % 32))

/-- The next state of the seeding generator, and the half word that it puts out. -/
def seedHalf (state : UInt64) : UInt64 × UInt32 :=
  let next := state * 6364136223846793005 + 11634580027462260723
  let folded := (((next >>> 18) ^^^ next) >>> 27).toUInt32
  (next, rotateRight32 folded (next >>> 59).toUInt32)

def seedWord (state : UInt64) : UInt64 × UInt64 :=
  let (state, low) := seedHalf state
  let (state, high) := seedHalf state
  (state, (high.toUInt64 <<< 32) ||| low.toUInt64)

def ofSeed (seed : UInt64) : Random :=
  let (state, s0) := seedWord seed
  let (state, s1) := seedWord state
  let (state, s2) := seedWord state
  let (_, s3) := seedWord state
  ⟨s0, s1, s2, s3⟩

def next (r : Random) : UInt64 × Random :=
  let result := rotateLeft (r.s0 + r.s3) 23 + r.s0
  let t := r.s1 <<< 17
  let s2 := r.s2 ^^^ r.s0
  let s3 := r.s3 ^^^ r.s1
  let s1 := r.s1 ^^^ s2
  let s0 := r.s0 ^^^ s3
  (result, ⟨s0, s1, s2 ^^^ t, rotateLeft s3 45⟩)

/-- A multiple of 2⁻²⁴ from zero up to, but excluding, one: the top 24 bits of a word. -/
def nextUnit (r : Random) : Binary32 × Random :=
  let (word, r) := r.next
  (.ofRatio false ((word >>> 40).toNat * Binary32.unitsPerOne) (2 ^ 24), r)

end Random

end Danmaku
