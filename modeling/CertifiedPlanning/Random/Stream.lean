/-!
# Random numbers

A reproducible stream of 64-bit numbers: the key stream of the ChaCha cipher with twelve rounds.
A seed is spread over the key by a small congruential generator, the counter starts at zero, and
every number takes two words of the key stream, the low one first.
-/

namespace CertifiedPlanning

/-- A stream of random numbers. -/
structure RandomStream where
  key : List UInt32
  /-- Number of the next block. -/
  counter : UInt64
  /-- Words of the last block that were not used yet. -/
  pending : List UInt32

namespace RandomStream

/-- `x` rotated left by `n` bits. -/
def rotateLeft (x : UInt32) (n : UInt32) : UInt32 := (x <<< n) ||| (x >>> (32 - n))

/-- `count` key words from the state of a congruential generator: the high bits of the state are
folded, and rotated right by its five highest bits. -/
def keyWords : Nat → UInt64 → List UInt32
  | 0, _ => []
  | count + 1, state =>
      let state := state * 6364136223846793005 + 11634580027462260723
      let x : UInt32 := (((state >>> 18) ^^^ state) >>> 27).toUInt32
      let n : UInt32 := (state >>> 59).toUInt32
      ((x >>> n) ||| (x <<< ((32 - n) % 32))) :: keyWords count state

/-- The stream of a seed. -/
def ofSeed (seed : UInt64) : RandomStream := ⟨keyWords 8 seed, 0, []⟩

/-- Mixes four words of a block. -/
def quarterRound (w : Array UInt32) (i j k l : Nat) : Array UInt32 :=
  let a := w.getD i 0
  let b := w.getD j 0
  let c := w.getD k 0
  let d := w.getD l 0
  let a := a + b
  let d := rotateLeft (d ^^^ a) 16
  let c := c + d
  let b := rotateLeft (b ^^^ c) 12
  let a := a + b
  let d := rotateLeft (d ^^^ a) 8
  let c := c + d
  let b := rotateLeft (b ^^^ c) 7
  (((w.setIfInBounds i a).setIfInBounds j b).setIfInBounds k c).setIfInBounds l d

/-- Mixes the columns of a block, then its diagonals. -/
def doubleRound (w : Array UInt32) : Array UInt32 :=
  let w := quarterRound w 0 4 8 12
  let w := quarterRound w 1 5 9 13
  let w := quarterRound w 2 6 10 14
  let w := quarterRound w 3 7 11 15
  let w := quarterRound w 0 5 10 15
  let w := quarterRound w 1 6 11 12
  let w := quarterRound w 2 7 8 13
  quarterRound w 3 4 9 14

/-- The words that every block starts with. -/
def constants : List UInt32 := [0x61707865, 0x3320646e, 0x79622d32, 0x6b206574]

/-- The block with the given number: constants, key, counter and two zero words, mixed by six
double rounds and added to themselves. -/
def block (key : List UInt32) (counter : UInt64) : List UInt32 :=
  let start :=
    (constants ++ key ++ [counter.toUInt32, (counter >>> 32).toUInt32, 0, 0]).toArray
  let mixed := Nat.repeat doubleRound 6 start
  (Array.zipWith (· + ·) mixed start).toList

/-- The next number of the stream. -/
def next (r : RandomStream) : RandomStream × UInt64 :=
  match r.pending with
  | low :: high :: rest =>
      ({ r with pending := rest }, low.toUInt64 ||| (high.toUInt64 <<< 32))
  | _ =>
      match block r.key r.counter with
      | low :: high :: rest =>
          (⟨r.key, r.counter + 1, rest⟩, low.toUInt64 ||| (high.toUInt64 <<< 32))
      | _ => (r, 0)

end RandomStream

end CertifiedPlanning
