import HorizonUct.Draws
import HorizonUct.Scalar

/-!
# Seeded draws

A 64-bit seed is stretched to a key by a permuted congruential generator; the
draws are the key stream of the ChaCha block function with twelve rounds, read
as 64-bit words of which the upper 53 bits give a multiple of `2 ^ -53`.
-/

namespace HorizonUct

/-- Four words of 32 bits, a row of the cipher's square. -/
structure Row where
  /-- The word of the first column. -/
  a : UInt32
  /-- The word of the second column. -/
  b : UInt32
  /-- The word of the third column. -/
  c : UInt32
  /-- The word of the fourth column. -/
  d : UInt32
deriving DecidableEq, Repr

namespace Row

/-- The sums of the words, column by column. -/
def add (x y : Row) : Row := ⟨x.a + y.a, x.b + y.b, x.c + y.c, x.d + y.d⟩

/-- The exclusive disjunctions of the words, each then rotated to the left. -/
def mix (x y : Row) (amount : UInt32) : Row :=
  let turn (w : UInt32) : UInt32 := (w <<< amount) ||| (w >>> (32 - amount))
  ⟨turn (x.a ^^^ y.a), turn (x.b ^^^ y.b), turn (x.c ^^^ y.c), turn (x.d ^^^ y.d)⟩

/-- Move every word one column to the left, the first to the end. -/
def shift (x : Row) : Row := ⟨x.b, x.c, x.d, x.a⟩

/-- The two 64-bit words of a row, the earlier word low. -/
def pairs (x : Row) : List UInt64 :=
  [x.a.toUInt64 ||| (x.b.toUInt64 <<< 32), x.c.toUInt64 ||| (x.d.toUInt64 <<< 32)]

end Row

/-- The square of sixteen words that the block function works on. -/
structure Square where
  /-- The constants. -/
  first : Row
  /-- The first half of the key. -/
  second : Row
  /-- The second half of the key. -/
  third : Row
  /-- The block counter and two words of nought. -/
  fourth : Row
deriving DecidableEq, Repr

namespace Square

/-- The sums of two squares, word by word. -/
def add (x y : Square) : Square :=
  ⟨x.first.add y.first, x.second.add y.second, x.third.add y.third, x.fourth.add y.fourth⟩

/-- The quarter round on all four columns at once. -/
def columnRound (x : Square) : Square :=
  let a := x.first.add x.second
  let d := x.fourth.mix a 16
  let c := x.third.add d
  let b := x.second.mix c 12
  let a := a.add b
  let d := d.mix a 8
  let c := c.add d
  ⟨a, b.mix c 7, c, d⟩

/-- A round on the columns, then one on the diagonals. -/
def doubleRound (x : Square) : Square :=
  let y := x.columnRound
  let z := columnRound ⟨y.first, y.second.shift, y.third.shift.shift, y.fourth.shift.shift.shift⟩
  ⟨z.first, z.second.shift.shift.shift, z.third.shift.shift, z.fourth.shift⟩

/-- The block function with twelve rounds. -/
def block (x : Square) : Square :=
  x.add x.doubleRound.doubleRound.doubleRound.doubleRound.doubleRound.doubleRound

/-- The 64-bit words of a square in order. -/
def pairs (x : Square) : List UInt64 :=
  x.first.pairs ++ x.second.pairs ++ x.third.pairs ++ x.fourth.pairs

end Square

/-- A seeded stream of draws. -/
structure Seeded where
  /-- The first half of the key. -/
  low : Row
  /-- The second half of the key. -/
  high : Row
  /-- The counter of the next block. -/
  counter : UInt64
  /-- The words of the current block that are still to be drawn. -/
  pending : List UInt64
deriving DecidableEq, Repr

namespace Seeded

/-- One step of the generator that stretches the seed. -/
def stretch (state : UInt64) : UInt64 := state * 6364136223846793005 + 11634580027462260723

/-- The word that a state of that generator yields. -/
def keyWord (state : UInt64) : UInt32 :=
  let word := (((state >>> 18) ^^^ state) >>> 27).toUInt32
  let turn := (state >>> 59).toUInt32
  (word >>> turn) ||| (word <<< (32 - turn))

/-- Four words of the key, and the state after them. -/
def keyRow (state : UInt64) : Row × UInt64 :=
  let s₁ := stretch state
  let s₂ := stretch s₁
  let s₃ := stretch s₂
  let s₄ := stretch s₃
  (⟨keyWord s₁, keyWord s₂, keyWord s₃, keyWord s₄⟩, s₄)

/-- The stream of a seed, from its start. -/
def ofSeed (seed : UInt64) : Seeded :=
  let (low, state) := keyRow seed
  let (high, _) := keyRow state
  ⟨low, high, 0, []⟩

/-- The words of the block with a given counter. -/
def words (source : Seeded) (counter : UInt64) : List UInt64 :=
  (Square.block ⟨⟨0x61707865, 0x3320646e, 0x79622d32, 0x6b206574⟩, source.low, source.high,
    ⟨counter.toUInt32, (counter >>> 32).toUInt32, 0, 0⟩⟩).pairs

/-- The next word of the stream. -/
def nextWord (source : Seeded) : UInt64 × Seeded :=
  match source.pending with
  | word :: rest => (word, { source with pending := rest })
  | [] =>
    let words := source.words source.counter
    (words.headD 0, { source with counter := source.counter + 1, pending := words.tail })

instance {α : Type} [Scalar α] : DrawSource Seeded α where
  next source :=
    let (word, source) := source.nextWord
    (Scalar.ofNat (word >>> 11).toNat / Scalar.ofNat (Nat.pow 2 53), source)

end Seeded

end HorizonUct
