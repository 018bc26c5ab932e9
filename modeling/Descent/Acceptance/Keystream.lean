import Descent.Arithmetic.Distance

/-!
# Seeded draws

The pseudo-random draws that belong to a seed, as one source of draws among others: nothing that is
said of annealed scores depends on it. The seed is spread over a key of eight words; the
key drives the ChaCha stream of twelve rounds, whose blocks are numbered from zero; each draw is
made of two successive words of the stream. A draw is addressed by its number, so a generator has
no state but the count of its draws.
-/

namespace Descent.Keystream

/-- A block of the stream, or the state from which it is made. -/
abbrev Block := Vector UInt32 16

/-- Rotates a word to the left. -/
def rotateLeft (x : UInt32) (n : UInt32) : UInt32 := (x <<< n) ||| (x >>> (32 - n))

/-- Rotates a word to the right by an amount below 32. -/
def rotateRight (x : UInt32) (n : UInt32) : UInt32 := (x >>> n) ||| (x <<< ((32 - n) % 32))

/-- The next state of the generator that spreads a seed over the key. -/
def nextSeed (s : UInt64) : UInt64 := s * 6364136223846793005 + 11634580027462260723

/-- The key word of a state of that generator. -/
def keyWord (s : UInt64) : UInt32 :=
  rotateRight (((s >>> 18) ^^^ s) >>> 27).toUInt32 (s >>> 59).toUInt32

/-- The first words of the key that belongs to a seed. -/
def keyWords : Nat → UInt64 → List UInt32
  | 0, _ => []
  | n + 1, s => keyWord (nextSeed s) :: keyWords n (nextSeed s)

/-- The key of a seed. -/
def key (seed : UInt64) : List UInt32 := keyWords 8 seed

/-- The state from which a block is made: four constants, the key, and the number of the block. -/
def start (key : List UInt32) (number : Nat) : Block :=
  let word (i : Nat) : UInt32 := key.getD i 0
  #v[0x61707865, 0x3320646e, 0x79622d32, 0x6b206574,
    word 0, word 1, word 2, word 3, word 4, word 5, word 6, word 7,
    UInt32.ofNat number, UInt32.ofNat (number / Nat.pow 2 32), 0, 0]

/-- Stirs four words of a state. -/
def quarter (s : Block) (a b c d : Fin 16) : Block :=
  let a₁ := s[a] + s[b]
  let d₁ := rotateLeft (s[d] ^^^ a₁) 16
  let c₁ := s[c] + d₁
  let b₁ := rotateLeft (s[b] ^^^ c₁) 12
  let a₂ := a₁ + b₁
  let d₂ := rotateLeft (d₁ ^^^ a₂) 8
  let c₂ := c₁ + d₂
  let b₂ := rotateLeft (b₁ ^^^ c₂) 7
  (((s.set a a₂).set b b₂).set c c₂).set d d₂

/-- Two rounds: one down the columns and one along the diagonals. -/
def doubleRound (s : Block) : Block :=
  let s := quarter s 0 4 8 12
  let s := quarter s 1 5 9 13
  let s := quarter s 2 6 10 14
  let s := quarter s 3 7 11 15
  let s := quarter s 0 5 10 15
  let s := quarter s 1 6 11 12
  let s := quarter s 2 7 8 13
  quarter s 3 4 9 14

/-- Repeats the two rounds. -/
def rounds : Nat → Block → Block
  | 0, s => s
  | n + 1, s => rounds n (doubleRound s)

/-- The block of a given number: twelve rounds, and the start added to their outcome. -/
def block (key : List UInt32) (number : Nat) : Block :=
  let s := start key number
  (rounds 6 s).zipWith (· + ·) s

/-- The draw of a given number, as a fraction of `2 ^ 52`: the upper bits of two words, of which
the first is the lower one. -/
def draw (key : List UInt32) (number : Nat) : Nat :=
  let words := (block key (number / 8)).toList
  let low := words.getD (number % 8 * 2) 0
  let high := words.getD (number % 8 * 2 + 1) 0
  (high.toNat * Nat.pow 2 32 + low.toNat) / Nat.pow 2 12

theorem draw_lt (key : List UInt32) (number : Nat) : draw key number < Nat.pow 2 52 := by
  simp only [draw, Nat.pow_eq]
  have hl := ((block key (number / 8)).toList.getD (number % 8 * 2) 0).toNat_lt
  have hh := ((block key (number / 8)).toList.getD (number % 8 * 2 + 1) 0).toNat_lt
  omega

/-- The draws that belong to a seed. -/
def draws (seed : UInt64) : Draws :=
  let key := key seed
  fun number => ⟨draw key number, draw_lt key number⟩

end Descent.Keystream
