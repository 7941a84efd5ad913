import LineAsm.Number.Basic

set_option autoImplicit false

/-!
# Random numbers

A generator is a key and the count of numbers drawn so far. The key is expanded from a seed of one
word, or comes from outside. The ChaCha cipher with twelve rounds makes a stream of words of it, and
every number takes two words of the stream: its 53 leading bits are the binary places of a number in
`[0, 1)`.
-/

namespace LineAsm

/-- One row of the four by four matrix that the cipher works on. -/
structure Quad where
  a : UInt32
  b : UInt32
  c : UInt32
  d : UInt32
deriving DecidableEq, Inhabited

namespace Quad

def map (f : UInt32 → UInt32) (q : Quad) : Quad := ⟨f q.a, f q.b, f q.c, f q.d⟩

def zip (f : UInt32 → UInt32 → UInt32) (q r : Quad) : Quad :=
  ⟨f q.a r.a, f q.b r.b, f q.c r.c, f q.d r.d⟩

def turn (q : Quad) : Quad := ⟨q.b, q.c, q.d, q.a⟩

def toList (q : Quad) : List UInt32 := [q.a, q.b, q.c, q.d]

end Quad

structure Block where
  first : Quad
  second : Quad
  third : Quad
  fourth : Quad
deriving DecidableEq, Inhabited

namespace Block

def rotateLeft (k : UInt32) (w : UInt32) : UInt32 := (w <<< k) ||| (w >>> (32 - k))

def mixColumns (m : Block) : Block :=
  let a := m.first.zip (· + ·) m.second
  let d := (m.fourth.zip (· ^^^ ·) a).map (rotateLeft 16)
  let c := m.third.zip (· + ·) d
  let b := (m.second.zip (· ^^^ ·) c).map (rotateLeft 12)
  let a := a.zip (· + ·) b
  let d := (d.zip (· ^^^ ·) a).map (rotateLeft 8)
  let c := c.zip (· + ·) d
  let b := (b.zip (· ^^^ ·) c).map (rotateLeft 7)
  ⟨a, b, c, d⟩

/-- Turns the rows so that the diagonals become columns. -/
def slant (m : Block) : Block :=
  ⟨m.first, m.second.turn, m.third.turn.turn, m.fourth.turn.turn.turn⟩

def straighten (m : Block) : Block :=
  ⟨m.first, m.second.turn.turn.turn, m.third.turn.turn, m.fourth.turn⟩

def doubleRound (m : Block) : Block := m.mixColumns.slant.mixColumns.straighten

def add (m n : Block) : Block :=
  ⟨m.first.zip (· + ·) n.first, m.second.zip (· + ·) n.second, m.third.zip (· + ·) n.third,
    m.fourth.zip (· + ·) n.fourth⟩

/-- Twelve rounds, added to the matrix they started from. -/
def encrypt (m : Block) : Block := (Nat.repeat doubleRound 6 m).add m

def toList (m : Block) : List UInt32 :=
  m.first.toList ++ m.second.toList ++ m.third.toList ++ m.fourth.toList

end Block

/-- The two rows of the matrix that differ from one stream to another. -/
structure Key where
  low : Quad
  high : Quad
deriving DecidableEq, Inhabited

namespace Key

/-- One step of the linear congruence that expands a seed. -/
def nextState (s : UInt64) : UInt64 := s * 6364136223846793005 + 11634580027462260723

/-- The word that a state of the congruence yields: mixed, then turned by its top bits. -/
def permuted (s : UInt64) : UInt32 :=
  let word := (((s >>> 18) ^^^ s) >>> 27).toUInt32
  let turn := (s >>> 59).toUInt32
  (word >>> turn) ||| (word <<< ((32 - turn) % 32))

def words : Nat → UInt64 → List UInt32
  | 0, _ => []
  | n + 1, s => permuted (nextState s) :: words n (nextState s)

/-- The key of eight words. -/
def ofWords (word : Nat → UInt32) : Key :=
  ⟨⟨word 0, word 1, word 2, word 3⟩, ⟨word 4, word 5, word 6, word 7⟩⟩

def ofSeed (seed : UInt64) : Key :=
  let expanded := words 8 seed
  ofWords fun i => expanded.getD i 0

end Key

-- The count comes first. A fresh generator is then told apart from another by it, and the checker
-- need not expand the seed to compare their keys.
structure Generator where
  drawn : Nat
  key : Key
deriving DecidableEq, Inhabited

namespace Generator

def ofKey (key : Key) : Generator := ⟨0, key⟩

def ofSeed (seed : UInt64) : Generator := .ofKey (.ofSeed seed)

def block (key : Key) (number : Nat) : Block :=
  ⟨⟨0x61707865, 0x3320646e, 0x79622d32, 0x6b206574⟩, key.low, key.high,
    ⟨.ofNat (number % twoPow 32), .ofNat (number / twoPow 32), 0, 0⟩⟩

def wordAt (key : Key) (index : Nat) : UInt32 :=
  (block key (index / 16)).encrypt.toList.getD (index % 16) 0

/-- The number that two words make: their 53 leading bits as binary places. -/
def fractionOf (low high : UInt32) : Number :=
  .ofFraction false ((low.toNat + high.toNat * twoPow 32) / twoPow 11) (twoPow 53)

def value (g : Generator) : Number :=
  fractionOf (wordAt g.key (2 * g.drawn)) (wordAt g.key (2 * g.drawn + 1))

def advance (g : Generator) : Generator := { g with drawn := g.drawn + 1 }

end Generator

end LineAsm
