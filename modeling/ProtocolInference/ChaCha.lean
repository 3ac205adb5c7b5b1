/-!
A reproducible sequence of coin tosses.

The tosses are the key stream of the ChaCha cipher with eight rounds,
under a key that is expanded from a 64-bit seed. The stream is a function
of the position: toss `i` reads the words `2 * i` and `2 * i + 1` as one
number of 64 bits, the first word being the low one, and comes up if that
number is below half its range, which is for the high word alone to say.
-/

namespace ProtocolInference.ChaCha

/-- Four words of the cipher's state, on which it works at once. -/
structure Row where
  w0 : UInt32
  w1 : UInt32
  w2 : UInt32
  w3 : UInt32

namespace Row

def zipWith (f : UInt32 → UInt32 → UInt32) (r s : Row) : Row :=
  ⟨f r.w0 s.w0, f r.w1 s.w1, f r.w2 s.w2, f r.w3 s.w3⟩

instance : Add Row := ⟨zipWith (· + ·)⟩

instance : XorOp Row := ⟨zipWith (· ^^^ ·)⟩

def rotateLeft (r : Row) (n : UInt32) : Row :=
  let rotate (w : UInt32) := (w <<< n) ||| (w >>> (32 - n))
  ⟨rotate r.w0, rotate r.w1, rotate r.w2, rotate r.w3⟩

/-- Move every word one place to the front, the first one to the end. -/
def shift (r : Row) : Row := ⟨r.w1, r.w2, r.w3, r.w0⟩

def toList (r : Row) : List UInt32 := [r.w0, r.w1, r.w2, r.w3]

end Row

structure State where
  a : Row
  b : Row
  c : Row
  d : Row

namespace State

/-- The round function on all four columns. -/
def mix (s : State) : State :=
  let a := s.a + s.b
  let d := (s.d ^^^ a).rotateLeft 16
  let c := s.c + d
  let b := (s.b ^^^ c).rotateLeft 12
  let a := a + b
  let d := (d ^^^ a).rotateLeft 8
  let c := c + d
  let b := (b ^^^ c).rotateLeft 7
  ⟨a, b, c, d⟩

/-- Bring the diagonals into columns. -/
def diagonalize (s : State) : State := ⟨s.a, s.b.shift, s.c.shift.shift, s.d.shift.shift.shift⟩

def undiagonalize (s : State) : State := ⟨s.a, s.b.shift.shift.shift, s.c.shift.shift, s.d.shift⟩

/-- A round on the columns and one on the diagonals. -/
def doubleRound (s : State) : State := s.mix.diagonalize.mix.undiagonalize

instance : Add State := ⟨fun s t => ⟨s.a + t.a, s.b + t.b, s.c + t.c, s.d + t.d⟩⟩

def toList (s : State) : List UInt32 := s.a.toList ++ s.b.toList ++ s.c.toList ++ s.d.toList

end State

/-- One block of the key stream. -/
def block (key : Row × Row) (number : Nat) : List UInt32 :=
  let counter := UInt64.ofNat number
  let start : State :=
    ⟨⟨0x61707865, 0x3320646e, 0x79622d32, 0x6b206574⟩, key.1, key.2,
      ⟨counter.toUInt32, (counter >>> 32).toUInt32, 0, 0⟩⟩
  (start + start.doubleRound.doubleRound.doubleRound.doubleRound).toList

/-! ### Seeds -/

/-- The step of the generator that expands a seed. -/
def advance (s : UInt64) : UInt64 := s * 6364136223846793005 + 11634580027462260723

/-- The word that the generator puts out in a state. -/
def output (s : UInt64) : UInt32 :=
  let x := (((s >>> 18) ^^^ s) >>> 27).toUInt32
  let n := (s >>> 59).toUInt32
  (x >>> n) ||| (x <<< (32 - n))

/-- The next four words of a key, and the state of the generator after
them. -/
def expandRow (s : UInt64) : Row × UInt64 :=
  let s0 := advance s
  let s1 := advance s0
  let s2 := advance s1
  let s3 := advance s2
  (⟨output s0, output s1, output s2, output s3⟩, s3)

/-- The key for a seed. -/
def expand (seed : UInt64) : Row × Row :=
  let (r, s) := expandRow seed
  (r, (expandRow s).1)

/-- The coin toss at a position, for a seed taken modulo 64 bits. -/
def coin (seed position : Nat) : Bool :=
  let word := 2 * position + 1
  (block (expand (UInt64.ofNat seed)) (word / 16)).getD (word % 16) 0 < 0x80000000

end ProtocolInference.ChaCha
