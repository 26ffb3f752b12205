/-!
The MD5 message digest: the message is padded to whole blocks of sixteen
little-endian words, and each block is mixed into a state of four words by
sixty-four steps in four rounds.
-/

namespace ShapeLedger.Md5

/-- The four chaining words. -/
structure State where
  a : UInt32
  b : UInt32
  c : UInt32
  d : UInt32
deriving DecidableEq

/-- The state before the first block. -/
def State.start : State := ⟨0x67452301, 0xefcdab89, 0x98badcfe, 0x10325476⟩

def State.add (s t : State) : State := ⟨s.a + t.a, s.b + t.b, s.c + t.c, s.d + t.d⟩

/-- The additive constant of each step: the integer part of `2³²·|sin i|` for
`i = 1, …, 64`. -/
def sines : Array UInt32 := #[
  0xd76aa478, 0xe8c7b756, 0x242070db, 0xc1bdceee, 0xf57c0faf, 0x4787c62a, 0xa8304613, 0xfd469501,
  0x698098d8, 0x8b44f7af, 0xffff5bb1, 0x895cd7be, 0x6b901122, 0xfd987193, 0xa679438e, 0x49b40821,
  0xf61e2562, 0xc040b340, 0x265e5a51, 0xe9b6c7aa, 0xd62f105d, 0x02441453, 0xd8a1e681, 0xe7d3fbc8,
  0x21e1cde6, 0xc33707d6, 0xf4d50d87, 0x455a14ed, 0xa9e3e905, 0xfcefa3f8, 0x676f02d9, 0x8d2a4c8a,
  0xfffa3942, 0x8771f681, 0x6d9d6122, 0xfde5380c, 0xa4beea44, 0x4bdecfa9, 0xf6bb4b60, 0xbebfbc70,
  0x289b7ec6, 0xeaa127fa, 0xd4ef3085, 0x04881d05, 0xd9d4d039, 0xe6db99e5, 0x1fa27cf8, 0xc4ac5665,
  0xf4292244, 0x432aff97, 0xab9423a7, 0xfc93a039, 0x655b59c3, 0x8f0ccc92, 0xffeff47d, 0x85845dd1,
  0x6fa87e4f, 0xfe2ce6e0, 0xa3014314, 0x4e0811a1, 0xf7537e82, 0xbd3af235, 0x2ad7d2bb, 0xeb86d391]

/-- The rotations of a round, taken in turn by its steps. -/
def rotations : Array (Array UInt32) :=
  #[#[7, 12, 17, 22], #[5, 9, 14, 20], #[4, 11, 16, 23], #[6, 10, 15, 21]]

def rotateLeft (x n : UInt32) : UInt32 := (x <<< n) ||| (x >>> (32 - n))

/-- The mixing function of step `i` and the index of the word that it adds. -/
def mixing (i : Nat) (b c d : UInt32) : UInt32 × Nat :=
  match i / 16 with
  | 0 => ((b &&& c) ||| (~~~b &&& d), i)
  | 1 => ((d &&& b) ||| (~~~d &&& c), (5 * i + 1) % 16)
  | 2 => (b ^^^ c ^^^ d, (3 * i + 5) % 16)
  | _ => (c ^^^ (b ||| ~~~d), 7 * i % 16)

def step (block : Array UInt32) (s : State) (i : Nat) : State :=
  let (f, g) := mixing i s.b s.c s.d
  let sum := f + s.a + sines.getD i 0 + block.getD g 0
  ⟨s.d, s.b + rotateLeft sum ((rotations.getD (i / 16) #[]).getD (i % 4) 0), s.b, s.c⟩

/-- Mixes one block of sixteen words into the state. -/
def absorb (s : State) (block : Array UInt32) : State :=
  s.add ((List.range 64).foldl (step block) s)

/-- The low bytes of `x`, the lowest first. -/
def littleEndian (x : Nat) : Nat → List UInt8
  | 0 => []
  | n + 1 => UInt8.ofNat x :: littleEndian (x / 256) n

/-- What follows a message of `n` bytes: a one bit, zeros up to eight bytes
short of a whole block, and the length in bits. -/
def padding (n : Nat) : List UInt8 :=
  0x80 :: (List.replicate ((119 - n % 64) % 64) 0 ++ littleEndian (8 * n) 8)

/-- The little-endian words of a list of bytes. -/
def words : List UInt8 → List UInt32
  | p :: q :: r :: s :: rest =>
    (p.toUInt32 ||| (q.toUInt32 <<< 8) ||| (r.toUInt32 <<< 16) ||| (s.toUInt32 <<< 24)) ::
      words rest
  | _ => []

/-- The blocks of sixteen words. -/
def blocks : List UInt32 → List (Array UInt32)
  | [] => []
  | w :: ws => (w :: ws.take 15).toArray :: blocks (ws.drop 15)
termination_by ws => ws.length
decreasing_by simp only [List.length_drop, List.length_cons]; omega

/-- The state after the whole padded message. -/
def run (message : List UInt8) : State :=
  (blocks (words (message ++ padding message.length))).foldl absorb State.start

def State.bytes (s : State) : List UInt8 :=
  [s.a, s.b, s.c, s.d].flatMap fun w => littleEndian w.toNat 4

theorem length_littleEndian (x n : Nat) : (littleEndian x n).length = n := by
  induction n generalizing x with
  | zero => rfl
  | succ n ih => simp [littleEndian, ih]

theorem State.length_bytes (s : State) : s.bytes.length = 16 := by
  simp [State.bytes, length_littleEndian]

end ShapeLedger.Md5
