/-! # The SHA-1 digest

The message is padded to blocks of sixteen words; each block is expanded to eighty words, which a
state of five words absorbs in eighty rounds. -/

namespace ProjectGraph.Sha1

/-- The five words of the state. -/
structure State where
  a : UInt32
  b : UInt32
  c : UInt32
  d : UInt32
  e : UInt32
  deriving DecidableEq, Repr

def initial : State := ⟨0x67452301, 0xefcdab89, 0x98badcfe, 0x10325476, 0xc3d2e1f0⟩

/-- Rotation to the left, for `0 < n < 32`. -/
def rotate (n x : UInt32) : UInt32 := (x <<< n) ||| (x >>> (32 - n))

/-- The `width` lowest bytes of `n`, most significant first. -/
def bigEndian : (width n : Nat) → List UInt8
  | 0, _ => []
  | width + 1, n => bigEndian width (n / 256) ++ [UInt8.ofNat n]

/-- The message, a one bit, as few zeros as fill the last block, and the length in bits. -/
def pad (message : List UInt8) : List UInt8 :=
  let zeros := (119 - message.length % 64) % 64
  message ++ 0x80 :: List.replicate zeros 0 ++ bigEndian 8 (8 * message.length)

/-- Four bytes to a word, most significant first. -/
def words : List UInt8 → List UInt32
  | p :: q :: r :: s :: rest =>
    (p.toUInt32 <<< 24 ||| q.toUInt32 <<< 16 ||| r.toUInt32 <<< 8 ||| s.toUInt32) :: words rest
  | _ => []

/-- `count` further words of the schedule, after the sixteen last ones, latest first. -/
def extendSchedule : (count : Nat) → List UInt32 → List UInt32
  | 0, _ => []
  | count + 1, recent =>
    let w := rotate 1 (recent.getD 2 0 ^^^ recent.getD 7 0 ^^^ recent.getD 13 0 ^^^ recent.getD 15 0)
    w :: extendSchedule count (w :: recent.take 15)

/-- The round function and constant of round `i`. -/
def mix (i : Nat) (s : State) : UInt32 :=
  if i < 20 then ((s.b &&& s.c) ||| (~~~s.b &&& s.d)) + 0x5a827999
  else if i < 40 then (s.b ^^^ s.c ^^^ s.d) + 0x6ed9eba1
  else if i < 60 then ((s.b &&& s.c) ||| (s.b &&& s.d) ||| (s.c &&& s.d)) + 0x8f1bbcdc
  else (s.b ^^^ s.c ^^^ s.d) + 0xca62c1d6

def round (i : Nat) (w : UInt32) (s : State) : State :=
  ⟨rotate 5 s.a + mix i s + s.e + w, s.a, rotate 30 s.b, s.c, s.d⟩

/-- The rounds from round `i` on, one for each word. -/
def rounds : (i : Nat) → List UInt32 → State → State
  | _, [], s => s
  | i, w :: ws, s => rounds (i + 1) ws (round i w s)

/-- Absorbs one block of sixteen words. -/
def absorb (s : State) (block : List UInt32) : State :=
  let r := rounds 0 (block ++ extendSchedule 64 block.reverse) s
  ⟨s.a + r.a, s.b + r.b, s.c + r.c, s.d + r.d, s.e + r.e⟩

/-- Absorbs `count` blocks. -/
def absorbAll : (count : Nat) → List UInt32 → State → State
  | 0, _, s => s
  | count + 1, ws, s => absorbAll count (ws.drop 16) (absorb s (ws.take 16))

/-- The twenty bytes of the digest. -/
def digest (message : List UInt8) : List UInt8 :=
  let ws := words (pad message)
  let s := absorbAll (ws.length / 16) ws initial
  [s.a, s.b, s.c, s.d, s.e].flatMap fun w => bigEndian 4 w.toNat

end ProjectGraph.Sha1
