/-
The Keccak sponge: SHA3-256, SHA3-512, SHAKE128 and SHAKE256.

A state is 25 lanes of 64 bits, lane (x, y) at index x + 5y. A message is padded to whole blocks of the rate, each
block is added to the state before a permutation, and output is read from the state a block at a time. The padding
begins with a suffix that tells the functions of fixed length from those of any length.
-/
import PostQuantum.Bytes

namespace PostQuantum.Keccak

abbrev State := Vector UInt64 25

/-- the bits of `x` moved up by `n`, those that leave at the top coming back at the bottom -/
def rotate (x : UInt64) (n : UInt64) : UInt64 :=
  (x <<< n) ||| (x >>> (64 - n))

def rotations : Vector UInt64 25 :=
  #v[0, 1, 62, 28, 27,
    36, 44, 6, 55, 20,
    3, 10, 43, 25, 39,
    41, 45, 15, 21, 8,
    18, 2, 61, 56, 14]

def roundConstants : List UInt64 :=
  [0x0000000000000001, 0x0000000000008082, 0x800000000000808a, 0x8000000080008000,
    0x000000000000808b, 0x0000000080000001, 0x8000000080008081, 0x8000000000008009,
    0x000000000000008a, 0x0000000000000088, 0x0000000080008009, 0x000000008000000a,
    0x000000008000808b, 0x800000000000008b, 0x8000000000008089, 0x8000000000008003,
    0x8000000000008002, 0x8000000000000080, 0x000000000000800a, 0x800000008000000a,
    0x8000000080008081, 0x8000000000008080, 0x0000000080000001, 0x8000000080008008]

/-- each lane plus the parities of the column before it and of the turned column after it -/
def theta (s : State) : State :=
  let parity : Vector UInt64 5 := Vector.ofFn fun x =>
    s[x.val] ^^^ s[x.val + 5] ^^^ s[x.val + 10] ^^^ s[x.val + 15] ^^^ s[x.val + 20]
  let change : Vector UInt64 5 := Vector.ofFn fun x => parity[(x.val + 4) % 5] ^^^ rotate parity[(x.val + 1) % 5] 1
  Vector.ofFn fun i => s.get i ^^^ change[i.val % 5]

/-- every lane turned by its own amount and moved to its new place -/
def rhoPi (s : State) : State :=
  Vector.ofFn fun i =>
    let source := (i.val % 5 + 3 * (i.val / 5)) % 5 + 5 * (i.val % 5)
    rotate s[source] rotations[source]

/-- each lane plus the product of its two neighbours in the row, the first of them negated -/
def chi (s : State) : State :=
  Vector.ofFn fun i =>
    let row := 5 * (i.val / 5)
    s.get i ^^^ (~~~s[row + (i.val + 1) % 5] &&& s[row + (i.val + 2) % 5])

def round (s : State) (constant : UInt64) : State :=
  let s := chi (rhoPi (theta s))
  s.set 0 (s[0] ^^^ constant)

def permute (s : State) : State :=
  roundConstants.foldl round s

/-- the lane that eight bytes spell, the first byte lowest -/
def lane (bytes : Array UInt8) (start : Nat) : UInt64 :=
  (List.range 8).foldr (fun i acc => (bytes.getD (start + i) 0).toUInt64 ||| (acc <<< 8)) 0

/-- the block of `rate` bytes at `start` added to the first lanes, then a permutation -/
def absorbBlock (rate : Nat) (bytes : Array UInt8) (s : State) (start : Nat) : State :=
  permute (Vector.ofFn fun i => if i.val < rate / 8 then s.get i ^^^ lane bytes (start + 8 * i.val) else s.get i)

/-- what follows a message of `length` bytes: the suffix, zeros, and the last bit of the block -/
def padding (rate : Nat) (suffix : UInt8) (length : Nat) : List UInt8 :=
  let room := rate - length % rate
  if room = 1 then [suffix ||| 0x80] else suffix :: (List.replicate (room - 2) 0 ++ [0x80])

/-- the state after a whole message -/
def absorb (rate : Nat) (suffix : UInt8) (message : List UInt8) : State :=
  let padded := (message ++ padding rate suffix message.length).toArray
  (List.range (padded.size / rate)).foldl (fun s b => absorbBlock rate padded s (b * rate)) (Vector.replicate 25 0)

/-- the `rate` bytes that can be read from a state -/
def blockBytes (rate : Nat) (s : State) : List UInt8 :=
  (s.toList.take (rate / 8)).flatMap fun x => (List.range 8).map fun i => (x >>> (8 * UInt64.ofNat i)).toUInt8

/-- one block of output, and `more` further ones -/
def squeezeBlocks (rate : Nat) (s : State) (more : Nat) : List UInt8 :=
  blockBytes rate s ++
    match more with
    | 0 => []
    | more + 1 => squeezeBlocks rate (permute s) more

/-- the first `n` bytes of output -/
def squeeze (rate n : Nat) (s : State) : Bytes n :=
  Bytes.fit n (squeezeBlocks rate s ((n - 1) / rate))

def sha3Suffix : UInt8 := 0x06

def shakeSuffix : UInt8 := 0x1f

/-- the bytes in a block of SHAKE128 -/
def shake128Rate : Nat := 168

def sha3_256 (message : List UInt8) : Bytes 32 :=
  squeeze 136 32 (absorb 136 sha3Suffix message)

def sha3_512 (message : List UInt8) : Bytes 64 :=
  squeeze 72 64 (absorb 72 sha3Suffix message)

def shake256 (n : Nat) (message : List UInt8) : Bytes n :=
  squeeze 136 n (absorb 136 shakeSuffix message)

/-- block `i` of the output of SHAKE128, from the state after the message -/
def shake128Block (s : State) (i : Nat) : Bytes 168 :=
  Bytes.fit 168 (blockBytes shake128Rate (Nat.repeat permute i s))

end PostQuantum.Keccak
