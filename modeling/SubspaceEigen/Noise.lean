import SubspaceEigen.Column

/-!
# Seeded noise

Uniform draws from the unit interval that a 64-bit seed determines.  The seed is expanded into the
key of a stream cipher with twelve rounds; two words of its key stream make one draw of 53 bits.
-/

namespace SubspaceEigen

namespace Noise

def rotateLeft (x : UInt32) (k : UInt32) : UInt32 :=
  (x <<< k) ||| (x >>> (32 - k))

/-- The state of the key expansion after one more step. -/
def expand (s : UInt64) : UInt64 :=
  s * 6364136223846793005 + 11634580027462260723

/-- The key word that a state of the expansion gives. -/
def keyWord (s : UInt64) : UInt32 :=
  let x := (((s >>> 18) ^^^ s) >>> 27).toUInt32
  let k := (s >>> 59).toUInt32
  (x >>> k) ||| (x <<< ((32 - k) % 32))

def keyWords : Nat → UInt64 → List UInt32
  | 0, _ => []
  | count + 1, s => keyWord (expand s) :: keyWords count (expand s)

/-- The words with which every state of the cipher begins. -/
def constants : List UInt32 :=
  [0x61707865, 0x3320646e, 0x79622d32, 0x6b206574]

/-- The words of the cipher's state before the first round: constants, key, and the number of the
block. -/
def initial (seed : UInt64) (block : UInt64) : Vector UInt32 16 :=
  let words := constants ++ keyWords 8 seed ++ [block.toUInt32, (block >>> 32).toUInt32, 0, 0]
  Vector.ofFn fun i => words.getD i.val 0

/-- Mix four words of the state. -/
def quarter (a b c d : Fin 16) (s : Vector UInt32 16) : Vector UInt32 16 :=
  let half := fun (s : Vector UInt32 16) (k l : UInt32) =>
    let s := s.set a (s[a] + s[b])
    let s := s.set d (rotateLeft (s[d] ^^^ s[a]) k)
    let s := s.set c (s[c] + s[d])
    s.set b (rotateLeft (s[b] ^^^ s[c]) l)
  half (half s 16 12) 8 7

/-- One round over the columns of the state and one over its diagonals. -/
def doubleRound (s : Vector UInt32 16) : Vector UInt32 16 :=
  let s := quarter 0 4 8 12 s
  let s := quarter 1 5 9 13 s
  let s := quarter 2 6 10 14 s
  let s := quarter 3 7 11 15 s
  let s := quarter 0 5 10 15 s
  let s := quarter 1 6 11 12 s
  let s := quarter 2 7 8 13 s
  quarter 3 4 9 14 s

def keyStream (seed : UInt64) (block : UInt64) : Vector UInt32 16 :=
  let start := initial seed block
  let mixed := (List.range 6).foldl (fun s _ => doubleRound s) start
  Vector.zipWith (· + ·) mixed start

/-- The draw with a given index, as a number of 53 bits: two words, without their lowest bits. -/
def bits (seed : UInt64) (index : Nat) : Nat :=
  let block := keyStream seed (UInt64.ofNat (index / 8))
  let low := block.toArray.getD (2 * (index % 8)) 0
  let high := block.toArray.getD (2 * (index % 8) + 1) 0
  (((high.toUInt64 <<< 32) ||| low.toUInt64) >>> 11).toNat

variable {α : Type} [Scalar α]

/-- The draw with a given index, in units of `2⁻⁵³`: at least zero and less than one. -/
def draw (seed : UInt64) (index : Nat) : α :=
  (bits seed index : α) / ((9007199254740992 : Nat) : α)

/-- Add noise between `−amplitude` and `amplitude` to every entry; draws are taken column by
column. -/
def perturb {n : Nat} (amplitude : α) (draws : Nat → α) (v : Columns α n) : Columns α n :=
  v.mapIdx fun j x => x.mapIdx fun i p =>
    p + amplitude * ((1 + 1) * draws (j * n + i) - 1)

end Noise

end SubspaceEigen
