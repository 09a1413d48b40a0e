/-!
The generator behind seeded sampling: ChaCha with twelve rounds, its key expanded from a 64-bit
seed, its words taken in order, block after block.
-/
namespace LazyCast.Random

abbrev Word := UInt32

structure Block where
  words : Array Word

namespace Block

def get (b : Block) (i : Nat) : Word := b.words.getD i 0

def set (b : Block) (i : Nat) (w : Word) : Block := ⟨b.words.setIfInBounds i w⟩

end Block

def rotateLeft (w : Word) (n : Word) : Word := (w <<< n) ||| (w >>> (32 - n))

def rotateRight (w : Word) (n : Word) : Word := if n = 0 then w else (w >>> n) ||| (w <<< (32 - n))

/-- Adds word `j` to word `i` and folds the sum into word `k`. -/
def mix (i j k : Nat) (n : Word) (b : Block) : Block :=
  let sum := b.get i + b.get j
  let b := b.set i sum
  b.set k (rotateLeft (b.get k ^^^ sum) n)

def quarterRound (i j k l : Nat) (b : Block) : Block :=
  mix k l j 7 (mix i j l 8 (mix k l j 12 (mix i j l 16 b)))

/-- Four columns, then four diagonals. -/
def doubleRound (b : Block) : Block :=
  let b := quarterRound 0 4 8 12 b
  let b := quarterRound 1 5 9 13 b
  let b := quarterRound 2 6 10 14 b
  let b := quarterRound 3 7 11 15 b
  let b := quarterRound 0 5 10 15 b
  let b := quarterRound 1 6 11 12 b
  let b := quarterRound 2 7 8 13 b
  quarterRound 3 4 9 14 b

/-- The constants `expand 32-byte k`. -/
def constants : List Word := [0x61707865, 0x3320646e, 0x79622d32, 0x6b206574]

/-- The state before the rounds: constants, key, a 64-bit block counter and two zero words. -/
def start (key : List Word) (counter : Nat) : Block :=
  ⟨(constants ++ key ++
    [UInt32.ofNat counter, UInt32.ofNat (counter / 4294967296), 0, 0]).toArray⟩

def block (key : List Word) (counter : Nat) : List Word :=
  let before := start key counter
  let after := doubleRound (doubleRound (doubleRound (doubleRound (doubleRound (doubleRound before)))))
  (before.words.toList.zip after.words.toList).map fun w => w.1 + w.2

/-- One word of the key from a congruential state, by a rotation that the state chooses. -/
def keyWord (state : UInt64) : Word :=
  rotateRight ((((state >>> 18) ^^^ state) >>> 27).toUInt32) ((state >>> 59).toUInt32)

def advance (state : UInt64) : UInt64 := state * 6364136223846793005 + 11634580027462260723

def keyWords : Nat → UInt64 → List Word
  | 0, _ => []
  | n + 1, state => keyWord (advance state) :: keyWords n (advance state)

def keyOf (seed : UInt64) : List Word := keyWords 8 seed

example : keyOf 7 =
    [0x3b400cc8, 0x096c20d0, 0x6f3ba637, 0x1e254ff2, 0x1b2fbb3c, 0x5a5684b3, 0x1566a09a,
     0x3f201b0d] := by decide

/-- The fifty-three high bits of two words as a fraction of one. -/
def unitFloat (low high : Word) : Float :=
  (((high.toUInt64 <<< 32) ||| low.toUInt64) >>> 11).toFloat * Float.ofBits 0x3CA0000000000000

def pairUp : List Word → List Float
  | low :: high :: rest => unitFloat low high :: pairUp rest
  | _ => []

/-- The first `n` numbers in `[0, 1)` of a seed; a block yields eight of them. -/
def draws (seed : UInt64) (n : Nat) : List Float :=
  let key := keyOf seed
  ((List.range ((n + 7) / 8)).flatMap fun i => pairUp (block key i)).take n

end LazyCast.Random
