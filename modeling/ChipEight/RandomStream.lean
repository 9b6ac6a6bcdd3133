import ChipEight.NibbleTable

/-!
# The random stream

Random bytes come from the ChaCha cipher with twelve rounds. Block `c` of the stream of
a key is the cipher's answer to counter `c`, and the stream is the sixteen words of
block zero, then those of block one, and so on. A generator is a key with a position,
so what comes next depends on nothing else. A 64-bit seed is stretched to a key;
without a seed the key is whatever the surroundings supply.
-/

namespace ChipEight

namespace ChaCha

/-- The sixteen words that the cipher works on. -/
abbrev Block := NibbleTable UInt32

/-- What fixes the stream: eight words. -/
abbrev Key := Vector UInt32 8

/-- Rotates a word to the left. -/
def rotateLeft (word : UInt32) (count : UInt32) : UInt32 :=
  word <<< count ||| word >>> (32 - count)

/-- Adds word `b` to word `a`, mixes the sum into word `d` and rotates that. -/
def mix (block : Block) (a b d : Nibble) (count : UInt32) : Block :=
  let block := block.set a (block.get a + block.get b)
  block.set d (rotateLeft (block.get d ^^^ block.get a) count)

/-- The quarter round on the words with the given numbers. -/
def quarterRound (a b c d : Nat) (block : Block) : Block :=
  let block := mix block (.ofNat a) (.ofNat b) (.ofNat d) 16
  let block := mix block (.ofNat c) (.ofNat d) (.ofNat b) 12
  let block := mix block (.ofNat a) (.ofNat b) (.ofNat d) 8
  mix block (.ofNat c) (.ofNat d) (.ofNat b) 7

/-- Two rounds: one on the columns, one on the diagonals. -/
def doubleRound (block : Block) : Block :=
  let columns := quarterRound 3 7 11 15 <| quarterRound 2 6 10 14 <|
    quarterRound 1 5 9 13 <| quarterRound 0 4 8 12 block
  quarterRound 3 4 9 14 <| quarterRound 2 7 8 13 <|
    quarterRound 1 6 11 12 <| quarterRound 0 5 10 15 columns

/-- The block before the rounds: four constants that spell `expand 32-byte k`, the key,
the counter with its low word first, and two zeros. -/
def start (key : Key) (counter : UInt64) : Block := ⟨#v[
  0x61707865, 0x3320646e, 0x79622d32, 0x6b206574,
  key[0], key[1], key[2], key[3], key[4], key[5], key[6], key[7],
  counter.toUInt32, (counter >>> 32).toUInt32, 0, 0]⟩

/-- The block of the key stream for a counter: the start after twelve rounds, plus the
start itself. -/
def block (key : Key) (counter : UInt64) : Block :=
  let first := start key counter
  let mixed := Nat.repeat doubleRound 6 first
  mixed.zipWith (· + ·) first

end ChaCha

/-- A generator of random words. -/
structure RandomStream where
  /-- The key that fixes the stream. -/
  key : ChaCha.Key
  /-- Number of words taken so far. -/
  position : Nat
  deriving DecidableEq

namespace RandomStream

/-- The generator at the beginning of the stream of a key. -/
def ofKey (key : ChaCha.Key) : RandomStream := ⟨key, 0⟩

/-- The linear congruence that stretches a seed. -/
def stretch (state : UInt64) : UInt64 := state * 6364136223846793005 + 11634580027462260723

/-- The word that a state of the congruence gives: two shifted copies combined, then
rotated right by the top bits. -/
def output (state : UInt64) : UInt32 :=
  let word := (((state >>> 18) ^^^ state) >>> 27).toUInt32
  let count := (state >>> 59).toUInt32
  word >>> count ||| word <<< (32 - count)

/-- The key of a seed: the outputs of the eight states that follow it. -/
def keyOfSeed (seed : UInt64) : ChaCha.Key :=
  .ofFn fun k => output (Nat.repeat stretch (k.val + 1) seed)

/-- The generator at the beginning of the stream of a seed. -/
def ofSeed (seed : UInt64) : RandomStream := ofKey (keyOfSeed seed)

/-- The generator to start with: that of the seed, if one is asked for, and else that of
a key which the surroundings supply. -/
def start (seed : Option UInt64) (entropy : ChaCha.Key) : RandomStream :=
  match seed with
  | some seed => ofSeed seed
  | none => ofKey entropy

/-- The word at a position of the stream of a key. -/
def word (key : ChaCha.Key) (position : Nat) : UInt32 :=
  (ChaCha.block key (.ofNat (position / 16))).get (.ofNat position)

/-- Takes one word and uses its low byte. -/
def nextByte (r : RandomStream) : UInt8 × RandomStream :=
  ((word r.key r.position).toUInt8, { r with position := r.position + 1 })

end RandomStream

end ChipEight
