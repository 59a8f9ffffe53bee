import SignalEvolution.Random.Source

/-! # Seeded words

The stream of a seed is the ChaCha stream of twelve rounds under a key that the
seed expands to. Long words take two words of the stream, the low one first.
-/
namespace SignalEvolution

structure ChaChaWords where
  key : Vector UInt32 8
  /-- Number of the next block. -/
  counter : UInt64
  /-- Words of the last block that were not taken yet. -/
  pending : List UInt32

namespace ChaChaWords

abbrev Block := Vector UInt32 16

def rotateLeft (x : UInt32) (n : UInt32) : UInt32 := (x <<< n) ||| (x >>> (32 - n))

def rotateRight (x : UInt32) (n : UInt32) : UInt32 := (x >>> n) ||| (x <<< ((32 - n) % 32))

def quarterRound (v : Block) (i j k l : Fin 16) : Block :=
  let a := v[i] + v[j]
  let d := rotateLeft (v[l] ^^^ a) 16
  let c := v[k] + d
  let b := rotateLeft (v[j] ^^^ c) 12
  let a := a + b
  let d := rotateLeft (d ^^^ a) 8
  let c := c + d
  let b := rotateLeft (b ^^^ c) 7
  (((v.set i a).set j b).set k c).set l d

def doubleRound (v : Block) : Block :=
  let v := quarterRound v 0 4 8 12
  let v := quarterRound v 1 5 9 13
  let v := quarterRound v 2 6 10 14
  let v := quarterRound v 3 7 11 15
  let v := quarterRound v 0 5 10 15
  let v := quarterRound v 1 6 11 12
  let v := quarterRound v 2 7 8 13
  quarterRound v 3 4 9 14

def initial (key : Vector UInt32 8) (counter : UInt64) : Block :=
  #v[0x61707865, 0x3320646e, 0x79622d32, 0x6b206574,
    key[0], key[1], key[2], key[3], key[4], key[5], key[6], key[7],
    counter.toUInt32, (counter >>> 32).toUInt32, 0, 0]

def block (key : Vector UInt32 8) (counter : UInt64) : Block :=
  let start := initial key counter
  let mixed := doubleRound (doubleRound (doubleRound (doubleRound (doubleRound (doubleRound start)))))
  start.zipWith (· + ·) mixed

def next32 (s : ChaChaWords) : UInt32 × ChaChaWords :=
  match s.pending with
  | w :: rest => (w, { s with pending := rest })
  | [] =>
    match (block s.key s.counter).toList with
    | w :: rest => (w, { s with counter := s.counter + 1, pending := rest })
    | [] => (0, s)

def next64 (s : ChaChaWords) : UInt64 × ChaChaWords :=
  let (low, s) := s.next32
  let (high, s) := s.next32
  ((high.toUInt64 <<< 32) ||| low.toUInt64, s)

instance : WordSource ChaChaWords where
  word64 := next64
  word32 := next32

/-- One step of the seed and the key word it gives. -/
def expand (seed : UInt64) : UInt64 × UInt32 :=
  let state := seed * 6364136223846793005 + 11634580027462260723
  let shifted := (((state >>> 18) ^^^ state) >>> 27).toUInt32
  (state, rotateRight shifted (state >>> 59).toUInt32)

def expandAll (seed : UInt64) : Nat → List UInt32
  | 0 => []
  | n + 1 =>
    let (state, word) := expand seed
    word :: expandAll state n

def ofSeed (seed : UInt64) : ChaChaWords :=
  let words := expandAll seed 8
  { key := Vector.ofFn fun i => words.getD i 0, counter := 0, pending := [] }

end ChaChaWords

/-- A stream of either kind. -/
inductive AnyWords where
  | listed (s : ListedWords)
  | seeded (s : ChaChaWords)

namespace AnyWords

instance : WordSource AnyWords where
  word64
    | listed s => let (w, s) := WordSource.word64 s; (w, listed s)
    | seeded s => let (w, s) := WordSource.word64 s; (w, seeded s)
  word32
    | listed s => let (w, s) := WordSource.word32 s; (w, listed s)
    | seeded s => let (w, s) := WordSource.word32 s; (w, seeded s)

end AnyWords
end SignalEvolution
