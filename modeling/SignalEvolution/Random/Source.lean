/-! # Sources of random words

All chance in this library comes from a stream of words. A source hands out the
next word of 64 or of 32 bits together with what is left of the stream.
-/
namespace SignalEvolution

class WordSource (σ : Type) where
  word64 : σ → UInt64 × σ
  word32 : σ → UInt32 × σ

/-- A computation that takes its chances from a source. -/
abbrev Draw (σ α : Type) := StateM σ α

/-- A draw that may break off, with nothing to show for the words it took. -/
abbrev PartialDraw (σ α : Type) := StateT σ Option α

/-- A draw among those that may break off; this one does not. -/
@[inline] def Draw.sure {σ α : Type} (d : Draw σ α) : PartialDraw σ α := fun words => some (d.run words)

structure ListedWords where
  listed : List UInt64
  state : UInt64 := 0

namespace ListedWords

def splitMix (state : UInt64) : UInt64 :=
  let z := (state ^^^ (state >>> 30)) * 0xBF58476D1CE4E5B9
  let z := (z ^^^ (z >>> 27)) * 0x94D049BB133111EB
  z ^^^ (z >>> 31)

def next (s : ListedWords) : UInt64 × ListedWords :=
  match s.listed with
  | w :: rest => (w, { s with listed := rest })
  | [] =>
    let state := s.state + 0x9E3779B97F4A7C15
    (splitMix state, { s with state })

instance : WordSource ListedWords where
  word64 := next
  word32 s := let (w, rest) := s.next; (w.toUInt32, rest)

end ListedWords
end SignalEvolution
