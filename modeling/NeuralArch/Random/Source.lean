/-!
# Sources of randomness

Everything random is computed from words. A source gives words of 64 bits or
of 32 bits, each with the source that follows; nothing is assumed of the
words.

* `RandomSource` — what can be drawn from.
* `WordSource` — words from a list, and a fixed sequence when the list is
  used up. A word of 32 bits is the upper half of one of 64.
-/

namespace NeuralArch

/-- What can be drawn from. -/
class RandomSource (σ : Type) where
  /-- The next 64 bits. -/
  nextWord : σ → UInt64 × σ
  /-- The next 32 bits. -/
  nextHalf : σ → UInt32 × σ

/-- Words to be drawn in order, and the state of the sequence behind them. -/
structure WordSource where
  words : List UInt64
  state : UInt64
deriving Repr

namespace WordSource

/-- The source that begins with the given words. -/
def ofWords (words : List UInt64) : WordSource := ⟨words, 0⟩

/-- The step of the sequence that follows the words: the state advances by a constant. -/
def advance (state : UInt64) : UInt64 := state + 0x9E3779B97F4A7C15

/-- The word of a state: its bits mixed. -/
def mix (state : UInt64) : UInt64 :=
  let z := (state ^^^ (state >>> 30)) * 0xBF58476D1CE4E5B9
  let z := (z ^^^ (z >>> 27)) * 0x94D049BB133111EB
  z ^^^ (z >>> 31)

def next (s : WordSource) : UInt64 × WordSource :=
  match s.words with
  | w :: words => (w, { s with words })
  | [] => (mix (advance s.state), { s with state := advance s.state })

instance : RandomSource WordSource where
  nextWord := next
  nextHalf s := let (w, s) := next s; ((w >>> 32).toUInt32, s)

end WordSource

end NeuralArch
