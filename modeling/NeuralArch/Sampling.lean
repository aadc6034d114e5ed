import NeuralArch.Number.FloatText
import NeuralArch.Random.Draw
import Std.Data.ExtTreeMap

/-!
# Sampled values

Where a generated description needs a number, a sampler draws one and writes
it. Samplers are looked up by name, without regard to case: first the one of
the parameter that is being written, then the one of the placeholder, and
last a general one for integers or for floats.

* `Sampler.sample` — the text of a drawn value.
* `SamplingTable.sampler` — which sampler serves a placeholder.
* `SamplingTable.standard` — the samplers of the built-in grammar.
-/

namespace NeuralArch

open Number

/-- How a value is drawn and written. -/
inductive Sampler
  /-- One of some integers. -/
  | choice (values : List Int64)
  /-- A float from `min` to `max`, written with some decimals. -/
  | uniform (min max : Float) (decimals : Nat)
  /-- One of some floats, written with one digit and a power of ten. -/
  | scientific (values : List Float)
  /-- An integer from `min` to `max`. -/
  | intRange (min max : Int64)
deriving DecidableEq, Repr

namespace Sampler

variable {σ : Type} [RandomSource σ]

/-- The text of an integer. -/
def intText (i : Int64) : String := toString i.toInt

/-- Draws a value and writes it. A choice among nothing has a text of its own, and a float has
at least one decimal, so that it stays a float. -/
def sample (patience : Nat) : Sampler → Draw σ String
  | choice values => do
    let v ← Draw.choose patience values
    return (v.map intText).getD "1"
  | uniform min max decimals => do
    let x ← Draw.float min max
    return fixed (Nat.max decimals 1) x
  | scientific values => do
    let x ← Draw.choose patience values
    return (x.map oneDigit).getD "1e-3"
  | intRange min max => do
    let i ← Draw.integer patience min max
    return intText i

end Sampler

/-- Samplers by name, in upper case, and two for what has no sampler of its own. -/
structure SamplingTable where
  samplers : Std.ExtTreeMap String Sampler
  intFallback : Sampler
  floatFallback : Sampler

namespace SamplingTable

/-- The samplers of the built-in grammar. Integers of no parameter are items of dilation
lists. -/
def standardSamplers : List (String × Sampler) :=
  [("UNITS", .choice [16, 32, 64, 128, 256, 512]),
   ("FILTERS", .choice [16, 32, 64, 128]),
   ("FEATURES", .choice [10, 20, 50, 100]),
   ("SEQUENCE_LENGTH", .choice [30, 50, 100, 200]),
   ("HEADS", .choice [1, 2, 4, 8]),
   ("KERNEL_SIZE", .choice [3, 5, 7, 9]),
   ("STRIDES", .choice [1, 2]),
   ("POOL_SIZE", .choice [2, 3, 4]),
   ("DILATION_RATE", .choice [1, 2, 4, 8]),
   ("AXIS", .choice [-1, 1]),
   ("INT", .choice [1, 2, 4, 8]),
   ("DROPOUT", .uniform 0.1 0.5 3),
   ("RECURRENT_DROPOUT", .uniform 0.1 0.5 3),
   ("L1", .scientific [1e-2, 1e-3, 1e-4]),
   ("L2", .scientific [1e-2, 1e-3, 1e-4]),
   ("LEAK_RATE", .uniform 0.1 0.3 2),
   ("SPECTRAL_RADIUS", .uniform 0.9 0.99 2),
   ("INPUT_SCALING", .uniform 0.5 1.5 2),
   ("MOMENTUM", .uniform 0.9 0.99 2),
   ("EPSILON", .scientific [1e-3, 1e-5, 1e-7])]

/-- The table with nothing but the general samplers. -/
def empty : SamplingTable where
  samplers := ∅
  intFallback := .intRange 8 256
  floatFallback := .uniform 0.01 0.5 4

/-- The table of the built-in grammar. -/
def standard : SamplingTable :=
  { empty with samplers := Std.ExtTreeMap.ofList standardSamplers }

instance : Inhabited SamplingTable := ⟨standard⟩

/-- Gives a name a sampler. -/
def insert (t : SamplingTable) (name : String) (s : Sampler) : SamplingTable :=
  { t with samplers := t.samplers.insert name.toUpper s }

/-- The sampler of a name. -/
def get? (t : SamplingTable) (name : String) : Option Sampler := t.samplers[name.toUpper]?

/-- The sampler that serves a placeholder inside a parameter, or outside of any. -/
def sampler (t : SamplingTable) (placeholder : String) (param : Option String) : Sampler :=
  ((param.bind t.get?).or (t.get? placeholder)).getD
    (if placeholder.toUpper = "FLOAT" then t.floatFallback else t.intFallback)

/-- Draws a value for a placeholder and writes it. -/
def sample {σ : Type} [RandomSource σ] (t : SamplingTable) (patience : Nat) (placeholder : String)
    (param : Option String) : Draw σ String :=
  (t.sampler placeholder param).sample patience

end SamplingTable

end NeuralArch
