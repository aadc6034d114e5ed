import NeuralArch.Random.Outcome
import NeuralArch.Random.Source

/-!
# Draws

What is drawn from a source of words: numbers below a bound, members of a
list, chances, numbers of a range, distinct indices.

A number below `n` is drawn by rejection: the word times `n`, cut at the width
of the word, is accepted if its lower part is in a zone that makes all numbers
equally likely. A source may offer nothing acceptable for ever, so the number
of offers looked at is bounded by a `patience`.

Distinct indices are drawn as from lists of fewer than 4500 members. For longer
ones there are further ways, which are left out: fifty or more indices that were
taken one by one are shuffled at the end, 163 or more out of at least 270 times
as many are drawn by rejection, and from half a million members on the choice
between the ways is another. The indices are distinct and in range all the same,
but the source is left elsewhere.

* `below` — a number below a bound; `accept?_lt` says that it is.
* `choose` — a member of a list, or nothing of none.
* `chance` — whether an event of some probability happens.
* `integer`, `float` — a number of a range, the ends included.
* `indices` — distinct indices of a list.
-/

namespace NeuralArch

/-- A computation that draws from a source. -/
abbrev Draw (σ : Type) := StateT σ Outcome

namespace Draw

variable {σ : Type} [RandomSource σ]

/-- Stops at a fault. -/
def fail {α : Type} (f : Fault) : Draw σ α := fun _ => .fault f

/-! ## Numbers below a bound -/

/-- How many bits a draw takes. -/
inductive Width
  | half | word
deriving DecidableEq, Repr

def Width.bits : Width → Nat
  | half => 32
  | word => 64

/-- How many words of a width there are: two to the number of bits. -/
def Width.size : Width → Nat
  | half => 0x100000000
  | word => 0x10000000000000000

theorem Width.size_pos (w : Width) : 0 < w.size := by cases w <;> decide

/-- The next bits of the source, as a number. -/
def raw : Width → Draw σ Nat
  | .half => fun s => let (w, s) := RandomSource.nextHalf s; .done (w.toNat, s)
  | .word => fun s => let (w, s) := RandomSource.nextWord s; .done (w.toNat, s)

/-- The greatest acceptable lower part: `n` shifted to the full width, less one. -/
def zone (w : Width) (n : Nat) : Nat := (n <<< (w.bits - (n.log2 + 1))) - 1

/-- The number below `n` that a word stands for, if it is accepted. -/
def accept? (w : Width) (n word : Nat) : Option Nat :=
  if word * n % w.size ≤ zone w n then some (word * n / w.size) else none

theorem accept?_lt {w : Width} {n word k : Nat} (hn : 0 < n) (hw : word < w.size)
    (h : accept? w n word = some k) : k < n := by
  unfold accept? at h
  split at h
  · simp only [Option.some.injEq] at h
    subst h
    rw [Nat.div_lt_iff_lt_mul w.size_pos, Nat.mul_comm]
    exact Nat.mul_lt_mul_of_pos_left hw hn
  · simp at h

/-- The first accepted number among as many offers as patience allows. -/
def offer (w : Width) (n : Nat) : Nat → Draw σ Nat
  | 0 => fun _ => .undrawn
  | patience + 1 => do
    let word ← raw w
    match accept? w n word with
    | some k => return k
    | none => offer w n patience

/-- A number below `n`. -/
def below (patience : Nat) (w : Width) (n : Nat) : Draw σ Nat :=
  if n = 0 then fail .emptyRange else offer w n patience

/-! ## Members, chances and ranges -/

/-- A member of a list. Of an empty list nothing is drawn. -/
def choose {α : Type} (patience : Nat) (xs : List α) : Draw σ (Option α) :=
  if xs.isEmpty then return none
  else do
    let i ← below patience .half xs.length
    return xs[i]?

/-- Whether an event of probability `p` happens. Certainty is not drawn. -/
def chance (p : Float) : Draw σ Bool :=
  if p == 1 then return true
  else if 0 ≤ p && p < 1 then do
    let word ← raw .word
    return word < (p * 0x10000000000000000).toUInt64.toNat
  else fail .notAProbability

/-- An integer from `min` to `max`; `min` if the range holds no other. -/
def integer (patience : Nat) (min max : Int64) : Draw σ Int64 :=
  if min < max then
    let size := (max.toInt - min.toInt + 1).toNat
    if size = Width.size .word then do
      let word ← raw .word
      return Int64.ofNat word
    else do
      let k ← below patience .word size
      return Int64.ofInt (min.toInt + k)
  else return min

/-- The greatest number that 52 random bits behind the point make. -/
def greatestFraction : Float := 1 - 1 / 0x10000000000000

/-- The greatest scale, from that of the given bits downward, that keeps the range below
`max`. -/
def fitScale (min max : Float) : Nat → Float
  | 0 => 0
  | n + 1 =>
    let scale := Float.ofBits (UInt64.ofNat (n + 1))
    if max < scale * greatestFraction + min then fitScale min max n else scale

/-- A float from `min` to `max`; `min` if the range holds no other. -/
def float (min max : Float) : Draw σ Float :=
  if min < max then
    let scale := (max - min) / greatestFraction
    if scale.isFinite then do
      let word ← raw .word
      let fraction := Float.ofNat (word >>> 12) / 0x10000000000000
      return fraction * fitScale min max scale.toBits.toNat + min
    else fail .infiniteRange
  else return min

/-! ## Distinct indices -/

/-- A list with two of its members exchanged. -/
def swap (xs : List Nat) (i j : Nat) : List Nat :=
  match xs[i]?, xs[j]? with
  | some a, some b => (xs.set i b).set j a
  | _, _ => xs

/-- Distinct indices by exchanging: each of the first places gets a member from there on. -/
def indicesBySwap (patience length amount : Nat) : Draw σ (List Nat) := do
  let xs ← (List.range amount).foldlM
    (fun xs i => do
      let j ← below patience .half (length - i)
      return swap xs i (i + j))
    (List.range length)
  return xs.take amount

/-- Distinct indices one by one: each is drawn below a growing bound, and the bound itself is
taken in place of an index that is taken already. -/
def indicesByBound (patience length amount : Nat) : Draw σ (List Nat) :=
  (List.range' (length - amount) amount).foldlM
    (fun taken bound => do
      let i ← below patience .half (bound + 1)
      return taken ++ [if taken.contains i then bound else i])
    []

/-- Whether exchanging is the better way: when the indices are many and dense. -/
def prefersSwap (length amount : Nat) : Bool :=
  if amount < 163 then 11 < amount && 5 * length < (50 + 8 * amount) * amount
  else length < 270 * amount

/-- Distinct indices below `length`. -/
def indices (patience length amount : Nat) : Draw σ (List Nat) :=
  if length < amount then fail .tooManyIndices
  else if prefersSwap length amount then indicesBySwap patience length amount
  else indicesByBound patience length amount

end Draw

end NeuralArch
