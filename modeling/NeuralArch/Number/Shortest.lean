import NeuralArch.Number.Binary

/-!
# The fewest digits that read back

The real numbers that round to a float form an interval around it. This
module picks a decimal from the interval: one with as few digits as possible,
and among those the nearest to the float. Two can be equally near; then the
`Tie` decides.

The interval's ends are halfway to the neighbouring floats, and belong to it
exactly when the mantissa is even. Below a power of two the neighbour is half
as far away as above it. The search goes through the decimal grids from the
coarsest; the first that has a point in the interval has it next to the float,
so two candidates a grid suffice.

* `Interval.contains` — whether `d · 10 ^ k` rounds to the float.
* `Interval.onGrid?` — the nearest multiple of `10 ^ k` in the interval;
  `contains_of_onGrid?` says that it lies there.
* `shortest` — the decimal, as a significand and a power of ten.
-/

namespace NeuralArch.Number

/-- Which of two equally near decimals is taken. -/
inductive Tie
  /-- The larger one. -/
  | up
  /-- The one with the even last digit. -/
  | even
deriving DecidableEq, Repr

/-- The numbers that round to a float: from `low` to `high` around `middle`, all three
multiplied by `2 ^ exponent`. -/
structure Interval where
  low : Nat
  middle : Nat
  high : Nat
  exponent : Int
  /-- Whether the ends belong to the interval. -/
  closed : Bool
deriving Repr

namespace Interval

/-- The interval of a nonzero magnitude, in quarters of its last place. -/
def of (m : Magnitude) : Interval :=
  let narrow := m.mantissa = fractionCount ∧ leastExponent < m.exponent
  { low := 4 * m.mantissa - if narrow then 1 else 2
    middle := 4 * m.mantissa
    high := 4 * m.mantissa + 2
    exponent := m.exponent - 2
    closed := m.mantissa % 2 = 0 }

/-- Whether `d · 10 ^ k` lies in the interval. -/
def contains (i : Interval) (d : Nat) (k : Int) : Bool :=
  let (low, den) := Magnitude.inUnits ⟨i.low, i.exponent⟩ k
  let (high, _) := Magnitude.inUnits ⟨i.high, i.exponent⟩ k
  if i.closed then low ≤ d * den && d * den ≤ high else low < d * den && d * den < high

/-- The nearest multiple of `10 ^ k` to the middle that lies in the interval, if one does:
it is one of the middle's two neighbours on that grid. -/
def onGrid? (tie : Tie) (i : Interval) (k : Int) : Option Nat :=
  let (num, den) := Magnitude.inUnits ⟨i.middle, i.exponent⟩ k
  let below := num / den
  let excess := 2 * (num % den)
  match i.contains below k, i.contains (below + 1) k with
  | false, false => none
  | true, false => some below
  | false, true => some (below + 1)
  | true, true =>
    if excess < den then some below
    else if den < excess then some (below + 1)
    else match tie with
      | .up => some (below + 1)
      | .even => some (if below % 2 = 0 then below else below + 1)

/-- What the grid offers rounds to the float. -/
theorem contains_of_onGrid? {tie : Tie} {i : Interval} {k : Int} {d : Nat}
    (h : i.onGrid? tie k = some d) : i.contains d k = true := by
  unfold onGrid? at h
  dsimp only at h
  split at h
  · simp at h
  · next h1 _ => simp_all
  · next _ h2 => simp_all
  · next h1 h2 =>
    split at h
    · simp_all
    · split at h
      · simp_all
      · split at h
        · simp_all
        · split at h <;> simp_all

/-- The first grid from `10 ^ (n - 1075)` downward that has a point in the interval, with
that point. Every float lies on the grid `10 ^ (-1074)`. -/
def coarsest (tie : Tie) (i : Interval) : Nat → Nat × Int
  | 0 =>
    let (num, den) := Magnitude.inUnits ⟨i.middle, i.exponent⟩ leastExponent
    (num / den, leastExponent)
  | n + 1 =>
    match i.onGrid? tie (n + leastExponent) with
    | some d => (d, n + leastExponent)
    | none => coarsest tie i n

end Interval

/-- The shortest decimal that rounds to a magnitude, as a significand and a power of ten. -/
def shortest (tie : Tie) (m : Magnitude) : Nat × Int :=
  if m.mantissa = 0 then (0, 0) else (Interval.of m).coarsest tie 1384

end NeuralArch.Number
