import NeuralArch.Generator.Config
import NeuralArch.Grammar.Standard
import NeuralArch.Number.Read
import NeuralArch.Rules
import NeuralArch.Sampling

/-!
# Generators

A generator is a grammar with what guides its expansion: a configuration, a
table of samplers, and a rule table, from which it learns what parameters a
layer type admits.

A depth of self-recursion is a 64-bit word. Behind the last word there is no
depth: a program that is built with checks faults there, and one that is built
without goes on at zero. What is known of a generator has to hold of both
builds, so the build is a part of it.

* `Generator.next?` — the depth one level below another.
-/

namespace NeuralArch

/-- What a build does where a depth would pass the last word. -/
inductive Generator.Overflow
  | faults
  | wraps
deriving DecidableEq, Repr

/-- A grammar with what guides its expansion. -/
structure Generator where
  grammar : Grammar
  config : Generator.Config
  sampling : SamplingTable
  rules : RuleTable
  overflow : Generator.Overflow := .faults

namespace Generator

/-- The generator of a grammar with standard guides. -/
def ofGrammar (grammar : Grammar) : Generator where
  grammar := grammar
  config := Config.standard
  sampling := SamplingTable.standard
  rules := RuleTable.standard

/-- The generator of architecture descriptions. -/
def standard : Generator := ofGrammar Grammar.standard

/-- How deep self-recursion goes, where nothing else is said. -/
def defaultMaxDepth : UInt64 := 15

/-- The depth one level below another, if there is one. -/
def next? (g : Generator) (depth : Nat) : Option Nat :=
  if depth + 1 < Number.wordCount then some (depth + 1)
  else match g.overflow with
    | .faults => none
    | .wraps => some 0

theorem next?_of_lt (g : Generator) {depth : Nat} (h : depth + 1 < Number.wordCount) :
    g.next? depth = some (depth + 1) := if_pos h

/-- There is none only behind the last word, and only in a build with checks. -/
theorem next?_eq_none_iff {g : Generator} {depth : Nat} :
    g.next? depth = none ↔ Number.wordCount ≤ depth + 1 ∧ g.overflow = .faults := by
  rw [next?]
  split
  · next h => simp [Nat.not_le.2 h]
  · next h =>
    cases g.overflow with
    | faults => simp [Nat.not_lt.1 h]
    | wraps => simp

theorem le_of_next? {g : Generator} {depth below : Nat} (h : g.next? depth = some below) :
    below ≤ depth + 1 := by
  rw [next?] at h
  split at h
  · exact Nat.le_of_eq (Option.some.inj h).symm
  · cases hoverflow : g.overflow with
    | faults => simp [hoverflow] at h
    | wraps => simp [hoverflow] at h; omega

end Generator

end NeuralArch
