import NeuralArch.Sampling
import NeuralArch.Json.Record
import NeuralArch.Json.Reader

/-!
# Sampling tables from JSON

A sampler says by its `kind` how it draws. A table is a record of its named
samplers and the two general ones; names are taken as they are written, so
one that is not in upper case is never found.
-/

namespace NeuralArch

namespace Sampler

/-- Reads a sampler that is nested no deeper than `room`. -/
def ofJson? (floats : Json.FloatReader) (room : Nat) (j : Json) : Option Sampler :=
  match j.tagged? floats room "kind" with
  | some ("choice", r) =>
    match r.record? ["values"] with
    | some [some values] => (values.asList? Json.asInt64?).map choice
    | _ => none
  | some ("uniform", r) =>
    match r.record? ["min", "max", "decimals"] with
    | some [some min, some max, some decimals] => do
      let min ← min.asFloat? floats
      let max ← max.asFloat? floats
      let decimals ← decimals.asCount?
      return uniform min max decimals
    | _ => none
  | some ("scientific", r) =>
    match r.record? ["values"] with
    | some [some values] => (values.asList? (Json.asFloat? floats)).map scientific
    | _ => none
  | some ("int_range", r) =>
    match r.record? ["min", "max"] with
    | some [some min, some max] => do
      let min ← min.asInt64?
      let max ← max.asInt64?
      return intRange min max
    | _ => none
  | _ => none

end Sampler

namespace SamplingTable

def ofJson? (floats : Json.FloatReader) (j : Json) : Option SamplingTable :=
  match j.record? ["rules", "int_fallback", "float_fallback"] with
  | some [some samplers, some forInts, some forFloats] => do
    let samplers ← samplers.asMap? (Sampler.ofJson? floats (Json.maxDepth - 2))
    let forInts ← Sampler.ofJson? floats (Json.maxDepth - 1) forInts
    let forFloats ← Sampler.ofJson? floats (Json.maxDepth - 1) forFloats
    return ⟨samplers, forInts, forFloats⟩
  | _ => none

end SamplingTable

end NeuralArch
