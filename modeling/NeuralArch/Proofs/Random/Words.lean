import NeuralArch.Proofs.Random.Draw
import NeuralArch.Proofs.Sampling.Solid

/-!
# Words that draw a value

For every number below a bound there is a word that draws it, as long as there
are as many words as numbers.  So a source can be put together that makes each
of several draws in a row give what is wanted of it: its words are those of the
draws, one behind the other.

* `Draws` — a draw gives a value from a source that begins with some words.
* `exists_accept?_eq` — a word for every number below a bound.
* `exists_draws_below`, `exists_draws_choose` — words for a number and for a
  member of a list.
* `exists_draws_sample` — words for some value of a sampler.
-/

namespace NeuralArch

namespace Draw

variable {α β : Type}

/-- From any source that begins with some words a draw gives a value, and leaves what stands
behind the words. -/
def Draws (d : Draw WordSource α) (words : List UInt64) (a : α) : Prop :=
  ∀ rest state, d ⟨words ++ rest, state⟩ = .done (a, ⟨rest, state⟩)

theorem draws_pure (a : α) : Draws (pure a) [] a := fun _ _ => rfl

/-- The words of two draws stand side by side. -/
theorem Draws.bind {d : Draw WordSource α} {f : α → Draw WordSource β} {words words' : List UInt64}
    {a : α} {b : β} (h : d.Draws words a) (hf : (f a).Draws words' b) :
    (d >>= f).Draws (words ++ words') b := by
  intro rest state
  rw [List.append_assoc]
  exact bind_eq_done.2 ⟨a, _, h _ state, hf rest state⟩

theorem Draws.map {d : Draw WordSource α} {words : List UInt64} {a : α} (h : d.Draws words a)
    (f : α → β) : Draws (d >>= fun a => pure (f a)) words (f a) := by
  have hbind := h.bind (f := fun a => pure (f a)) (draws_pure (f a))
  rwa [List.append_nil] at hbind

/-! ## Numbers below a bound -/

/-- Where a bound stands when it is shifted to the full width, there is room for all smaller
numbers below it. -/
theorem pred_le_zone (w : Width) (n : Nat) : n - 1 ≤ zone w n := by
  have hshift : n ≤ n <<< (w.bits - (n.log2 + 1)) := by
    rw [Nat.shiftLeft_eq]
    exact Nat.le_mul_of_pos_right n (Nat.two_pow_pos _)
  rw [zone]
  omega

/-- A word for every number below a bound: the first one that the number's share begins with. -/
theorem exists_accept?_eq {w : Width} {n k : Nat} (hk : k < n) (hn : n ≤ w.size) :
    ∃ word < w.size, accept? w n word = some k := by
  have hpos : 0 < n := Nat.zero_lt_of_lt hk
  let word := (k * w.size + (n - 1)) / n
  -- The word times `n` is the number times the size, and less than `n` more.
  have hdiv : word * n + (k * w.size + (n - 1)) % n = k * w.size + (n - 1) :=
    Nat.div_add_mod' _ _
  have hmod : (k * w.size + (n - 1)) % n < n := Nat.mod_lt _ hpos
  obtain ⟨r, hr, hword⟩ : ∃ r, r < n ∧ word * n = k * w.size + r :=
    ⟨n - 1 - (k * w.size + (n - 1)) % n, by omega, by omega⟩
  have hsize : r < w.size := by omega
  refine ⟨word, ?_, ?_⟩
  · refine Nat.lt_of_mul_lt_mul_right (a := n) ?_
    have hle : (k + 1) * w.size ≤ n * w.size := Nat.mul_le_mul_right _ hk
    rw [Nat.succ_mul] at hle
    rw [hword, Nat.mul_comm w.size n]
    omega
  · have hlow : (k * w.size + r) % w.size = r := by
      rw [Nat.mul_add_mod_self_right, Nat.mod_eq_of_lt hsize]
    have hhigh : (k * w.size + r) / w.size = k := by
      rw [Nat.mul_comm, Nat.mul_add_div w.size_pos, Nat.div_eq_of_lt hsize, Nat.add_zero]
    have hzone : r ≤ zone w n := by
      have hle := pred_le_zone w n
      omega
    rw [accept?, hword, hlow, if_pos hzone, hhigh]

/-- The word that begins with given bits. -/
theorem exists_draws_raw {w : Width} {bits : Nat} (h : bits < w.size) :
    ∃ word, (raw w).Draws [word] bits := by
  cases w with
  | word =>
    refine ⟨UInt64.ofNat bits, fun rest state => ?_⟩
    show Outcome.done ((UInt64.ofNat bits).toNat, _) = _
    rw [UInt64.toNat_ofNat_of_lt' h]
    rfl
  | half =>
    refine ⟨UInt64.ofNat (bits <<< 32), fun rest state => ?_⟩
    show Outcome.done ((UInt64.ofNat (bits <<< 32) >>> 32).toUInt32.toNat, _) = _
    have hlt : bits < 2 ^ 32 := h
    have hshift : bits <<< 32 < 2 ^ 64 := by
      rw [Nat.shiftLeft_eq]
      omega
    have hupper : (UInt64.ofNat (bits <<< 32) >>> 32).toUInt32.toNat = bits := by
      rw [UInt64.toNat_toUInt32, UInt64.toNat_shiftRight, UInt64.toNat_ofNat_of_lt' hshift]
      show (bits <<< 32) >>> 32 % 2 ^ 32 = bits
      rw [Nat.shiftLeft_shiftRight, Nat.mod_eq_of_lt hlt]
    rw [hupper]
    rfl

theorem draws_below {w : Width} {n k bits : Nat} {words : List UInt64} (hn : 0 < n)
    (hraw : (raw w).Draws words bits) (haccept : accept? w n bits = some k) {patience : Nat}
    (hpatience : 0 < patience) : (below patience w n).Draws words k := by
  obtain ⟨p, rfl⟩ : ∃ p, patience = p + 1 := ⟨patience - 1, by omega⟩
  intro rest state
  rw [below, if_neg (by omega), offer]
  refine bind_eq_done.2 ⟨bits, ⟨rest, state⟩, hraw rest state, ?_⟩
  rw [haccept]
  rfl

/-- Every number below a bound is drawn by some word. -/
theorem exists_draws_below {w : Width} {n k : Nat} (hk : k < n) (hn : n ≤ w.size) :
    ∃ words, ∀ patience, 0 < patience → (below patience w n).Draws words k := by
  obtain ⟨bits, hbits, haccept⟩ := exists_accept?_eq hk hn
  obtain ⟨word, hword⟩ := exists_draws_raw hbits
  exact ⟨[word], fun patience hpatience =>
    draws_below (Nat.zero_lt_of_lt hk) hword haccept hpatience⟩

/-- The least number is drawn whatever the bound is. -/
theorem exists_draws_below_zero {w : Width} {n : Nat} (hn : 0 < n) :
    ∃ words, ∀ patience, 0 < patience → (below patience w n).Draws words 0 := by
  obtain ⟨word, hword⟩ := exists_draws_raw w.size_pos
  have haccept : accept? w n 0 = some 0 := by
    rw [accept?, Nat.zero_mul, Nat.zero_mod, Nat.zero_div, if_pos (Nat.zero_le _)]
  exact ⟨[word], fun patience hpatience => draws_below hn hword haccept hpatience⟩

/-- Every member of a list is chosen by some words. -/
theorem exists_draws_choose {xs : List α} {x : α} (hx : x ∈ xs)
    (hlength : xs.length ≤ Width.half.size) :
    ∃ words, ∀ patience, 0 < patience → (choose patience xs).Draws words (some x) := by
  obtain ⟨k, hk, rfl⟩ := List.getElem_of_mem hx
  obtain ⟨words, hwords⟩ := exists_draws_below hk hlength
  refine ⟨words, fun patience hpatience => ?_⟩
  rw [choose, if_neg (by simpa using List.ne_nil_of_mem hx), ← List.getElem?_eq_getElem hk]
  exact (hwords patience hpatience).map fun i => xs[i]?

/-- Something is chosen, if only the first member. -/
theorem exists_draws_choose_some (xs : List α) :
    ∃ words choice, ∀ patience, 0 < patience → (choose patience xs).Draws words choice := by
  cases xs with
  | nil => exact ⟨[], none, fun _ _ => draws_pure none⟩
  | cons x xs =>
    obtain ⟨words, hwords⟩ := exists_draws_below_zero (w := .half) (n := (x :: xs).length)
      (Nat.succ_pos _)
    refine ⟨words, some x, fun patience hpatience => ?_⟩
    rw [choose, if_neg (by simp)]
    exact (hwords patience hpatience).map fun i => (x :: xs)[i]?

theorem exists_draws_integer (min max : Int64) :
    ∃ words i, ∀ patience, 0 < patience → (integer patience min max).Draws words i := by
  by_cases hlt : min < max
  · by_cases hfull : (max.toInt - min.toInt + 1).toNat = Width.size .word
    · obtain ⟨word, hword⟩ := exists_draws_raw (Width.size_pos .word)
      refine ⟨[word], Int64.ofNat 0, fun patience _ => ?_⟩
      rw [integer, if_pos hlt]
      dsimp only
      rw [if_pos hfull]
      exact hword.map fun bits => Int64.ofNat bits
    · have hpos : 0 < (max.toInt - min.toInt + 1).toNat := by
        rw [Int64.lt_iff_toInt_lt] at hlt
        omega
      obtain ⟨words, hwords⟩ := exists_draws_below_zero (w := .word) hpos
      refine ⟨words, Int64.ofInt (min.toInt + (0 : Nat)), fun patience hpatience => ?_⟩
      rw [integer, if_pos hlt]
      dsimp only
      rw [if_neg hfull]
      exact (hwords patience hpatience).map fun k => Int64.ofInt (min.toInt + k)
  · refine ⟨[], min, fun patience _ => ?_⟩
    rw [integer, if_neg hlt]
    exact draws_pure min

theorem exists_draws_float {min max : Float}
    (h : min < max → ((max - min) / greatestFraction).isFinite = true) :
    ∃ words x, (float min max).Draws words x := by
  by_cases hlt : min < max
  · obtain ⟨word, hword⟩ := exists_draws_raw (Width.size_pos .word)
    have hfloat : float min max = (raw .word >>= fun bits => pure (Float.ofNat (bits >>> 12) /
        0x10000000000000 * fitScale min max ((max - min) / greatestFraction).toBits.toNat + min) :
        Draw WordSource Float) := by
      rw [float, if_pos hlt]
      dsimp only
      rw [if_pos (h hlt)]
    rw [hfloat]
    exact ⟨[word], _, hword.map _⟩
  · refine ⟨[], min, ?_⟩
    rw [float, if_neg hlt]
    exact draws_pure min

end Draw

/-- A sampler prints something, given the words. -/
theorem exists_draws_sample {s : Sampler} (h : s.Sound) :
    ∃ words text, ∀ patience, 0 < patience →
      Draw.Draws (s.sample patience) words text := by
  cases s with
  | choice values =>
    obtain ⟨words, choice, hwords⟩ := Draw.exists_draws_choose_some values
    exact ⟨words, _, fun patience hpatience => (hwords patience hpatience).map _⟩
  | uniform min max decimals =>
    obtain ⟨words, x, hwords⟩ := Draw.exists_draws_float h
    exact ⟨words, _, fun patience _ => hwords.map _⟩
  | scientific values =>
    obtain ⟨words, choice, hwords⟩ := Draw.exists_draws_choose_some values
    exact ⟨words, _, fun patience hpatience => (hwords patience hpatience).map _⟩
  | intRange min max =>
    obtain ⟨words, i, hwords⟩ := Draw.exists_draws_integer min max
    exact ⟨words, _, fun patience hpatience => (hwords patience hpatience).map _⟩

end NeuralArch
