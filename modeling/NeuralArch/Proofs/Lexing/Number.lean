import NeuralArch.Proofs.Lexing.Pattern

/-!
# Reading number lexemes

A number token is read twice: as an integer or a float by its kind, and as
whatever a range asks for.  The readings agree.

* `readInt64?_of_mem_float` — the text of a float token is no integer.
* `isSome_readFloat?` — the text of a number token is always a float.
* `readFloat?_of_readInt64?` — the text of an integer is the float of that
  integer, up to the sign of a zero.
-/

namespace NeuralArch.Lexing

open Number

/-! ## Signs and digits -/

theorem isDigit_ne {c d : Char} (hc : c.isDigit = true) (hd : d.isDigit = false) : c ≠ d := by
  rintro rfl
  rw [hc] at hd
  exact Bool.noConfusion hd

/-- Digits begin with a digit. -/
theorem exists_cons_of_isDigits {ds : List Char} (h : isDigits ds = true) :
    ∃ d rest, ds = d :: rest ∧ d.isDigit = true := by
  obtain ⟨hne, hall⟩ := mem_digits_iff.1 h
  match ds, hne with
  | d :: rest, _ => exact ⟨d, rest, rfl, hall d (List.mem_cons_self ..)⟩

theorem splitSign_minus (cs : List Char) : splitSign ('-' :: cs) = (true, cs) := rfl

theorem splitSign_plus (cs : List Char) : splitSign ('+' :: cs) = (false, cs) := rfl

theorem splitSign_digits {ds : List Char} (h : isDigits ds = true) (cs : List Char) :
    splitSign (ds ++ cs) = (false, ds ++ cs) := by
  obtain ⟨d, rest, rfl, hd⟩ := exists_cons_of_isDigits h
  have hminus : d ≠ '-' := isDigit_ne hd rfl
  have hplus : d ≠ '+' := isDigit_ne hd rfl
  rw [List.cons_append]
  unfold splitSign
  split
  · next heq => exact absurd (List.cons.inj heq).1 hminus
  · next heq => exact absurd (List.cons.inj heq).1 hplus
  · rfl

/-- An integer is digits, perhaps behind a minus. -/
theorem mem_integer_iff {cs : List Char} :
    cs ∈ integer ↔ ∃ ds, isDigits ds = true ∧ (cs = ds ∨ cs = '-' :: ds) := by
  rw [integer, Language.mem_mul]
  constructor
  · rintro ⟨sign, rfl | ⟨c, hc, rfl⟩, ds, hds, rfl⟩
    · exact ⟨ds, hds, .inl rfl⟩
    · rw [beq_iff_eq] at hc
      exact ⟨ds, hds, .inr (by rw [hc]; rfl)⟩
  · rintro ⟨ds, hds, rfl | rfl⟩
    · exact ⟨[], nil_mem_optional _, cs, hds, rfl⟩
    · exact ⟨['-'], mem_optional_of_mem ⟨'-', rfl, rfl⟩, ds, hds, rfl⟩

/-- What stands in front of the digits of a number only decides the sign. -/
theorem splitSign_of_mem_integer {ws : List Char} (h : ws ∈ integer) :
    ∃ negative ds, isDigits ds = true ∧
      ∀ cs, splitSign (ws ++ cs) = (negative, ds ++ cs) := by
  obtain ⟨ds, hds, rfl | rfl⟩ := mem_integer_iff.1 h
  · exact ⟨false, ws, hds, splitSign_digits hds⟩
  · exact ⟨true, ds, hds, fun cs => splitSign_minus _⟩

/-! ## The texts of floats are no integers -/

/-- A fraction and a power of ten begin with what is no digit. -/
theorem head_of_mem_fraction {cs : List Char} (h : cs ∈ fraction) :
    ∃ ds, isDigits ds = true ∧ cs = '.' :: ds := by
  obtain ⟨_, ⟨c, hc, rfl⟩, ds, hds, rfl⟩ := Language.mem_mul.1 h
  rw [beq_iff_eq] at hc
  exact ⟨ds, hds, by rw [hc]; rfl⟩

theorem head_of_mem_exponent {cs : List Char} (h : cs ∈ exponent) :
    ∃ c sign ds, (c == 'e' || c == 'E') = true ∧
      sign ∈ optional (char fun c => c == '+' || c == '-') ∧ isDigits ds = true ∧
      cs = c :: (sign ++ ds) := by
  obtain ⟨_, ⟨c, hc, rfl⟩, rest, hrest, rfl⟩ := Language.mem_mul.1 h
  obtain ⟨sign, hsign, ds, hds, rfl⟩ := Language.mem_mul.1 hrest
  exact ⟨c, sign, ds, hc, hsign, hds, rfl⟩

theorem isDigit_of_isPower {c : Char} (h : (c == 'e' || c == 'E') = true) :
    c.isDigit = false := by
  rw [Bool.or_eq_true, beq_iff_eq, beq_iff_eq] at h
  rcases h with rfl | rfl <;> rfl

/-- A float is an integer and something behind it that begins with no digit. -/
theorem exists_append_of_mem_float {cs : List Char} (h : cs ∈ float) :
    ∃ ws rest, ws ∈ integer ∧ rest ∈ fraction * optional exponent + exponent ∧
      cs = ws ++ rest := by
  rcases h with h | h
  · obtain ⟨ws, hws, rest, hrest, rfl⟩ := Language.mem_mul.1 h
    exact ⟨ws, rest, hws, .inl hrest, rfl⟩
  · obtain ⟨ws, hws, rest, hrest, rfl⟩ := Language.mem_mul.1 h
    exact ⟨ws, rest, hws, .inr hrest, rfl⟩

theorem exists_head_not_digit {rest : List Char}
    (h : rest ∈ fraction * optional exponent + exponent) :
    ∃ c tail, rest = c :: tail ∧ c.isDigit = false := by
  rcases h with h | h
  · obtain ⟨_, hf, tail, -, rfl⟩ := Language.mem_mul.1 h
    obtain ⟨ds, -, rfl⟩ := head_of_mem_fraction hf
    exact ⟨'.', ds ++ tail, rfl, rfl⟩
  · obtain ⟨c, sign, ds, hc, -, -, rfl⟩ := head_of_mem_exponent h
    exact ⟨c, sign ++ ds, rfl, isDigit_of_isPower hc⟩

theorem readInt?_of_mem_float {cs : List Char} (h : cs ∈ float) : readInt? cs = none := by
  obtain ⟨ws, rest, hws, hrest, rfl⟩ := exists_append_of_mem_float h
  obtain ⟨negative, ds, -, hsplit⟩ := splitSign_of_mem_integer hws
  obtain ⟨c, tail, rfl, hc⟩ := exists_head_not_digit hrest
  have hno : ¬ isDigits (ds ++ c :: tail) = true := by
    intro hdigits
    have := (mem_digits_iff.1 hdigits).2 c (by simp)
    rw [hc] at this
    exact Bool.noConfusion this
  rw [readInt?, hsplit]
  dsimp only
  rw [if_neg hno]

/-- The text of a float token is no integer. -/
theorem readInt64?_of_mem_float {text : String} (h : text.toList ∈ float) :
    readInt64? text = none := by
  rw [readInt64?, readInt?_of_mem_float h]
  rfl

/-! ## The texts of numbers are floats -/

theorem takeWhile_digits {ds cs : List Char} (h : isDigits ds = true)
    (hcs : ∀ c ∈ cs.head?, c.isDigit = false) : (ds ++ cs).takeWhile Char.isDigit = ds := by
  have hall := (mem_digits_iff.1 h).2
  rw [List.takeWhile_append_of_pos hall]
  match cs with
  | [] => simp
  | c :: cs => rw [List.takeWhile_cons_of_neg (by simp [hcs c rfl]), List.append_nil]

theorem dropWhile_digits {ds cs : List Char} (h : isDigits ds = true)
    (hcs : ∀ c ∈ cs.head?, c.isDigit = false) : (ds ++ cs).dropWhile Char.isDigit = cs := by
  have hall := (mem_digits_iff.1 h).2
  rw [List.dropWhile_append_of_pos hall]
  match cs with
  | [] => simp
  | c :: cs => rw [List.dropWhile_cons_of_neg (by simp [hcs c rfl])]

theorem isEmpty_of_isDigits {ds : List Char} (h : isDigits ds = true) : ds.isEmpty = false := by
  obtain ⟨d, rest, rfl, -⟩ := exists_cons_of_isDigits h
  rfl

theorem readDecimal?_digits {ds : List Char} (h : isDigits ds = true) :
    readDecimal? ds = some ⟨false, ds, [], none⟩ := by
  have htake := @takeWhile_digits ds [] h (by simp)
  have hdrop := @dropWhile_digits ds [] h (by simp)
  rw [List.append_nil] at htake hdrop
  simp [readDecimal?, htake, hdrop, isEmpty_of_isDigits h, readPower?]

theorem isSome_readPower? {cs : List Char} (h : cs ∈ optional exponent) :
    (readPower? cs).isSome = true := by
  rcases h with rfl | h
  · rfl
  · obtain ⟨c, sign, ds, hc, hsign, hds, rfl⟩ := head_of_mem_exponent h
    have hsplit : ∃ negative, splitSign (sign ++ ds) = (negative, ds) := by
      rcases hsign with rfl | ⟨s, hs, rfl⟩
      · have := splitSign_digits hds []
        rw [List.append_nil] at this
        exact ⟨false, this⟩
      · rw [Bool.or_eq_true, beq_iff_eq, beq_iff_eq] at hs
        rcases hs with rfl | rfl
        · exact ⟨false, splitSign_plus ds⟩
        · exact ⟨true, splitSign_minus ds⟩
    obtain ⟨negative, hsplit⟩ := hsplit
    rw [readPower?, if_pos hc, hsplit]
    dsimp only
    rw [if_pos hds]
    rfl

theorem isSome_readDecimal? {ds rest : List Char} (h : isDigits ds = true)
    (hrest : rest ∈ fraction * optional exponent + exponent) :
    (readDecimal? (ds ++ rest)).isSome = true := by
  have hhead : ∀ c ∈ rest.head?, c.isDigit = false := by
    obtain ⟨c, tail, rfl, hc⟩ := exists_head_not_digit hrest
    simp [hc]
  rw [readDecimal?, takeWhile_digits h hhead, dropWhile_digits h hhead]
  rcases hrest with hrest | hrest
  · obtain ⟨_, hfraction, power, hpower, rfl⟩ := Language.mem_mul.1 hrest
    obtain ⟨fs, hfs, rfl⟩ := head_of_mem_fraction hfraction
    have htail : ∀ c ∈ power.head?, c.isDigit = false := by
      rcases hpower with rfl | hpower
      · simp
      · obtain ⟨c, tail, rfl, hc⟩ := exists_head_not_digit (.inr hpower)
        simp [hc]
    simp [takeWhile_digits hfs htail, dropWhile_digits hfs htail, isEmpty_of_isDigits h,
      isSome_readPower? hpower]
  · obtain ⟨c, sign, es, hc, -, -, rfl⟩ := head_of_mem_exponent hrest
    have hpoint : c ≠ '.' := by
      rintro rfl
      exact absurd hc (by decide)
    have hpower := isSome_readPower? (mem_optional_of_mem hrest)
    simp [hpoint, isEmpty_of_isDigits h, hpower]

/-- What begins with a digit is not the name of a value without digits. -/
theorem lowerCase_ne {ds cs : List Char} {name : String} (h : isDigits ds = true)
    (hname : name.toList.head?.any (!·.isDigit) = true) :
    lowerCase (ds ++ cs) ≠ name.toList := by
  obtain ⟨d, rest, rfl, hd⟩ := exists_cons_of_isDigits h
  have hlower : d.toLower = d := by
    rw [Char.isDigit, Bool.and_eq_true, decide_eq_true_eq, decide_eq_true_eq] at hd
    refine dif_neg ?_
    rintro ⟨h65, -⟩
    exact absurd (UInt32.le_trans h65 hd.2) (by decide)
  intro heq
  rw [← heq, lowerCase, List.cons_append, List.map_cons, hlower, List.head?_cons,
    Option.any_some, hd] at hname
  exact Bool.noConfusion hname

/-- Reading a float, once the sign is split off. -/
theorem readFloat?_eq {text : String} {negative : Bool} {ds cs : List Char}
    (hsplit : splitSign text.toList = (negative, ds ++ cs)) (h : isDigits ds = true) :
    readFloat? text =
      (readDecimal? (ds ++ cs)).map fun n => if negative then -n.toFloat else n.toFloat := by
  rw [readFloat?, hsplit]
  dsimp only
  rw [if_neg (lowerCase_ne h rfl), if_neg]
  rintro (hinf | hinfinity)
  · exact lowerCase_ne h rfl hinf
  · exact lowerCase_ne h rfl hinfinity

/-- The text of a number token is a float. -/
theorem isSome_readFloat? {text : String}
    (h : text.toList ∈ integer ∨ text.toList ∈ float) : (readFloat? text).isSome = true := by
  rcases h with h | h
  · obtain ⟨negative, ds, hds, hsplit⟩ := splitSign_of_mem_integer h
    have hsplit := hsplit []
    rw [List.append_nil] at hsplit
    rw [readFloat?_eq hsplit hds, List.append_nil, readDecimal?_digits hds]
    rfl
  · obtain ⟨ws, rest, hws, hrest, htext⟩ := exists_append_of_mem_float h
    obtain ⟨negative, ds, hds, hsplit⟩ := splitSign_of_mem_integer hws
    rw [readFloat?_eq (by rw [htext]; exact hsplit rest) hds, Option.isSome_map]
    exact isSome_readDecimal? hds hrest

/-! ## Integers as floats -/

theorem toInt_of_toInt64? {n : Int} {i : Int64} (h : toInt64? n = some i) :
    i.toInt = n ∧ leastInteger ≤ n ∧ n < -leastInteger := by
  unfold toInt64? at h
  split at h
  · next hbounds =>
    rw [Option.some.injEq] at h
    rw [← h, Int64.toInt_ofInt_of_le hbounds.1 hbounds.2]
    exact ⟨rfl, hbounds⟩
  · simp at h

/-- Naturals that are not too long are read without a detour. -/
theorem nearest_natural {n : Nat} (h : n ≤ 0x8000000000000000) :
    nearest false n 0 = Float.ofNat n := by
  have hlength : (digitsOfNat n).length ≤ 19 := by
    rw [digitsOfNat, Nat.length_toDigits_le_iff (by decide) (by decide)]
    omega
  unfold nearest
  by_cases hzero : n = 0
  · subst hzero
    rfl
  · dsimp only
    rw [if_neg Bool.false_ne_true, if_neg (by omega), if_neg (by omega),
      if_pos (Int.le_refl 0), Int.toNat_zero]
    show Float.ofScientific (n * 1) false 0 = _
    rw [Nat.mul_one]
    rfl

/-- The text of an integer is read as the float of that integer.  Only a zero can
differ: a text may give it a minus. -/
theorem readFloat?_of_readInt64? {text : String} {i : Int64} (h : text.toList ∈ integer)
    (hi : readInt64? text = some i) :
    readFloat? text = some (Float.ofInt i.toInt) ∨ i.toInt = 0 ∧ readFloat? text = some (-0) := by
  obtain ⟨negative, ds, hds, hsplit⟩ := splitSign_of_mem_integer h
  have hsplit := hsplit []
  rw [List.append_nil, List.append_nil] at hsplit
  have hfloat : readFloat? text =
      some (if negative then -nearest false (natOfDigits ds) 0
        else nearest false (natOfDigits ds) 0) := by
    rw [@readFloat?_eq text negative ds [] (by rwa [List.append_nil]) hds, List.append_nil,
      readDecimal?_digits hds]
    simp [Numeral.toFloat, Numeral.significand, Numeral.scale]
  rw [readInt64?, readInt?, hsplit] at hi
  dsimp only at hi
  rw [if_pos hds, Option.bind_some] at hi
  obtain ⟨hvalue, hleast, hgreatest⟩ := toInt_of_toInt64? hi
  rw [leastInteger] at hleast hgreatest
  cases negative with
  | false =>
    rw [if_neg Bool.false_ne_true] at hvalue hleast hgreatest hfloat
    left
    rw [hfloat, hvalue, nearest_natural (by omega)]
    rfl
  | true =>
    rw [if_pos rfl] at hvalue hleast hgreatest hfloat
    rw [nearest_natural (by omega)] at hfloat
    match hn : natOfDigits ds with
    | 0 =>
      right
      rw [hn] at hvalue hfloat
      exact ⟨hvalue, hfloat⟩
    | n + 1 =>
      left
      rw [hn] at hvalue hfloat
      rw [hfloat, hvalue]
      rfl

end NeuralArch.Lexing
