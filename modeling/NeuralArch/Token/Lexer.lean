import NeuralArch.Token
import NeuralArch.SyntaxError

/-!
# From text to tokens

The text is cut into lexemes by longest match: at each place, after blanks
and comments are passed over, the longest prefix that is a spelling of the
vocabulary or a number is the next token. There is no notion of a word
boundary: `l1l2` is two tokens.

* `skip` passes over blanks and over comments, which run from `#` to the end
  of the line.
* `number?` and `spelled?` are the two classes of lexeme. A spelling never
  begins like a number (`spelled?_eq_none_of_number?`), so the longest match
  is the longest match of one class.
* `Token.ofText` cuts a whole text, or stops at the first character that
  begins no lexeme.
-/

namespace NeuralArch.Token

/-! ## Between tokens -/

/-- The characters that separate tokens: space, tab, carriage return, line feed and form
feed. -/
def isSeparator (c : Char) : Bool :=
  c == ' ' || c == '\t' || c == '\r' || c == '\n' || c == '\x0c'

/-- How many characters stand before the next lexeme. Inside a comment everything up to the
line feed counts. -/
def gap (inComment : Bool) : List Char → Nat
  | [] => 0
  | c :: cs =>
    if inComment then gap (c != '\n') cs + 1
    else if isSeparator c then gap false cs + 1
    else if c == '#' then gap true cs + 1
    else 0

/-! ## Lexemes -/

/-- How many digits a text begins with. -/
def digitCount (cs : List Char) : Nat := (cs.takeWhile Char.isDigit).length

/-- The length of a point with the digits behind it; zero if either is missing. -/
def fractionLength : List Char → Nat
  | '.' :: cs => if digitCount cs = 0 then 0 else digitCount cs + 1
  | _ => 0

/-- One for a sign, zero otherwise. -/
def signLength : List Char → Nat
  | c :: _ => if c == '+' || c == '-' then 1 else 0
  | [] => 0

/-- The length of a power of ten (`e`, a sign at will, digits); zero if the digits are
missing. -/
def exponentLength : List Char → Nat
  | [] => 0
  | c :: cs =>
    if c == 'e' || c == 'E' then
      let digits := digitCount (cs.drop (signLength cs))
      if digits = 0 then 0 else 1 + signLength cs + digits
    else 0

/-- The length of an integer: a minus at will, and digits. Zero if there are no digits. -/
def integerLength (cs : List Char) : Nat :=
  let minus := if cs.head? = some '-' then 1 else 0
  let digits := digitCount (cs.drop minus)
  if digits = 0 then 0 else minus + digits

/-- The number a text begins with: its kind and its length. An integer becomes a float by a
fraction, by a power of ten, or by both. -/
def number? (cs : List Char) : Option (Kind × Nat) :=
  let whole := integerLength cs
  if whole = 0 then none
  else
    let fraction := fractionLength (cs.drop whole)
    let exponent := exponentLength (cs.drop (whole + fraction))
    let rest := fraction + exponent
    some (if rest = 0 then .int else .float, whole + rest)

/-- Every kind with its spelling. -/
def spellings : List (Kind × List Char) :=
  Kind.all.filterMap fun k => k.spelling?.map fun s => (k, s.toList)

/-- The better of two readings of one place: the longer. -/
def longer (best : Option (Kind × Nat)) (candidate : Kind × Nat) : Option (Kind × Nat) :=
  match best with
  | none => some candidate
  | some b => if b.2 < candidate.2 then some candidate else some b

/-- The longest spelling a text begins with: its kind and its length. -/
def spelled? (cs : List Char) : Option (Kind × Nat) :=
  spellings.foldl
    (fun best (kind, spelling) =>
      if spelling.isPrefixOf cs then longer best (kind, spelling.length) else best)
    none

/-- The longest lexeme a text begins with: its kind and its length. -/
def lexeme? (cs : List Char) : Option (Kind × Nat) := (number? cs).or (spelled? cs)

theorem number?_pos {cs : List Char} {k : Kind} {n : Nat} (h : number? cs = some (k, n)) :
    0 < n := by
  simp only [number?] at h
  split at h
  · simp at h
  · simp only [Option.some.injEq, Prod.mk.injEq] at h
    omega

theorem spellings_pos : ∀ s ∈ spellings, 0 < s.2.length := by decide

theorem spelled?_pos {cs : List Char} {k : Kind} {n : Nat} (h : spelled? cs = some (k, n)) :
    0 < n := by
  have go : ∀ (table : List (Kind × List Char)) (best : Option (Kind × Nat)),
      (∀ s ∈ table, 0 < s.2.length) → (∀ b ∈ best, 0 < b.2) →
      ∀ b ∈ table.foldl (fun best (kind, spelling) =>
        if spelling.isPrefixOf cs then longer best (kind, spelling.length) else best) best,
        0 < b.2 := by
    intro table
    induction table with
    | nil => exact fun best _ hb => hb
    | cons s table ih =>
      intro best ht hb
      refine ih _ (fun s hs => ht s (List.mem_cons_of_mem _ hs)) ?_
      dsimp only
      split
      · intro b hm
        have hs := ht s (List.mem_cons_self ..)
        unfold longer at hm
        split at hm
        · simp only [Option.mem_some_iff] at hm
          subst hm
          exact hs
        · split at hm
          · simp only [Option.mem_some_iff] at hm
            subst hm
            exact hs
          · exact hb b hm
      · exact hb
  exact go spellings none spellings_pos (by simp) (k, n) h

/-- A lexeme takes at least one character. -/
theorem lexeme?_pos {cs : List Char} {k : Kind} {n : Nat} (h : lexeme? cs = some (k, n)) :
    0 < n := by
  rcases Option.or_eq_some_iff.1 h with h | ⟨_, h⟩
  · exact number?_pos h
  · exact spelled?_pos h

theorem head?_of_number? {cs : List Char} {found : Kind × Nat} (h : number? cs = some found) :
    ∃ c ∈ cs.head?, c = '-' ∨ c.isDigit = true := by
  match cs with
  | [] => simp [number?, integerLength, digitCount] at h
  | c :: cs =>
    refine ⟨c, rfl, Classical.byContradiction fun hc => ?_⟩
    simp only [not_or, Bool.not_eq_true] at hc
    simp [number?, integerLength, digitCount, hc] at h

/-- The two classes of lexeme have no beginning in common. -/
theorem spelled?_eq_none_of_number? {cs : List Char} {found : Kind × Nat}
    (h : number? cs = some found) : spelled? cs = none := by
  obtain ⟨c, hc, hn⟩ := head?_of_number? h
  have heads : (spellings.all fun s => s.2.head?.all fun d => d != '-' && !d.isDigit) = true := by
    decide
  have go : ∀ table : List (Kind × List Char),
      (∀ s ∈ table, s ∈ spellings) →
      table.foldl (fun best (kind, spelling) =>
        if spelling.isPrefixOf cs then longer best (kind, spelling.length) else best) none
        = none := by
    intro table
    induction table with
    | nil => exact fun _ => rfl
    | cons s table ih =>
      intro ht
      have hs := ht s (List.mem_cons_self ..)
      have : s.2.isPrefixOf cs = false := by
        rw [Bool.eq_false_iff]
        intro hp
        obtain ⟨tail, rfl⟩ := List.isPrefixOf_iff_prefix.1 hp
        match hd : s.2 with
        | [] => exact absurd (spellings_pos s hs) (by simp [hd])
        | d :: ds =>
          rw [hd] at hc
          simp only [List.cons_append, List.head?_cons, Option.mem_some_iff] at hc
          subst hc
          have := List.all_eq_true.1 heads s hs
          rw [hd, List.head?_cons, Option.all_some] at this
          rcases hn with rfl | hn
          · simp at this
          · simp [hn] at this
      simp only [List.foldl_cons, this, Bool.false_eq_true, if_false]
      exact ih fun s hs => ht s (List.mem_cons_of_mem _ hs)
  exact go spellings fun _ hs => hs

/-! ## Whole texts -/

theorem length_drop_lexeme {cs rest : List Char} {before n : Nat} {k : Kind} {c : Char}
    (hr : cs.drop before = c :: rest) (hl : lexeme? (c :: rest) = some (k, n)) :
    rest.length + 1 - n < cs.length := by
  have := lexeme?_pos hl
  have := congrArg List.length hr
  simp only [List.length_drop, List.length_cons] at this
  omega

/-- The tokens of a text that begins at a position. -/
def ofTextAt (p : Position) (cs : List Char) : Except SyntaxError (List Token) :=
  let before := gap false cs
  let here := p.after (cs.take before)
  match hr : cs.drop before with
  | [] => .ok []
  | c :: rest =>
    match hl : lexeme? (c :: rest) with
    | none => .error ⟨.unrecognized c, here⟩
    | some (kind, n) =>
      let written := (c :: rest).take n
      have : rest.length + 1 - n < cs.length := length_drop_lexeme hr hl
      match ofTextAt (here.after written) ((c :: rest).drop n) with
      | .error e => .error e
      | .ok tokens => .ok (⟨kind, String.ofList written, here⟩ :: tokens)
termination_by cs.length

/-- The tokens of a text, or the first place where none begins. -/
def ofText (text : String) : Except SyntaxError (List Token) :=
  ofTextAt Position.start text.toList

end NeuralArch.Token
