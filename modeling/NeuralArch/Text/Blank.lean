/-!
# White space

The characters that separate words: the code points with the Unicode
property `White_Space`. There are 25 of them, in ten ranges, and they are
carried here as data, because the character classes of the core library
stop at ASCII.

* `isBlank` — membership in the table.
* `trimStart`, `trimEnd`, `trim` — text without the blanks at its ends.
-/

namespace NeuralArch.Text

/-- The ranges of `White_Space`, both ends included, in ascending order. -/
def blankRanges : List (Nat × Nat) :=
  [(0x09, 0x0D), (0x20, 0x20), (0x85, 0x85), (0xA0, 0xA0), (0x1680, 0x1680),
   (0x2000, 0x200A), (0x2028, 0x2029), (0x202F, 0x202F), (0x205F, 0x205F),
   (0x3000, 0x3000)]

/-- Whether a character is Unicode white space. -/
def isBlank (c : Char) : Bool :=
  blankRanges.any fun range => range.1 ≤ c.toNat && c.toNat ≤ range.2

/-- Text without the blanks before its first word. -/
def trimStart (cs : List Char) : List Char := cs.dropWhile isBlank

/-- Text without the blanks after its last word. -/
def trimEnd (cs : List Char) : List Char := (cs.reverse.dropWhile isBlank).reverse

/-- Text without the blanks at either end. -/
def trim (cs : List Char) : List Char := trimStart (trimEnd cs)

@[simp] theorem trimEnd_nil : trimEnd [] = [] := rfl

@[simp] theorem trimStart_nil : trimStart [] = [] := rfl

/-- Text loses nothing but a run of blanks at its end. -/
theorem exists_trimEnd_append (cs : List Char) :
    ∃ blanks, cs = trimEnd cs ++ blanks ∧ ∀ c ∈ blanks, isBlank c = true := by
  refine ⟨(cs.reverse.takeWhile isBlank).reverse, ?_, ?_⟩
  · rw [trimEnd, ← List.reverse_append, List.takeWhile_append_dropWhile, List.reverse_reverse]
  · intro c hc
    rw [List.mem_reverse] at hc
    exact List.all_eq_true.1 List.all_takeWhile c hc

end NeuralArch.Text
