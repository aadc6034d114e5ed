import NeuralArch.Layout.Tidy
import NeuralArch.Proofs.Layout.Tidy

/-!
# The ink of a text

What is left of a text without its blanks, with a note at each character whether
a blank stood before it.  A change of layout leaves the characters as they are and
changes notes only; tidying does so at few places.

* `ink` — the characters that are not blank, each with its note.
* `Rearranged` — the same characters, where a blank goes only before a closer or
  behind an opening bracket, and comes only before an opening brace.
* `rearranged_tidy` — tidying rearranges.
-/

namespace NeuralArch.Layout

open Text

/-! ## Ink -/

/-- The characters that are not blank, each with whether a blank stands before it. The first
argument says so of the place where the text begins. -/
def ink (blankBefore : Bool) : List Char → List (Bool × Char)
  | [] => []
  | c :: cs => if isBlank c then ink true cs else (blankBefore, c) :: ink false cs

@[simp] theorem ink_nil (f : Bool) : ink f [] = [] := rfl

theorem ink_cons_of_isBlank (f : Bool) {c : Char} (h : isBlank c = true) (cs : List Char) :
    ink f (c :: cs) = ink true cs := by
  rw [ink, if_pos h]

theorem ink_cons_of_not_isBlank (f : Bool) {c : Char} (h : isBlank c = false) (cs : List Char) :
    ink f (c :: cs) = (f, c) :: ink false cs := by
  rw [ink, if_neg (by simp [h])]

/-- The characters of the ink are those of the text, without the blanks. -/
theorem map_snd_ink (f : Bool) (cs : List Char) :
    (ink f cs).map Prod.snd = cs.filter (!isBlank ·) := by
  induction cs generalizing f with
  | nil => rfl
  | cons c cs ih =>
    by_cases h : isBlank c = true
    · rw [ink_cons_of_isBlank f h, ih, List.filter_cons_of_neg (by simp [h])]
    · rw [Bool.not_eq_true] at h
      rw [ink_cons_of_not_isBlank f h, List.map_cons, ih,
        List.filter_cons_of_pos (by simp [h])]

/-- Whether a blank stands before what follows a text. -/
def blankBehind (f : Bool) (cs : List Char) : Bool := cs.getLast?.elim f isBlank

theorem blankBehind_cons (f : Bool) (c : Char) (cs : List Char) :
    blankBehind f (c :: cs) = blankBehind (isBlank c) cs := by
  rw [blankBehind, blankBehind, List.getLast?_cons]
  cases cs.getLast? <;> rfl

theorem ink_append (f : Bool) (cs ds : List Char) :
    ink f (cs ++ ds) = ink f cs ++ ink (blankBehind f cs) ds := by
  induction cs generalizing f with
  | nil => rfl
  | cons c cs ih =>
    rw [List.cons_append, blankBehind_cons]
    by_cases h : isBlank c = true
    · rw [ink_cons_of_isBlank f h, ink_cons_of_isBlank f h, ih, h]
    · rw [Bool.not_eq_true] at h
      rw [ink_cons_of_not_isBlank f h, ink_cons_of_not_isBlank f h, ih, h, List.cons_append]

/-- Blanks leave no ink. -/
theorem ink_eq_nil_iff {f : Bool} {cs : List Char} :
    ink f cs = [] ↔ ∀ c ∈ cs, isBlank c = true := by
  induction cs generalizing f with
  | nil => simp
  | cons c cs ih =>
    by_cases h : isBlank c = true
    · rw [ink_cons_of_isBlank f h, ih, List.forall_mem_cons, and_iff_right h]
    · rw [Bool.not_eq_true] at h
      simp [ink_cons_of_not_isBlank f h, h]

theorem ink_append_blanks (f : Bool) (cs : List Char) {blanks : List Char}
    (h : ∀ c ∈ blanks, isBlank c = true) : ink f (cs ++ blanks) = ink f cs := by
  rw [ink_append, ink_eq_nil_iff.2 h, List.append_nil]

/-- A line feed parts the ink. -/
theorem ink_append_feed (f : Bool) (cs ds : List Char) :
    ink f (cs ++ '\n' :: ds) = ink f cs ++ ink true ds := by
  rw [ink_append, ink_cons_of_isBlank _ (by decide)]

/-! ## Rearrangement -/

/-- The same characters, behind some character or none, with changes of the notes only where
layout may make them. -/
inductive Rearranged : Option Char → List (Bool × Char) → List (Bool × Char) → Prop
  | nil (prev : Option Char) : Rearranged prev [] []
  | cons {prev : Option Char} {f g : Bool} {c : Char} {xs ys : List (Bool × Char)}
      (hgoes : f = true → g = true ∨ isCloser c = true ∨ prev = some '[')
      (hcomes : g = true → f = true ∨ c = '\x7b')
      (rest : Rearranged (some c) xs ys) : Rearranged prev ((f, c) :: xs) ((g, c) :: ys)

namespace Rearranged

variable {prev : Option Char} {xs ys zs : List (Bool × Char)}

theorem refl (prev : Option Char) (xs : List (Bool × Char)) : Rearranged prev xs xs := by
  induction xs generalizing prev with
  | nil => exact .nil prev
  | cons x xs ih => exact .cons .inl .inl (ih _)

theorem trans (h : Rearranged prev xs ys) (h' : Rearranged prev ys zs) :
    Rearranged prev xs zs := by
  induction h generalizing zs with
  | nil => exact h'
  | @cons prev f g c xs ys hgoes hcomes rest ih =>
    cases h' with
    | @cons _ _ k _ _ zs hgoes' hcomes' rest' =>
      refine .cons (fun hf => ?_) (fun hk => ?_) (ih rest')
      · exact (hgoes hf).elim hgoes' .inr
      · exact (hcomes' hk).elim hcomes .inr

theorem map_snd (h : Rearranged prev xs ys) : ys.map Prod.snd = xs.map Prod.snd := by
  induction h with
  | nil => rfl
  | cons _ _ _ ih => rw [List.map_cons, List.map_cons, ih]

/-- Ink that is put behind goes along. -/
theorem append {zs' : List (Bool × Char)} (h : Rearranged prev xs ys)
    (h' : ∀ prev', Rearranged prev' zs zs') : Rearranged prev (xs ++ zs) (ys ++ zs') := by
  induction h with
  | nil => exact h' _
  | cons hgoes hcomes _ ih => exact .cons hgoes hcomes ih

end Rearranged

/-! ## Tidying, step by step -/

/-- The note of a closer is free to go. -/
theorem rearranged_closer {prev : Option Char} {c : Char} (hc : isCloser c = true)
    (cs : List Char) (f : Bool) :
    Rearranged prev (ink true (c :: cs)) (ink f (c :: cs)) := by
  have hblank : isBlank c = false :=
    Lexing.not_isBlank_of_isMark (isMark_of_isCloser hc)
  rw [ink_cons_of_not_isBlank _ hblank, ink_cons_of_not_isBlank _ hblank]
  exact .cons (fun _ => .inr (.inl hc)) (fun _ => .inl rfl) (.refl _ _)

theorem rearranged_tightenClosers (prev : Option Char) (f : Bool) (cs : List Char) :
    Rearranged prev (ink f cs) (ink f (tightenClosers cs)) := by
  induction cs generalizing prev f with
  | nil => exact .nil prev
  | cons c cs ih =>
    rw [tightenClosers]
    split
    · next h =>
      rw [Bool.and_eq_true] at h
      obtain ⟨hgap, hcloser⟩ := h
      rw [ink_cons_of_isBlank f (isBlank_of_isGap hgap)]
      refine (ih prev true).trans ?_
      -- What stands in front now is the closer.
      cases hrest : tightenClosers cs with
      | nil => exact .nil prev
      | cons d ds =>
        rw [hrest, List.head?_cons, Option.any_some] at hcloser
        exact rearranged_closer hcloser ds f
    · by_cases hblank : isBlank c = true
      · rw [ink_cons_of_isBlank f hblank, ink_cons_of_isBlank f hblank]
        exact ih prev true
      · rw [Bool.not_eq_true] at hblank
        rw [ink_cons_of_not_isBlank f hblank, ink_cons_of_not_isBlank f hblank]
        exact .cons .inl .inl (ih _ false)

/-- Behind a bracket the first note is free to go. -/
theorem rearranged_tightenBracketsFrom (prev : Option Char) (afterBracket : Bool)
    (hprev : afterBracket = true → prev = some '[') {f g : Bool}
    (hfg : f = true → g = true ∨ afterBracket = true) (hgf : g = true → f = true)
    (cs : List Char) :
    Rearranged prev (ink f cs) (ink g (tightenBracketsFrom afterBracket cs)) := by
  induction cs generalizing prev afterBracket f g with
  | nil => exact .nil prev
  | cons c cs ih =>
    rw [tightenBracketsFrom]
    split
    · next h =>
      rw [Bool.and_eq_true] at h
      rw [ink_cons_of_isBlank f (isBlank_of_isGap h.2)]
      exact ih prev true (fun _ => hprev h.1) (fun _ => .inr rfl) (fun _ => rfl)
    · by_cases hblank : isBlank c = true
      · have hc : (c == '[') = false := by
          rw [beq_eq_false_iff_ne]
          rintro rfl
          exact absurd hblank (by decide)
        rw [ink_cons_of_isBlank f hblank, ink_cons_of_isBlank g hblank, hc]
        exact ih prev false (by simp) (fun _ => .inl rfl) (fun _ => rfl)
      · rw [Bool.not_eq_true] at hblank
        rw [ink_cons_of_not_isBlank f hblank, ink_cons_of_not_isBlank g hblank]
        refine .cons (fun hf => ?_) (fun hg => .inl (hgf hg)) ?_
        · exact (hfg hf).imp_right fun h => .inr (hprev h)
        · exact ih (some c) (c == '[') (by simp) .inl id

theorem rearranged_tightenBrackets (prev : Option Char) (f : Bool) (cs : List Char) :
    Rearranged prev (ink f cs) (ink f (tightenBrackets cs)) :=
  rearranged_tightenBracketsFrom prev false (by simp) .inl id cs

/-- Before a brace that only a gap stands before, a note may come. -/
theorem exists_ink_of_afterBrace? {cs rest : List Char} (h : afterBrace? cs = some rest) :
    ∃ f, ink false cs = (f, '\x7b') :: ink false rest := by
  obtain ⟨gap, rfl, hgap⟩ := exists_gap_of_afterBrace? h
  have hblanks : ∀ c ∈ gap, isBlank c = true := fun c hc => isBlank_of_isGap (hgap c hc)
  refine ⟨blankBehind false gap, ?_⟩
  rw [ink_append, ink_eq_nil_iff.2 hblanks, List.nil_append,
    ink_cons_of_not_isBlank _ (by decide)]

theorem rearranged_spaceBraces (prev : Option Char) (f : Bool) (cs : List Char) :
    Rearranged prev (ink f cs) (ink f (spaceBraces cs)) := by
  fun_induction spaceBraces cs generalizing prev f with
  | case1 => exact .nil prev
  | case2 c cs hblank ih =>
    rw [ink_cons_of_isBlank f hblank, ink_cons_of_isBlank f hblank]
    exact ih prev true
  | case3 c cs hblank rest h _ ih =>
    rw [Bool.not_eq_true] at hblank
    obtain ⟨g, hink⟩ := exists_ink_of_afterBrace? h
    rw [ink_cons_of_not_isBlank f hblank, ink_cons_of_not_isBlank f hblank,
      ink_cons_of_isBlank false (by decide), ink_cons_of_not_isBlank true (by decide), hink]
    exact .cons .inl .inl (.cons (fun _ => .inl rfl) (fun _ => .inr rfl) (ih _ false))
  | case4 c cs hblank h ih =>
    rw [Bool.not_eq_true] at hblank
    rw [ink_cons_of_not_isBlank f hblank, ink_cons_of_not_isBlank f hblank]
    exact .cons .inl .inl (ih _ false)

/-! ## Lines -/

theorem ink_trimEnd (f : Bool) (cs : List Char) : ink f (trimEnd cs) = ink f cs := by
  obtain ⟨blanks, hcs, hblanks⟩ := exists_trimEnd_append cs
  conv_rhs => rw [hcs]
  rw [ink_append_blanks f _ hblanks]

theorem gathers_ink : Gathers (ink true) := ⟨ink_nil true, ink_append_feed true⟩

/-- Tidying rearranges the ink of a text. -/
theorem rearranged_tidy (cs : List Char) : Rearranged none (ink true cs) (ink true (tidy cs)) := by
  rw [tidy, gathers_ink.tidyLines (ink_trimEnd true)]
  exact ((rearranged_tightenClosers none true _).trans
    (rearranged_tightenBrackets none true _)).trans (rearranged_spaceBraces none true _)

end NeuralArch.Layout
