import Mathlib.Data.List.Basic
import NeuralArch.Text.Blank

/-!
# The words that characters delimit

A text falls into words without any vocabulary: blanks separate words, and each
punctuation mark is a word of its own.  All other characters belong to one word
as long as they stand side by side.  The layout of a text moves blanks only, so
this is what a change of layout keeps.

* `scan` — the words of a text.
* `scan_append` — texts that do not touch have the words of both.
* `IsWord`, `Inner` — texts that are one word, and those of them that are no mark.
* `exists_scan_cons` — the first word, and where it ends.
-/

namespace NeuralArch.Lexing

open Text

/-- The characters that are words of their own. -/
def isMark (c : Char) : Bool :=
  c == '\x7b' || c == '\x7d' || c == '[' || c == ']' || c == '=' || c == ';' || c == ','

/-- The characters that stand inside words. -/
def isInner (c : Char) : Bool := !isBlank c && !isMark c

/-- Whether a text continues a word that stands before it. -/
def startsInner (cs : List Char) : Bool := cs.head?.any isInner

/-- The words of a text. -/
def scan : List Char → List (List Char)
  | [] => []
  | c :: cs =>
    if isBlank c then scan cs
    else if isMark c then [c] :: scan cs
    else match startsInner cs, scan cs with
      | true, w :: ws => (c :: w) :: ws
      | _, ws => [c] :: ws

@[simp] theorem scan_nil : scan [] = [] := rfl

@[simp] theorem startsInner_nil : startsInner [] = false := rfl

@[simp] theorem startsInner_cons (c : Char) (cs : List Char) :
    startsInner (c :: cs) = isInner c := rfl

theorem scan_cons_of_isBlank {c : Char} (h : isBlank c = true) (cs : List Char) :
    scan (c :: cs) = scan cs := by
  rw [scan, if_pos h]

theorem not_isBlank_of_isMark {c : Char} (h : isMark c = true) : isBlank c = false := by
  simp only [isMark, Bool.or_eq_true, beq_iff_eq] at h
  rcases h with (((((rfl | rfl) | rfl) | rfl) | rfl) | rfl) | rfl <;> decide

/-- A text without blanks, checked character by character; to decide the right side outright is
to look at every character there is. -/
theorem not_isBlank_of_all {cs : List Char} (h : cs.all (!isBlank ·) = true) :
    ∀ c ∈ cs, isBlank c = false := by
  intro c hc
  have hnot := List.all_eq_true.1 h c hc
  rwa [Bool.not_eq_true'] at hnot

theorem isInner_of_isMark {c : Char} (h : isMark c = true) : isInner c = false := by
  simp [isInner, h]

theorem isInner_of_isBlank {c : Char} (h : isBlank c = true) : isInner c = false := by
  simp [isInner, h]

theorem scan_cons_of_isMark {c : Char} (h : isMark c = true) (cs : List Char) :
    scan (c :: cs) = [c] :: scan cs := by
  rw [scan, if_neg (by simp [not_isBlank_of_isMark h]), if_pos h]

theorem scan_cons_of_isInner {c : Char} (h : isInner c = true) {cs : List Char}
    (hcs : startsInner cs = false) : scan (c :: cs) = [c] :: scan cs := by
  simp only [isInner, Bool.and_eq_true, Bool.not_eq_true'] at h
  rw [scan, if_neg (by simp [h.1]), if_neg (by simp [h.2]), hcs]

/-- A character and the words of what follows decide the words of both. -/
theorem scan_cons_congr {cs ds : List Char} (c : Char) (hscan : scan cs = scan ds)
    (hstart : startsInner cs = startsInner ds) : scan (c :: cs) = scan (c :: ds) := by
  rw [scan, scan, hscan, hstart]

/-! ## Texts side by side -/

theorem startsInner_append {cs ds : List Char} (h : startsInner ds = false) :
    startsInner (cs ++ ds) = startsInner cs := by
  cases cs with
  | nil => exact h
  | cons c cs => rfl

/-- Where the second of two texts does not begin inside a word, nothing changes by putting
them side by side. -/
theorem scan_append {cs ds : List Char} (h : startsInner ds = false) :
    scan (cs ++ ds) = scan cs ++ scan ds := by
  induction cs with
  | nil => rfl
  | cons c cs ih =>
    have hstart := @startsInner_append cs ds h
    rw [List.cons_append, scan, scan, ih, hstart]
    by_cases hblank : isBlank c = true
    · rw [if_pos hblank, if_pos hblank]
    · rw [if_neg hblank, if_neg hblank]
      by_cases hmark : isMark c = true
      · rw [if_pos hmark, if_pos hmark, List.cons_append]
      · rw [if_neg hmark, if_neg hmark]
        cases hs : startsInner cs with
        | false => rfl
        | true =>
          cases hw : scan cs with
          | nil =>
            -- A text that begins inside a word has a word.
            match cs with
            | [] => simp at hs
            | d :: cs =>
              rw [startsInner_cons, isInner] at hs
              simp only [Bool.and_eq_true, Bool.not_eq_true'] at hs
              rw [scan, if_neg (by simp [hs.1]), if_neg (by simp [hs.2])] at hw
              split at hw <;> simp at hw
          | cons w ws => rfl

theorem scan_append_cons_of_isBlank {c : Char} (h : isBlank c = true) (cs ds : List Char) :
    scan (cs ++ c :: ds) = scan cs ++ scan ds := by
  have hstart : startsInner (c :: ds) = false := isInner_of_isBlank h
  rw [scan_append hstart, scan_cons_of_isBlank h]

theorem scan_append_cons_of_isMark {c : Char} (h : isMark c = true) (cs ds : List Char) :
    scan (cs ++ c :: ds) = scan cs ++ [c] :: scan ds := by
  have hstart : startsInner (c :: ds) = false := isInner_of_isMark h
  rw [scan_append hstart, scan_cons_of_isMark h]

/-- Blanks are no words. -/
theorem scan_eq_nil_of_blanks {cs : List Char} (h : ∀ c ∈ cs, isBlank c = true) :
    scan cs = [] := by
  induction cs with
  | nil => rfl
  | cons c cs ih =>
    rw [scan_cons_of_isBlank (h c (List.mem_cons_self ..))]
    exact ih fun d hd => h d (List.mem_cons_of_mem _ hd)

theorem scan_append_blanks {ds : List Char} (h : ∀ c ∈ ds, isBlank c = true) (cs : List Char) :
    scan (cs ++ ds) = scan cs := by
  have hstart : startsInner ds = false := by
    cases ds with
    | nil => rfl
    | cons d ds => exact isInner_of_isBlank (h d (List.mem_cons_self ..))
  rw [scan_append hstart, scan_eq_nil_of_blanks h, List.append_nil]

theorem scan_blanks_append {cs : List Char} (h : ∀ c ∈ cs, isBlank c = true) (ds : List Char) :
    scan (cs ++ ds) = scan ds := by
  induction cs with
  | nil => rfl
  | cons c cs ih =>
    rw [List.cons_append, scan_cons_of_isBlank (h c (List.mem_cons_self ..))]
    exact ih fun d hd => h d (List.mem_cons_of_mem _ hd)

/-! ## Single words -/

/-- A text that is one word: a mark, or characters that stand inside words. -/
def IsWord (w : List Char) : Prop :=
  (∃ c, isMark c = true ∧ w = [c]) ∨ (w ≠ [] ∧ ∀ c ∈ w, isInner c = true)

theorem IsWord.ne_nil {w : List Char} (h : IsWord w) : w ≠ [] := by
  rcases h with ⟨c, -, rfl⟩ | ⟨hne, -⟩
  · exact List.cons_ne_nil c []
  · exact hne

theorem IsWord.not_isBlank {w : List Char} (h : IsWord w) : ∀ c ∈ w, isBlank c = false := by
  intro c hc
  rcases h with ⟨d, hmark, rfl⟩ | ⟨-, hinner⟩
  · rw [List.mem_singleton.1 hc]
    exact not_isBlank_of_isMark hmark
  · have hin := hinner c hc
    rw [isInner, Bool.and_eq_true, Bool.not_eq_true'] at hin
    exact hin.1

/-- A text without punctuation and blanks in it. -/
def Inner (w : List Char) : Prop := w ≠ [] ∧ ∀ c ∈ w, isInner c = true

theorem Inner.not_mem {w : List Char} (h : Inner w) {c : Char} (hc : isInner c = false) : c ∉ w :=
  fun hmem => Bool.false_ne_true (hc.symm.trans (h.2 c hmem))

theorem Inner.not_isBlank {w : List Char} (h : Inner w) : ∀ c ∈ w, isBlank c = false :=
  IsWord.not_isBlank (.inr h)

theorem scan_inner {w : List Char} (hne : w ≠ []) (h : ∀ c ∈ w, isInner c = true) :
    scan w = [w] := by
  induction w with
  | nil => exact absurd rfl hne
  | cons c w ih =>
    have hc := h c (List.mem_cons_self ..)
    match w with
    | [] => exact scan_cons_of_isInner hc rfl
    | d :: w =>
      have hd : isInner d = true := h d (by simp)
      have hrest := ih (by simp) fun e he => h e (List.mem_cons_of_mem _ he)
      simp only [isInner, Bool.and_eq_true, Bool.not_eq_true'] at hc
      rw [scan, if_neg (by simp [hc.1]), if_neg (by simp [hc.2]), hrest, startsInner_cons, hd]

theorem IsWord.scan_eq {w : List Char} (h : IsWord w) : scan w = [w] := by
  rcases h with ⟨c, hc, rfl⟩ | ⟨hne, hinner⟩
  · rw [scan_cons_of_isMark hc, scan_nil]
  · exact scan_inner hne hinner

theorem startsInner_dropWhile (cs : List Char) :
    startsInner (cs.dropWhile isInner) = false := by
  cases hd : cs.dropWhile isInner with
  | nil => rfl
  | cons d ds =>
    have hnot := List.head?_dropWhile_not isInner cs
    rw [hd] at hnot
    simpa using hnot

/-- A text that does not begin with a blank begins with a word, and what follows cannot make it
longer. -/
theorem exists_scan_cons {c : Char} (hc : isBlank c = false) (cs : List Char) :
    ∃ w rest, c :: cs = w ++ rest ∧ scan (c :: cs) = w :: scan rest ∧
      ((isMark c = true ∧ w = [c]) ∨
        (w ≠ [] ∧ (∀ d ∈ w, isInner d = true) ∧ startsInner rest = false)) := by
  by_cases hmark : isMark c = true
  · exact ⟨[c], cs, rfl, scan_cons_of_isMark hmark cs, .inl ⟨hmark, rfl⟩⟩
  · have hinner : isInner c = true := by simp [isInner, hc, hmark]
    have hne : (c :: cs).takeWhile isInner ≠ [] := by simp [hinner]
    have hall : ∀ d ∈ (c :: cs).takeWhile isInner, isInner d = true :=
      fun d hd => List.all_eq_true.1 List.all_takeWhile d hd
    refine ⟨(c :: cs).takeWhile isInner, (c :: cs).dropWhile isInner,
      List.takeWhile_append_dropWhile.symm, ?_, .inr ⟨hne, hall, startsInner_dropWhile _⟩⟩
    have happend := @scan_append ((c :: cs).takeWhile isInner) _
      (startsInner_dropWhile (c :: cs))
    rw [List.takeWhile_append_dropWhile, scan_inner hne hall] at happend
    exact happend

end NeuralArch.Lexing
