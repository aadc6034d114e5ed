import NeuralArch.Layout.Page
import NeuralArch.Proofs.Lexing.Scan

/-!
# Pages hold the words of their marks

Between a mark and what was written before it there is a blank, or one of the
two is punctuation.  So the words of a page are those of its marks, in order.

* `scan_mark`, `scan_foldl_mark` — the words after one mark, and after several.
* `mem_mark` — the characters of a page are those of its marks, spaces and line
  feeds.
* `textFrom?_write` — the text of a word that was written last.
-/

namespace NeuralArch.Layout

open Text Lexing

namespace Page

/-- Whether a word can be written right behind the text. -/
def Apart (p : Page) : Prop := p.reversed.head?.all isBlank = true

/-- Where the next word begins a line, it can be written right behind the text. -/
def Ready (p : Page) : Prop := p.atLineStart = true → p.Apart

theorem ready_empty (width : Nat) : (empty width).Ready := fun _ => rfl

/-! ## Words -/

/-- A text without punctuation shapes no page. -/
theorem ofLiteral_of_inner {w : String} (h : Inner w.toList) : Mark.ofLiteral w = .word w := by
  have hne : ∀ {c : Char} {word : String}, isInner c = false → c ∈ word.toList → w ≠ word := by
    rintro c word hc hmem rfl
    exact h.not_mem hc hmem
  rw [Mark.ofLiteral, if_neg (hne (c := '\x7b') (by decide) (by decide)),
    if_neg (hne (c := '\x7d') (by decide) (by decide)),
    if_neg (hne (c := ';') (by decide) (by decide))]

theorem scan_reverse_dropWhile {accept : Char → Bool}
    (h : ∀ c, accept c = true → isBlank c = true) (r : List Char) :
    scan (r.dropWhile accept).reverse = scan r.reverse := by
  have hsplit : r.reverse = (r.dropWhile accept).reverse ++ (r.takeWhile accept).reverse := by
    rw [← List.reverse_append, List.takeWhile_append_dropWhile]
  rw [hsplit, scan_append_blanks]
  intro c hc
  rw [List.mem_reverse] at hc
  exact h c (List.all_eq_true.1 List.all_takeWhile c hc)

theorem isBlank_of_eq_space {c : Char} (h : (c == ' ') = true) : isBlank c = true := by
  rw [beq_iff_eq] at h
  subst h
  decide

/-- Making room writes blanks only. -/
theorem exists_pad (p : Page) : ∃ blanks, p.pad.reversed = blanks ++ p.reversed ∧
    ∀ c ∈ blanks, c = ' ' := by
  unfold pad
  split
  · exact ⟨List.replicate (p.level * p.width) ' ', rfl, fun c hc => List.eq_of_mem_replicate hc⟩
  · split
    · exact ⟨[], rfl, by simp⟩
    · exact ⟨[' '], rfl, by simp⟩

theorem scan_pad (p : Page) : scan p.pad.text = scan p.text := by
  obtain ⟨blanks, hpad, hblanks⟩ := exists_pad p
  rw [text, hpad, List.reverse_append, scan_append_blanks, text]
  intro c hc
  rw [hblanks c (List.mem_reverse.1 hc)]
  decide

theorem atLineStart_pad (p : Page) : p.pad.atLineStart = false := by
  unfold pad
  split
  · rfl
  · next hstart =>
    have hfalse : p.atLineStart = false := by simpa using hstart
    split
    · exact hfalse
    · exact hfalse

theorem Ready.apart_pad {p : Page} (h : p.Ready) : p.pad.Apart := by
  unfold pad
  split
  · next hstart =>
    unfold Apart
    cases p.level * p.width with
    | zero => exact h hstart
    | succ n => rfl
  · split
    · next hhead =>
      rw [Apart, hhead]
      rfl
    · rfl

/-- A text behind a blank has its own words. -/
theorem Apart.scan_put {p : Page} (h : p.Apart) (cs : List Char) :
    scan (p.put cs).text = scan p.text ++ scan cs := by
  have htext : (p.put cs).text = p.text ++ cs := by
    rw [text, put, List.reverse_append, List.reverse_reverse, text]
  rw [htext]
  unfold Apart at h
  rw [text]
  cases hr : p.reversed with
  | nil => rfl
  | cons c r =>
    rw [hr, List.head?_cons, Option.all_some] at h
    rw [List.reverse_cons, List.append_assoc, List.singleton_append,
      scan_append_cons_of_isBlank h, scan_append_blanks (by simpa using h)]

theorem scan_newLine (p : Page) : scan p.newLine.text = scan p.text := by
  have hfeed : ∀ c ∈ ['\n'], isBlank c = true := by
    intro c hc
    rw [List.mem_singleton.1 hc]
    decide
  rw [text, newLine, List.reverse_cons, scan_append_blanks hfeed,
    scan_reverse_dropWhile (fun _ => isBlank_of_eq_space), text]

theorem ready_newLine (p : Page) : p.newLine.Ready := fun _ => by
  rw [Apart, newLine, List.head?_cons]
  decide

theorem scan_write {p : Page} (h : p.Ready) (word : String) :
    scan (p.write word).text = scan p.text ++ scan word.toList := by
  unfold write
  split
  · next hempty =>
    rw [String.isEmpty_iff] at hempty
    rw [hempty, String.toList_empty, scan_nil, List.append_nil]
  · rw [h.apart_pad.scan_put, scan_pad]

theorem ready_write {p : Page} (h : p.Ready) (word : String) : (p.write word).Ready := by
  unfold write
  split
  · exact h
  · intro hstart
    rw [put, atLineStart_pad] at hstart
    exact absurd hstart Bool.false_ne_true

theorem scan_openBrace {p : Page} (h : p.Ready) :
    scan p.openBrace.text = scan p.text ++ [['\x7b']] := by
  have hput := h.apart_pad.scan_put ['\x7b']
  rw [scan_pad, scan_cons_of_isMark (by decide), scan_nil] at hput
  rw [openBrace, scan_newLine]
  exact hput

theorem scan_closeBrace {p : Page} (h : p.Ready) :
    scan p.closeBrace.text = scan p.text ++ [['\x7d']] := by
  unfold closeBrace
  dsimp only
  rw [scan_newLine]
  split
  · have hput := (Ready.apart_pad (p := { p with level := p.level - 1 }) h).scan_put ['\x7d']
    rw [scan_pad, scan_cons_of_isMark (by decide), scan_nil] at hput
    exact hput
  · have hput := (ready_newLine { p with level := p.level - 1 }).apart_pad.scan_put ['\x7d']
    rw [scan_pad, scan_newLine, scan_cons_of_isMark (by decide), scan_nil] at hput
    exact hput

theorem scan_endStatement (p : Page) : scan p.endStatement.text = scan p.text ++ [[';']] := by
  rw [endStatement, scan_newLine, text, List.reverse_cons,
    scan_append_cons_of_isMark (by decide), scan_nil, scan_reverse_dropWhile fun _ h => h, text]

/-- A mark adds its words to those of the page. -/
theorem scan_mark {p : Page} (h : p.Ready) (m : Mark) :
    scan (p.mark m).text = scan p.text ++ scan m.text.toList := by
  cases m with
  | word w => exact scan_write h w
  | value w => exact scan_write h w
  | openBrace => exact scan_openBrace h
  | closeBrace => exact scan_closeBrace h
  | semicolon => exact scan_endStatement p

theorem ready_mark {p : Page} (h : p.Ready) (m : Mark) : (p.mark m).Ready := by
  cases m with
  | word w => exact ready_write h w
  | value w => exact ready_write h w
  | openBrace => exact ready_newLine _
  | closeBrace => exact ready_newLine _
  | semicolon => exact ready_newLine _

theorem scan_foldl_mark {p : Page} (h : p.Ready) (marks : List Mark) :
    scan (marks.foldl mark p).text =
      scan p.text ++ marks.flatMap fun m => scan m.text.toList := by
  induction marks generalizing p with
  | nil => simp
  | cons m marks ih =>
    rw [List.foldl_cons, ih (ready_mark h m), scan_mark h, List.flatMap_cons, List.append_assoc]

/-- The words of a page are those of its marks. -/
theorem scan_ofMarks (width : Nat) (marks : List Mark) :
    scan (ofMarks width marks).text = marks.flatMap fun m => scan m.text.toList :=
  scan_foldl_mark (ready_empty width) marks

/-! ## Characters -/

theorem mem_pad {c : Char} {p : Page} (h : c ∈ p.pad.reversed) : c ∈ p.reversed ∨ c = ' ' := by
  obtain ⟨blanks, hpad, hblanks⟩ := exists_pad p
  rw [hpad, List.mem_append] at h
  rcases h with h | h
  · exact .inr (hblanks c h)
  · exact .inl h

theorem mem_newLine {c : Char} {p : Page} (h : c ∈ p.newLine.reversed) :
    c ∈ p.reversed ∨ c = '\n' := by
  rcases List.mem_cons.1 h with rfl | h
  · exact .inr rfl
  · exact .inl ((List.dropWhile_sublist _).subset h)

theorem mem_put {c : Char} {p : Page} {cs : List Char} (h : c ∈ (p.put cs).reversed) :
    c ∈ p.reversed ∨ c ∈ cs := by
  rw [put, List.mem_append, List.mem_reverse] at h
  exact h.symm

/-- The characters of a page are those of its marks, spaces and line feeds. -/
theorem mem_mark {c : Char} {p : Page} {m : Mark} (h : c ∈ (p.mark m).reversed) :
    c ∈ p.reversed ∨ c ∈ m.text.toList ∨ c = ' ' ∨ c = '\n' := by
  have hwrite : ∀ w : String, c ∈ (p.write w).reversed →
      c ∈ p.reversed ∨ c ∈ w.toList ∨ c = ' ' ∨ c = '\n' := by
    intro w h
    unfold write at h
    split at h
    · exact .inl h
    · rcases mem_put h with h | h
      · rcases mem_pad h with h | h
        · exact .inl h
        · exact .inr (.inr (.inl h))
      · exact .inr (.inl h)
  cases m with
  | word w => exact hwrite w h
  | value w => exact hwrite w h
  | openBrace =>
    rcases mem_newLine h with h | h
    · rcases mem_put h with h | h
      · exact (mem_pad h).imp_right fun h => .inr (.inl h)
      · exact .inr (.inl h)
    · exact .inr (.inr (.inr h))
  | closeBrace =>
    rcases mem_newLine h with h | h
    · rcases mem_put h with h | h
      · rcases mem_pad h with h | h
        · split at h
          · exact .inl h
          · exact (mem_newLine h).imp_right fun h => .inr (.inr h)
        · exact .inr (.inr (.inl h))
      · exact .inr (.inl h)
    · exact .inr (.inr (.inr h))
  | semicolon =>
    rcases mem_newLine h with h | h
    · rcases List.mem_cons.1 h with rfl | h
      · exact .inr (.inl (List.mem_singleton_self _))
      · exact .inl ((List.dropWhile_sublist _).subset h)
    · exact .inr (.inr (.inr h))

theorem mem_foldl_mark {c : Char} {p : Page} {marks : List Mark}
    (h : c ∈ (marks.foldl mark p).reversed) :
    c ∈ p.reversed ∨ (∃ m ∈ marks, c ∈ m.text.toList) ∨ c = ' ' ∨ c = '\n' := by
  induction marks generalizing p with
  | nil => exact .inl h
  | cons m marks ih =>
    rcases ih h with h | ⟨m', hm', h⟩ | h
    · rcases mem_mark h with h | h | h
      · exact .inl h
      · exact .inr (.inl ⟨m, List.mem_cons_self .., h⟩)
      · exact .inr (.inr h)
    · exact .inr (.inl ⟨m', List.mem_cons_of_mem _ hm', h⟩)
    · exact .inr (.inr h)

/-! ## The end of a page -/

theorem byteLength_append (as bs : List Char) :
    byteLength (as ++ bs) = byteLength as + byteLength bs := by
  induction as with
  | nil => simp [byteLength]
  | cons a as ih =>
    show a.utf8Size + byteLength (as ++ bs) = a.utf8Size + byteLength as + byteLength bs
    omega

theorem byteLength_reverse (cs : List Char) : byteLength cs.reverse = byteLength cs := by
  induction cs with
  | nil => rfl
  | cons c cs ih =>
    rw [List.reverse_cons, byteLength_append, ih]
    show byteLength cs + (c.utf8Size + 0) = c.utf8Size + byteLength cs
    omega

/-- Bytes of a text in front are dropped first. -/
theorem dropBytes?_add_append (as bs : List Char) (n : Nat) :
    dropBytes? (byteLength as + n) (as ++ bs) = dropBytes? n bs := by
  induction as with
  | nil => simp [byteLength]
  | cons a as ih =>
    have hpos : 0 < a.utf8Size := Char.utf8Size_pos a
    have hlength : byteLength (a :: as) = a.utf8Size + byteLength as := rfl
    obtain ⟨m, hm⟩ : ∃ m, byteLength (a :: as) + n = m + 1 :=
      ⟨byteLength (a :: as) + n - 1, by omega⟩
    have hrest : m + 1 - a.utf8Size = byteLength as + n := by omega
    rw [hm, List.cons_append, dropBytes?, if_pos (by omega), hrest, ih]

/-- As many bytes as a text has are the text. -/
theorem dropBytes?_append (as bs : List Char) :
    dropBytes? (byteLength as) (as ++ bs) = some bs := by
  have h := dropBytes?_add_append as bs 0
  rwa [Nat.add_zero, dropBytes?] at h

/-- Behind the text before a word there is the word, and spaces before it. -/
theorem textFrom?_write (p : Page) {word : String} (h : word.isEmpty = false) :
    ∃ blanks, (p.write word).textFrom? p.size = some (blanks ++ word.toList) ∧
      ∀ c ∈ blanks, c = ' ' := by
  obtain ⟨blanks, hpad, hblanks⟩ := exists_pad p
  refine ⟨blanks.reverse, ?_, fun c hc => hblanks c (List.mem_reverse.1 hc)⟩
  have htext : (p.write word).text = p.text ++ (blanks.reverse ++ word.toList) := by
    rw [write, if_neg (by simp [h]), text, put, hpad, List.reverse_append, List.reverse_reverse,
      List.reverse_append, List.append_assoc, text]
  rw [textFrom?, htext, size, ← byteLength_reverse, ← text, dropBytes?_append]

end Page

end NeuralArch.Layout
