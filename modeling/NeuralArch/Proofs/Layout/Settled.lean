import NeuralArch.Proofs.Layout.Page

/-!
# The end of a page

What is written stays.  A mark takes nothing back but the line feed behind the
last word, and only a semicolon does, which is one byte long as well.  So an
offset in bytes that lies between two characters of a page still does so when
more is written, whatever the characters are.

* `IsBoundary`, `Keeps` — the offsets between characters, and texts that keep
  them.
* `Settled` — behind the last word of a page stands nothing, or a line feed
  where a line begins.
* `settled_mark`, `keeps_mark` — marks without a blank at their end keep both.
* `exists_textFrom?` — from a boundary on there is some text.
-/

namespace NeuralArch.Layout.Page

open Text

/-! ## Boundaries -/

/-- An offset in bytes between two characters of a text, or at one of its ends. -/
def IsBoundary (cs : List Char) (n : Nat) : Prop :=
  ∃ before after, cs = before ++ after ∧ byteLength before = n

/-- The boundaries of one text are boundaries of another one. -/
def Keeps (cs ds : List Char) : Prop := ∀ n, IsBoundary cs n → IsBoundary ds n

theorem Keeps.refl (cs : List Char) : Keeps cs cs := fun _ h => h

theorem Keeps.trans {cs ds es : List Char} (h : Keeps cs ds) (h' : Keeps ds es) : Keeps cs es :=
  fun n hn => h' n (h n hn)

theorem keeps_append (cs ds : List Char) : Keeps cs (cs ++ ds) := by
  rintro n ⟨before, after, rfl, hn⟩
  exact ⟨before, after ++ ds, List.append_assoc .., hn⟩

/-- A line feed at the end can be exchanged for a semicolon. -/
theorem keeps_semicolon (cs ds : List Char) : Keeps (cs ++ ['\n']) (cs ++ ';' :: ds) := by
  rintro n ⟨before, after, hsplit, hn⟩
  rcases List.eq_nil_or_concat after with rfl | ⟨after, c, rfl⟩
  · -- the boundary behind the line feed
    rw [List.append_nil] at hsplit
    refine ⟨cs ++ [';'], ds, by simp, ?_⟩
    rw [← hn, ← hsplit, byteLength_append, byteLength_append]
    rfl
  · rw [List.concat_eq_append, ← List.append_assoc] at hsplit
    obtain ⟨rfl, -⟩ := List.append_inj' hsplit rfl
    exact ⟨before, after ++ ';' :: ds, List.append_assoc .., hn⟩

/-- The end of a page is a boundary of it. -/
theorem isBoundary_size (p : Page) : IsBoundary p.text p.size := by
  refine ⟨p.text, [], (List.append_nil _).symm, ?_⟩
  rw [text, byteLength_reverse, size]

theorem exists_textFrom? {p : Page} {n : Nat} (h : IsBoundary p.text n) :
    ∃ cs, p.textFrom? n = some cs := by
  obtain ⟨before, after, hsplit, rfl⟩ := h
  exact ⟨after, by rw [textFrom?, hsplit, dropBytes?_append]⟩

/-! ## Settled pages -/

/-- Whether a text, kept in reverse, has no blank at its end. -/
def Inked (reversed : List Char) : Prop := reversed.head?.all (!isBlank ·) = true

/-- Behind the last word stands nothing, or a line feed where the next word begins a line. -/
def Settled (p : Page) : Prop :=
  Inked p.reversed ∨ p.atLineStart = true ∧ ∃ r, p.reversed = '\n' :: r ∧ Inked r

theorem settled_empty (width : Nat) : (empty width).Settled := .inl rfl

/-- At the end of a text without a blank there, nothing is dropped. -/
theorem Inked.dropWhile_eq {r : List Char} (h : Inked r) {accept : Char → Bool}
    (haccept : ∀ c, accept c = true → isBlank c = true) : r.dropWhile accept = r := by
  match r with
  | [] => rfl
  | c :: r =>
    rw [Inked, List.head?_cons, Option.all_some, Bool.not_eq_true'] at h
    refine List.dropWhile_cons_of_neg fun hc => ?_
    rw [haccept c hc] at h
    exact Bool.noConfusion h

theorem Inked.reversed_newLine {p : Page} (h : Inked p.reversed) :
    p.newLine.reversed = '\n' :: p.reversed := by
  rw [newLine, h.dropWhile_eq fun _ => isBlank_of_eq_space]

theorem Inked.settled_newLine {p : Page} (h : Inked p.reversed) : p.newLine.Settled :=
  .inr ⟨rfl, p.reversed, h.reversed_newLine, h⟩

theorem Inked.keeps_newLine {p : Page} (h : Inked p.reversed) : Keeps p.text p.newLine.text := by
  rw [text, text, h.reversed_newLine, List.reverse_cons]
  exact keeps_append _ _

theorem Settled.inked {p : Page} (h : p.Settled) (hline : p.atLineStart = false) :
    Inked p.reversed := by
  refine h.resolve_right fun ⟨hstart, _⟩ => ?_
  rw [hline] at hstart
  exact Bool.noConfusion hstart

/-- What is put has no blank at its end. -/
theorem inked_put (p : Page) {cs : List Char} (hne : cs ≠ [])
    (hend : cs.getLast?.all (!isBlank ·) = true) : Inked (p.put cs).reversed := by
  rw [Inked, put, List.head?_append_of_ne_nil _ (by simpa using hne), List.head?_reverse]
  exact hend

theorem keeps_pad_put (p : Page) (cs : List Char) : Keeps p.text (p.pad.put cs).text := by
  obtain ⟨blanks, hpad, -⟩ := exists_pad p
  rw [text, text, put, hpad, List.reverse_append, List.reverse_append, List.append_assoc]
  exact keeps_append _ _

/-! ## Marks -/

/-- Whether a mark has no blank at its end. -/
def Trimmed (m : Mark) : Prop := m.text.toList.getLast?.all (!isBlank ·) = true

theorem settled_write {p : Page} (h : p.Settled) {word : String}
    (hword : word.toList.getLast?.all (!isBlank ·) = true) : (p.write word).Settled := by
  rw [write]
  split
  · exact h
  · next hne =>
    refine .inl (inked_put _ (fun hnil => hne ?_) hword)
    rw [String.toList_eq_nil_iff.1 hnil]
    rfl

theorem keeps_write (p : Page) (word : String) : Keeps p.text (p.write word).text := by
  rw [write]
  split
  · exact .refl _
  · exact keeps_pad_put p _

/-- A brace that is put ends a line. -/
theorem settled_brace (p : Page) {brace : Char} (h : isBlank brace = false) (level : Nat) :
    Settled (newLine { p.put [brace] with level := level }) :=
  Inked.settled_newLine (p := { p.put [brace] with level := level })
    (inked_put p (List.cons_ne_nil _ _) (by simp [h]))

theorem keeps_brace (p : Page) {brace : Char} (h : isBlank brace = false) (level : Nat) :
    Keeps p.text (newLine { p.pad.put [brace] with level := level }).text := by
  have hinked : Inked (p.pad.put [brace]).reversed :=
    inked_put p.pad (List.cons_ne_nil _ _) (by simp [h])
  exact (keeps_pad_put p [brace]).trans
    (Inked.keeps_newLine (p := { p.pad.put [brace] with level := level }) hinked)

theorem keeps_closeBrace {p : Page} (h : p.Settled) : Keeps p.text p.closeBrace.text := by
  unfold closeBrace
  dsimp only
  split
  · exact keeps_brace { p with level := p.level - 1 } (by decide) _
  · next hline =>
    have hinked : Inked p.reversed := h.inked (by simpa using hline)
    refine Keeps.trans (Inked.keeps_newLine (p := { p with level := p.level - 1 }) hinked) ?_
    exact keeps_brace _ (by decide) _

/-- A semicolon takes the place of a line feed, or stands behind the text. -/
theorem Settled.endStatement {p : Page} (h : p.Settled) :
    p.endStatement.Settled ∧ Keeps p.text p.endStatement.text := by
  have hsettled : ∀ r, Settled (newLine { p with reversed := ';' :: r }) := fun r =>
    Inked.settled_newLine (p := { p with reversed := ';' :: r }) rfl
  have htext : ∀ r, (newLine { p with reversed := ';' :: r }).text = r.reverse ++ [';', '\n'] := by
    intro r
    rw [text, Inked.reversed_newLine (p := { p with reversed := ';' :: r }) rfl]
    simp
  refine ⟨hsettled _, ?_⟩
  rw [Page.endStatement, htext]
  rcases h with h | ⟨-, r, hr, h⟩
  · rw [h.dropWhile_eq fun _ hc => hc]
    exact keeps_append _ _
  · rw [text, hr, List.dropWhile_cons_of_pos (by decide), h.dropWhile_eq fun _ hc => hc,
      List.reverse_cons]
    exact keeps_semicolon _ _

theorem settled_mark {p : Page} (h : p.Settled) {m : Mark} (hm : Trimmed m) :
    (p.mark m).Settled := by
  cases m with
  | word w => exact settled_write h hm
  | value w => exact settled_write h hm
  | openBrace => exact settled_brace _ (by decide) _
  | closeBrace => exact settled_brace _ (by decide) _
  | semicolon => exact h.endStatement.1

theorem keeps_mark {p : Page} (h : p.Settled) (m : Mark) : Keeps p.text (p.mark m).text := by
  cases m with
  | word w => exact keeps_write p w
  | value w => exact keeps_write p w
  | openBrace => exact keeps_brace p (by decide) _
  | closeBrace => exact keeps_closeBrace h
  | semicolon => exact h.endStatement.2

end NeuralArch.Layout.Page
