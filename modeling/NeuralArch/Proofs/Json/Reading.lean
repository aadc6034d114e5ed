import NeuralArch.Proofs.Json.Literals

/-!
# Printed values are read back

The text of a value is read as the value, provided that its numerals are
well-formed.  The readers count down with every value, item and member, and each
of these takes characters, so the length of the text is bound enough.

The blanks between the parts make no difference: a reader of a value, of items or
of members skips the blanks in front.

* `WellFormed` — the values whose numerals can be read.
* `value?_textAt` — a value is read back before whatever may stand behind it.
* `parse?_text` — the text of a value is read as the value.
-/

namespace NeuralArch.Json

open Number Lexing

mutual

/-- Whether all numerals of a value are well-formed. -/
def WellFormed : Json → Prop
  | null => True
  | bool _ => True
  | number n => n.WellFormed
  | string _ => True
  | array items => WellFormedItems items
  | object members => WellFormedMembers members

def WellFormedItems : List Json → Prop
  | [] => True
  | j :: js => j.WellFormed ∧ WellFormedItems js

def WellFormedMembers : List (Option String × Json) → Prop
  | [] => True
  | (_, j) :: ms => j.WellFormed ∧ WellFormedMembers ms

end

theorem wellFormedItems_iff {items : List Json} :
    WellFormedItems items ↔ ∀ j ∈ items, j.WellFormed := by
  induction items with
  | nil => simp [WellFormedItems]
  | cons j js ih => simp [WellFormedItems, ih]

theorem wellFormedMembers_iff {members : List (Option String × Json)} :
    WellFormedMembers members ↔ ∀ m ∈ members, m.2.WellFormed := by
  induction members with
  | nil => simp [WellFormedMembers]
  | cons m ms ih => simp [WellFormedMembers, ih]

/-! ## Blanks -/

theorem skipSpace_newLine (depth : Nat) (cs : List Char) :
    skipSpace (newLine depth ++ cs) = skipSpace cs := by
  refine List.dropWhile_append_of_pos fun c hc => ?_
  obtain rfl | hc := List.mem_cons.1 hc
  · rfl
  · rw [List.eq_of_mem_replicate hc]
    rfl

theorem skipSpace_of_head {c : Char} (h : isSpace c = false) (cs : List Char) :
    skipSpace (c :: cs) = c :: cs :=
  List.dropWhile_cons_of_neg (by simp [h])

/-- The readers skip the blanks in front. -/
theorem value?_congr {cs cs' : List Char} (h : skipSpace cs = skipSpace cs') (n : Nat) :
    value? n cs = value? n cs' := by
  cases n with
  | zero => rfl
  | succ n => simp only [value?, h]

theorem items?_congr {cs cs' : List Char} (h : skipSpace cs = skipSpace cs') (n : Nat) :
    items? n cs = items? n cs' := by
  cases n with
  | zero => rfl
  | succ n => simp only [items?, value?_congr h]

theorem members?_congr {cs cs' : List Char} (h : skipSpace cs = skipSpace cs') (n : Nat) :
    members? n cs = members? n cs' := by
  cases n with
  | zero => rfl
  | succ n => simp only [members?, h]

/-! ## Values -/

/-- Items as they are written between their brackets. -/
def itemsText (depth : Nat) : List Json → List Char
  | [] => []
  | j :: js => textAt depth j ++ itemsAt depth js

/-- Members as they are written between their braces. -/
def membersText (depth : Nat) : List (Option String × Json) → List Char
  | [] => []
  | (k, j) :: ms => stringText k ++ [':', ' '] ++ textAt depth j ++ membersAt depth ms

theorem textAt_array (depth : Nat) (j : Json) (js : List Json) :
    textAt depth (array (j :: js)) = '[' :: (newLine (depth + 1) ++
      (itemsText (depth + 1) (j :: js) ++ (newLine depth ++ [']']))) := by
  simp [textAt, itemsText]

theorem textAt_object (depth : Nat) (m : Option String × Json)
    (ms : List (Option String × Json)) :
    textAt depth (object (m :: ms)) = '\x7b' :: (newLine (depth + 1) ++
      (membersText (depth + 1) (m :: ms) ++ (newLine depth ++ ['\x7d']))) := by
  obtain ⟨k, j⟩ := m
  simp [textAt, membersText]

theorem itemsText_cons_cons (depth : Nat) (j j' : Json) (js : List Json) :
    itemsText depth (j :: j' :: js) =
      textAt depth j ++ ',' :: (newLine depth ++ itemsText depth (j' :: js)) := by
  simp [itemsText, itemsAt]

theorem membersText_cons_cons (depth : Nat) (k : Option String) (j : Json)
    (m : Option String × Json) (ms : List (Option String × Json)) :
    membersText depth ((k, j) :: m :: ms) = stringText k ++ ([':', ' '] ++
      (textAt depth j ++ ',' :: (newLine depth ++ membersText depth (m :: ms)))) := by
  simp [membersText, membersAt]

/-- No numeral begins like another value, with a blank or with a bracket. -/
theorem ne_of_numeral {c d : Char} (h : c = '-' ∨ c.isDigit = true) (hd : d.isDigit = false)
    (hminus : d ≠ '-') : c ≠ d := by
  rcases h with rfl | hc
  · exact hminus.symm
  · exact isDigit_ne hc hd

theorem isSpace_of_numeral {c : Char} (h : c = '-' ∨ c.isDigit = true) : isSpace c = false := by
  have hblank := ne_of_numeral h (d := ' ') rfl (by decide)
  have htab := ne_of_numeral h (d := '\t') rfl (by decide)
  have hline := ne_of_numeral h (d := '\n') rfl (by decide)
  have hreturn := ne_of_numeral h (d := '\r') rfl (by decide)
  simp [isSpace, hblank, htab, hline, hreturn]

theorem value?_number {c : Char} (h : c = '-' ∨ c.isDigit = true) (n : Nat) (cs : List Char) :
    value? (n + 1) (c :: cs) = (number? (c :: cs)).map fun (m, rest) => (.number m, rest) := by
  have hne : ∀ d : Char, d.isDigit = false → d ≠ '-' → c ≠ d := fun _ => ne_of_numeral h
  rw [value?, skipSpace_of_head (isSpace_of_numeral h)]
  split
  · next heq => exact absurd (List.cons.inj heq).1 (hne _ rfl (by decide))
  · next heq => exact absurd (List.cons.inj heq).1 (hne _ rfl (by decide))
  · next heq => exact absurd (List.cons.inj heq).1 (hne _ rfl (by decide))
  · next heq => exact absurd (List.cons.inj heq).1 (hne _ rfl (by decide))
  · next heq => exact absurd (List.cons.inj heq).1 (hne _ rfl (by decide))
  · next heq => exact absurd (List.cons.inj heq).1 (hne _ rfl (by decide))
  · rfl

/-- An array that does not end at once is read item by item. -/
theorem value?_array {c : Char} {cs : List Char} (h : ∃ cs', skipSpace cs = c :: cs')
    (hc : isSpace c = false) (hne : c ≠ ']') (n : Nat) :
    value? (n + 1) ('[' :: cs) = (items? n cs).map fun (items, rest) => (.array items, rest) := by
  obtain ⟨cs', h⟩ := h
  have hsame : items? n (c :: cs') = items? n cs :=
    items?_congr (by rw [h, skipSpace_of_head hc]) n
  have hskip : skipSpace ('[' :: cs) = '[' :: cs := skipSpace_of_head rfl cs
  rw [value?, hskip]
  simp only [h]
  split
  · next heq => exact absurd (List.cons.inj heq).1 hne
  · rw [hsame]

theorem value?_object {c : Char} {cs : List Char} (h : ∃ cs', skipSpace cs = c :: cs')
    (hc : isSpace c = false) (hne : c ≠ '\x7d') (n : Nat) :
    value? (n + 1) ('\x7b' :: cs) =
      (members? n cs).map fun (members, rest) => (.object members, rest) := by
  obtain ⟨cs', h⟩ := h
  have hsame : members? n (c :: cs') = members? n cs :=
    members?_congr (by rw [h, skipSpace_of_head hc]) n
  have hskip : skipSpace ('\x7b' :: cs) = '\x7b' :: cs := skipSpace_of_head rfl cs
  rw [value?, hskip]
  simp only [h]
  split
  · next heq => exact absurd (List.cons.inj heq).1 hne
  · rw [hsame]

theorem exists_stringText_cons (text : Option String) : ∃ cs, stringText text = '"' :: cs := by
  cases text with
  | some s => exact ⟨_, rfl⟩
  | none => exact ⟨_, rfl⟩

/-- No value begins with a blank or a closing bracket. -/
theorem exists_textAt_cons {j : Json} (h : j.WellFormed) (depth : Nat) :
    ∃ c cs, textAt depth j = c :: cs ∧ isSpace c = false ∧ c ≠ ']' := by
  match j with
  | null => exact ⟨'n', _, rfl, rfl, by decide⟩
  | bool true => exact ⟨'t', _, rfl, rfl, by decide⟩
  | bool false => exact ⟨'f', _, rfl, rfl, by decide⟩
  | number n =>
    rw [WellFormed] at h
    obtain ⟨c, cs, hcs, hc⟩ := exists_cons_text h
    exact ⟨c, cs, by rw [textAt, hcs], isSpace_of_numeral hc, ne_of_numeral hc rfl (by decide)⟩
  | string text =>
    obtain ⟨cs, hcs⟩ := exists_stringText_cons text
    exact ⟨'"', cs, by rw [textAt, hcs], rfl, by decide⟩
  | array [] => exact ⟨'[', _, rfl, rfl, by decide⟩
  | array (j :: js) => exact ⟨'[', _, by rw [textAt]; rfl, rfl, by decide⟩
  | object [] => exact ⟨'\x7b', _, rfl, rfl, by decide⟩
  | object ((k, j) :: ms) => exact ⟨'\x7b', _, by rw [textAt]; rfl, rfl, by decide⟩

/-! ## Items and members -/

theorem items?_last {n : Nat} {cs : List Char} {j : Json} {outer : Nat} {rest : List Char}
    (h : value? n cs = some (j, newLine outer ++ ']' :: rest)) :
    items? (n + 1) cs = some ([j], rest) := by
  have hskip : skipSpace (newLine outer ++ ']' :: rest) = ']' :: rest := by
    rw [skipSpace_newLine, skipSpace_of_head rfl]
  rw [items?, h]
  simp only [Option.bind_eq_bind, Option.bind_some, hskip]
  rfl

theorem items?_more {n : Nat} {cs cs' : List Char} {j : Json} {js : List Json} {rest : List Char}
    (h : value? n cs = some (j, ',' :: cs')) (hmore : items? n cs' = some (js, rest)) :
    items? (n + 1) cs = some (j :: js, rest) := by
  have hskip : skipSpace (',' :: cs') = ',' :: cs' := skipSpace_of_head rfl cs'
  rw [items?, h]
  simp only [Option.bind_eq_bind, Option.bind_some, hskip, hmore]
  rfl

/-- Behind a key stands the value. -/
theorem members?_key (n : Nat) (k : Option String) (cs : List Char) :
    members? (n + 1) (stringText k ++ ([':', ' '] ++ cs)) = (value? n cs).bind fun (j, cs) =>
      match skipSpace cs with
      | '\x7d' :: cs => some ([(k, j)], cs)
      | ',' :: cs => (members? n cs).bind fun (ms, rest) => some ((k, j) :: ms, rest)
      | _ => none := by
  obtain ⟨body, hbody, hread⟩ := exists_stringText k ([':', ' '] ++ cs)
  have hquote : skipSpace ('"' :: body) = '"' :: body := skipSpace_of_head rfl body
  have hcolon : skipSpace ([':', ' '] ++ cs) = ':' :: ' ' :: cs := skipSpace_of_head rfl _
  have hblank : value? n (' ' :: cs) = value? n cs :=
    value?_congr (List.dropWhile_cons_of_pos rfl) n
  rw [hbody, members?, hquote]
  simp only [hread, Option.bind_eq_bind, Option.bind_some, hcolon, hblank]
  rfl

theorem members?_last {n : Nat} {cs : List Char} {j : Json} {outer : Nat} {rest : List Char}
    (h : value? n cs = some (j, newLine outer ++ '\x7d' :: rest)) (k : Option String) :
    members? (n + 1) (stringText k ++ ([':', ' '] ++ cs)) = some ([(k, j)], rest) := by
  have hskip : skipSpace (newLine outer ++ '\x7d' :: rest) = '\x7d' :: rest := by
    rw [skipSpace_newLine, skipSpace_of_head rfl]
  rw [members?_key, h]
  simp only [Option.bind_some, hskip]

theorem members?_more {n : Nat} {cs cs' : List Char} {j : Json}
    {ms : List (Option String × Json)} {rest : List Char}
    (h : value? n cs = some (j, ',' :: cs')) (hmore : members? n cs' = some (ms, rest))
    (k : Option String) :
    members? (n + 1) (stringText k ++ ([':', ' '] ++ cs)) = some ((k, j) :: ms, rest) := by
  have hskip : skipSpace (',' :: cs') = ',' :: cs' := skipSpace_of_head rfl cs'
  rw [members?_key, h]
  simp only [Option.bind_some, hskip, hmore]

theorem stops_newLine (depth : Nat) (cs : List Char) : Stops (newLine depth ++ cs) := by
  intro c hc
  exact .inr (Option.some.inj hc).symm

theorem stops_comma (cs : List Char) : Stops (',' :: cs) := by
  intro c hc
  exact .inl (Option.some.inj hc).symm

mutual

/-- The text of a value is read back before whatever may stand behind it. -/
theorem value?_textAt (j : Json) (hj : j.WellFormed) (depth n : Nat)
    (hn : (textAt depth j).length ≤ n) (rest : List Char) (hrest : Stops rest) :
    value? n (textAt depth j ++ rest) = some (j, rest) := by
  match n with
  | 0 =>
    obtain ⟨c, cs, hcs, -⟩ := exists_textAt_cons hj depth
    rw [hcs] at hn
    simp at hn
  | n + 1 =>
    match j with
    | null => rfl
    | bool true => rfl
    | bool false => rfl
    | number m =>
      rw [WellFormed] at hj
      obtain ⟨c, cs, hcs, hc⟩ := exists_cons_text hj
      have hread := number?_text hj hrest
      rw [textAt, hcs, List.cons_append, value?_number hc, ← List.cons_append, ← hcs, hread]
      rfl
    | string text =>
      obtain ⟨cs, hcs, hread⟩ := exists_stringText text rest
      rw [textAt, hcs]
      show (string? cs).map _ = _
      rw [hread]
      rfl
    | array [] => rfl
    | array (j :: js) =>
      rw [textAt_array] at hn ⊢
      rw [WellFormed] at hj
      simp only [List.length_append, List.length_cons] at hn
      have hitems := items?_itemsText (j :: js) (List.cons_ne_nil _ _) hj (depth + 1) depth n
        (by omega) rest
      rw [← items?_congr (skipSpace_newLine (depth + 1) _)] at hitems
      obtain ⟨c, cs, hcs, hspace, hclose⟩ := exists_textAt_cons hj.1 (depth + 1)
      simp only [List.append_assoc, List.cons_append, List.nil_append]
      rw [value?_array ?_ hspace hclose, hitems]
      · rfl
      · rw [skipSpace_newLine, itemsText, hcs]
        exact ⟨_, skipSpace_of_head hspace _⟩
    | object [] => rfl
    | object ((k, j) :: ms) =>
      rw [textAt_object] at hn ⊢
      rw [WellFormed] at hj
      simp only [List.length_append, List.length_cons] at hn
      have hmembers := members?_membersText ((k, j) :: ms) (List.cons_ne_nil _ _) hj (depth + 1)
        depth n (by omega) rest
      rw [← members?_congr (skipSpace_newLine (depth + 1) _)] at hmembers
      obtain ⟨cs, hcs⟩ := exists_stringText_cons k
      have hspace : isSpace '"' = false := rfl
      simp only [List.append_assoc, List.cons_append, List.nil_append]
      rw [value?_object ?_ hspace (by decide), hmembers]
      · rfl
      · rw [skipSpace_newLine, membersText, hcs]
        exact ⟨_, skipSpace_of_head hspace _⟩

theorem items?_itemsText (items : List Json) (hne : items ≠ []) (hitems : WellFormedItems items)
    (depth outer n : Nat) (hn : (itemsText depth items).length < n) (rest : List Char) :
    items? n (itemsText depth items ++ (newLine outer ++ ']' :: rest)) = some (items, rest) := by
  match n, items with
  | 0, _ => simp at hn
  | n + 1, [] => exact absurd rfl hne
  | n + 1, [j] =>
    have hlength : (textAt depth j).length ≤ n := by
      simp [itemsText, itemsAt] at hn
      omega
    have hvalue := value?_textAt j hitems.1 depth n hlength _ (stops_newLine outer (']' :: rest))
    rw [itemsText, itemsAt, List.append_nil]
    exact items?_last hvalue
  | n + 1, j :: j' :: js =>
    rw [itemsText_cons_cons] at hn ⊢
    simp only [List.length_append, List.length_cons] at hn
    have hvalue := value?_textAt j hitems.1 depth n (by omega) _
      (stops_comma (newLine depth ++ (itemsText depth (j' :: js) ++ (newLine outer ++ ']' :: rest))))
    have hmore := items?_itemsText (j' :: js) (List.cons_ne_nil _ _) hitems.2 depth outer n
      (by omega) rest
    rw [← items?_congr (skipSpace_newLine depth _)] at hmore
    simp only [List.append_assoc, List.cons_append]
    exact items?_more hvalue hmore

theorem members?_membersText (members : List (Option String × Json)) (hne : members ≠ [])
    (hmembers : WellFormedMembers members) (depth outer n : Nat)
    (hn : (membersText depth members).length < n) (rest : List Char) :
    members? n (membersText depth members ++ (newLine outer ++ '\x7d' :: rest)) =
      some (members, rest) := by
  match n, members with
  | 0, _ => simp at hn
  | n + 1, [] => exact absurd rfl hne
  | n + 1, [(k, j)] =>
    have hlength : (textAt depth j).length ≤ n := by
      simp [membersText, membersAt] at hn
      omega
    have hvalue := value?_textAt j hmembers.1 depth n hlength _
      (stops_newLine outer ('\x7d' :: rest))
    rw [membersText, membersAt, List.append_nil]
    simp only [List.append_assoc]
    exact members?_last hvalue k
  | n + 1, (k, j) :: m :: ms =>
    rw [membersText_cons_cons] at hn ⊢
    simp only [List.length_append, List.length_cons] at hn
    have hvalue := value?_textAt j hmembers.1 depth n (by omega) _
      (stops_comma (newLine depth ++
        (membersText depth (m :: ms) ++ (newLine outer ++ '\x7d' :: rest))))
    have hmore := members?_membersText (m :: ms) (List.cons_ne_nil _ _) hmembers.2 depth outer n
      (by omega) rest
    rw [← members?_congr (skipSpace_newLine depth _)] at hmore
    simp only [List.append_assoc, List.cons_append]
    exact members?_more hvalue hmore k

end

/-- The text of a value is read as the value. -/
theorem parse?_text {j : Json} (h : j.WellFormed) : parse? j.text = some j := by
  have hvalue := value?_textAt j h 0 ((textAt 0 j).length + 1) (Nat.le_succ _) [] stops_nil
  rw [List.append_nil] at hvalue
  rw [parse?, text, String.toList_ofList, hvalue]
  rfl

end NeuralArch.Json
