import NeuralArch.Proofs.Lexing.Cut
import NeuralArch.Proofs.Syntax.Beginnings
import NeuralArch.Proofs.Syntax.Reading

/-!
# Errors stand as early as can be

A text may go wrong at a token, or it may end too soon.  The reader reports the
first token that nothing can follow any more, and the end of the text only if
the text could have gone on.  What it has taken before can always be completed.

The language of descriptions says at every place what may still come
(`Beginnings`), and the readers are asked to keep to it: `Keeps` follows a reader
from what may come before it to what may come behind it, and an error on the way
has to be `Early`.  Two readers in a row compose, since the second is asked about
what the first leaves.  Repetition stops where the next token begins no further
item, and there only the rest may come.

* `Early` — an error that stands as early as can be.
* `Keeps.bind`, `keeps_one` — the two rules all readers are made of.
* `keeps_description` — the reader of whole descriptions keeps to the language.
* `Accepted`, `accepted_iff` — the accepted sequences of tokens.
* `early_of_ofText` — the syntax error of a text is as early as can be.
-/

namespace NeuralArch.Syntax

open NeuralArch.Tree
open Token Lexing
open SyntaxError (Expected)
open scoped Computability

variable {α β : Type} {fin : Position} {l m : Language Kind} {ts us : List Token}

/-! ## Early errors -/

/-- An error that stands as early as can be, where `l` says what may come: at a token that
nothing could have made possible, or at the end of what could have gone on. -/
inductive Early (fin : Position) (l : Language Kind) (ts : List Token) (e : SyntaxError) : Prop
  | atEnd (hmore : Completable (l.leftQuotient (ts.map Token.kind))) (hpos : e.pos = fin)
  | atToken {before after : List Token} {t : Token} (hts : ts = before ++ t :: after)
      (hbefore : Completable (l.leftQuotient (before.map Token.kind)))
      (hhere : ¬ Begins (l.leftQuotient (before.map Token.kind)) t.kind) (hpos : e.pos = t.pos)

/-- An error behind something is as early as it was. -/
theorem Early.behind (before : List Token) {e : SyntaxError}
    (h : Early fin (l.leftQuotient (before.map Token.kind)) us e) :
    Early fin l (before ++ us) e := by
  cases h with
  | atEnd hmore hpos =>
    rw [← Language.leftQuotient_append, ← List.map_append] at hmore
    exact .atEnd hmore hpos
  | atToken hts hbefore hhere hpos =>
    rw [← Language.leftQuotient_append, ← List.map_append] at hbefore hhere
    exact .atToken (by rw [hts, List.append_assoc]) hbefore hhere hpos

/-- Where something may come, but not the next token, the error is here. -/
theorem early_refuse {e : Expected} (hl : Completable l)
    (hhere : ∀ t ∈ ts.head?, ¬ Begins l t.kind) : Early fin l ts (refuse fin e ts) := by
  cases ts with
  | nil => exact .atEnd hl rfl
  | cons t ts => exact .atToken (List.nil_append (t :: ts)).symm hl (hhere t rfl) rfl

/-! ## Readers that keep to a language -/

/-- The outcome of a reader that keeps to what may come. What it takes is the beginning of a
sentence of `l`, and `m` says what may follow; if it fails, the error is early. -/
inductive Keeps (fin : Position) (l : Language Kind) (ts : List Token)
    (m : α → Language Kind) : Except SyntaxError (α × List Token) → Prop
  | read {a : α} {before us : List Token} (hts : ts = before ++ us)
      (hleft : l.leftQuotient (before.map Token.kind) = m a) : Keeps fin l ts m (.ok (a, us))
  | fault {e : SyntaxError} (h : Early fin l ts e) : Keeps fin l ts m (.error e)

theorem keeps_pure (a : α) : Keeps fin l ts (fun _ => l) ((pure a : Reader α) ts) :=
  .read (List.nil_append ts).symm rfl

/-- What keeps to the language behind something keeps to the language. -/
theorem Keeps.behind {m : α → Language Kind} (before : List Token)
    {r : Except SyntaxError (α × List Token)}
    (h : Keeps fin (l.leftQuotient (before.map Token.kind)) us m r) :
    Keeps fin l (before ++ us) m r := by
  cases h with
  | read hts hleft =>
    rw [← Language.leftQuotient_append, ← List.map_append] at hleft
    exact .read (by rw [hts, List.append_assoc]) hleft
  | fault h => exact .fault (h.behind before)

theorem Keeps.early {m : α → Language Kind} {e : SyntaxError}
    (h : Keeps fin l ts m (.error e)) : Early fin l ts e := by
  cases h with
  | fault h => exact h

/-- Only what a reader leaves matters, not what it makes of what it took. -/
theorem Keeps.made {m : α → Language Kind} {n : β → Language Kind} {a : α}
    (h : Keeps fin l ts m (.ok (a, us))) (b : β) (hmade : m a = n b) :
    Keeps fin l ts n (.ok (b, us)) := by
  cases h with
  | read hts hleft => exact .read hts (hleft.trans hmade)

/-- What was read, and then something that keeps to what that left. -/
theorem Keeps.andThen {m : α → Language Kind} {n : β → Language Kind} {a : α}
    {r : Except SyntaxError (β × List Token)} (hfirst : Keeps fin l ts m (.ok (a, us)))
    (hrest : Keeps fin (m a) us n r) : Keeps fin l ts n r := by
  cases hfirst with
  | read hts hleft =>
    rw [hts]
    exact Keeps.behind _ (hleft ▸ hrest)

theorem Keeps.bind {x : Reader α} {f : α → Reader β} {m : α → Language Kind}
    {n : β → Language Kind} (hx : Keeps fin l ts m (x ts))
    (hf : ∀ a us, x ts = .ok (a, us) → Keeps fin (m a) us n (f a us)) :
    Keeps fin l ts n ((x >>= f) ts) := by
  rw [Reader.bind_apply]
  cases hr : x ts with
  | error e => exact .fault (hr ▸ hx).early
  | ok r => exact (hr ▸ hx : Keeps fin l ts m (.ok r)).andThen (hf r.1 r.2 hr)

/-- One token: where an accepted kind leads is up to the language, and no other kind may
come. -/
theorem keeps_one {e : Expected} {accept : Kind → Bool} {m : Token → Language Kind}
    (hl : Completable l)
    (haccept : ∀ t ∈ ts.head?, accept t.kind = true → l.leftQuotient [t.kind] = m t)
    (hrefuse : ∀ t ∈ ts.head?, accept t.kind = false → ¬ Begins l t.kind) :
    Keeps fin l ts m (one fin e accept ts) := by
  cases ts with
  | nil => exact .fault (early_refuse hl (by simp))
  | cons t ts =>
    rw [one]
    split
    · next h => exact .read List.singleton_append.symm (haccept t rfl h)
    · next h =>
      refine .fault (early_refuse hl fun u hu => ?_)
      obtain rfl := Option.some.inj hu
      exact hrefuse t rfl (by simpa using h)

theorem keeps_mark_of {e : Expected} {k : Kind} (hl : Completable l)
    (haccept : ∀ t ∈ ts.head?, t.kind = k → l.leftQuotient [k] = m)
    (hrefuse : ∀ t ∈ ts.head?, t.kind ≠ k → ¬ Begins l t.kind) :
    Keeps fin l ts (fun _ => m) (Tree.mark fin e k ts) := by
  refine Keeps.bind (m := fun _ => m) (keeps_one hl ?_ ?_) fun t us _ => keeps_pure _
  · intro t ht hk
    rw [beq_iff_eq] at hk
    rw [hk]
    exact haccept t ht hk
  · exact fun t ht hk => hrefuse t ht (by simpa using hk)

theorem keeps_mark {e : Expected} {k : Kind} (hm : Completable m) :
    Keeps fin (mark k * m) ts (fun _ => m) (Tree.mark fin e k ts) :=
  keeps_mark_of ((completable_mark k).mul hm) (fun _ _ _ => quotient_mark_mul k m)
    fun _ _ hne h => hne h.of_mark_mul

/-- One token out of several kinds, with something made of it. -/
theorem keeps_wrapped {e : Expected} {accept : Kind → Bool} {wrap : Token → Tree}
    (hm : Completable (oneOf accept)) (hm' : Completable m) :
    Keeps fin (oneOf accept * m) ts (fun _ => m)
      ((do let t ← one fin e accept; return wrap t : Reader Tree) ts) := by
  refine Keeps.bind (m := fun _ => m) (keeps_one (hm.mul hm') ?_ ?_) fun t us _ => keeps_pure _
  · exact fun t _ hk => quotient_oneOf_mul hk m
  · exact fun t _ hk h => by simp [h.of_oneOf_mul] at hk

/-! ## Values -/

/-- The items of a dilation list, in front of what follows the list. -/
def itemsThen (m : Language Kind) : Language Kind :=
  (mark .comma * mark .int)∗ * (mark .rsqb * m)

theorem begins_itemsThen {k : Kind} (h : Begins (itemsThen m) k) : k = .comma ∨ k = .rsqb := by
  rcases h.of_kstar_mul with hend | hround
  · exact .inr hend.of_mark_mul
  · rw [mul_assoc] at hround
    exact .inl hround.of_mark_mul

theorem quotient_itemsThen_comma (m : Language Kind) :
    (itemsThen m).leftQuotient [.comma] = mark .int * itemsThen m := by
  have hrest : ¬ Begins (mark .rsqb * m) .comma := fun h => nomatch h.of_mark_mul
  rw [itemsThen, quotient_kstar_mul_of_start hrest, mul_assoc, quotient_mark_mul]

theorem quotient_itemsThen_rsqb (m : Language Kind) :
    (itemsThen m).leftQuotient [.rsqb] = m := by
  have hround : ¬ Begins (mark .comma * mark .int * itemsThen m) .rsqb := by
    rw [mul_assoc]
    exact fun h => nomatch h.of_mark_mul
  rw [itemsThen, quotient_kstar_mul_of_stop hround, quotient_mark_mul]

theorem quotient_itemsThen_item (m : Language Kind) :
    (itemsThen m).leftQuotient [.comma, .int] = itemsThen m := by
  rw [← List.singleton_append, Language.leftQuotient_append, quotient_itemsThen_comma,
    quotient_mark_mul]

theorem completable_itemsThen (hm : Completable m) : Completable (itemsThen m) :=
  (completable_kstar _).mul ((completable_mark _).mul hm)

theorem keeps_dilationItems (hm : Completable m) :
    Keeps fin (itemsThen m) ts (fun _ => m) (dilationItems fin ts) := by
  have hitems := completable_itemsThen hm
  -- An item that has been read leaves what was there before it.
  have again : ∀ {t n : Token} {us : List Token} {r : Except SyntaxError (List Tree × List Token)},
      t.kind = .comma → n.kind = .int → Keeps fin (itemsThen m) us (fun _ => m) r →
      Keeps fin (itemsThen m) (t :: n :: us) (fun _ => m) r := by
    intro t n us r ht hn h
    refine Keeps.behind [t, n] ?_
    rwa [List.map_cons, List.map_singleton, ht, hn, quotient_itemsThen_item]
  have number : ∀ {t : Token} {us : List Token}, t.kind = .comma →
      (∀ n ∈ us.head?, n.kind ≠ .int) →
      Early fin (itemsThen m) (t :: us) (refuse fin .integer us) := by
    intro t us ht hus
    refine Early.behind [t] ?_
    rw [List.map_singleton, ht, quotient_itemsThen_comma]
    exact early_refuse ((completable_mark _).mul hitems) fun n hn h => hus n hn h.of_mark_mul
  fun_induction dilationItems fin ts with
  | case1 => exact .fault (early_refuse hitems (by simp))
  | case2 t ht => exact .fault (number ht (by simp))
  | case3 t ht n us hn e he ih => exact .fault (again ht hn (he ▸ ih)).early
  | case4 t ht n us hn items vs hvs ih => exact (again ht hn (hvs ▸ ih)).made _ rfl
  | case5 t ht n us hn =>
    refine .fault (number ht fun u hu => ?_)
    obtain rfl := Option.some.inj hu
    exact hn
  | case6 t us _ ht =>
    refine .read List.singleton_append.symm ?_
    rw [List.map_singleton, ht, quotient_itemsThen_rsqb]
  | case7 t us hcomma hbracket =>
    refine .fault (early_refuse hitems fun u hu h => ?_)
    obtain rfl := Option.some.inj hu
    exact (begins_itemsThen h).elim hcomma hbracket

theorem keeps_dilationList (hm : Completable m) :
    Keeps fin (Syntax.dilationList * m) ts (fun _ => m) (Tree.dilationList fin ts) := by
  have hitems := completable_itemsThen hm
  rw [Syntax.dilationList, mul_assoc, mul_assoc, mul_assoc]
  refine (keeps_mark ((completable_mark _).mul hitems)).bind fun lsqb us _ => ?_
  refine (keeps_mark hitems).bind fun first us _ => ?_
  exact (keeps_dilationItems hm).bind fun items us _ => keeps_pure _

theorem keeps_value (s : ValueShape) (hm : Completable m) :
    Keeps fin (Syntax.value s * m) ts (fun _ => m) (Tree.value fin s ts) := by
  cases s with
  | number => exact keeps_wrapped (completable_value .number) hm
  | padding => exact keeps_wrapped (completable_value .padding) hm
  | poolType => exact keeps_wrapped (completable_value .poolType) hm
  | activation => exact keeps_wrapped (completable_value .activation) hm
  | initializer => exact keeps_wrapped (completable_value .initializer) hm
  | dilationList => exact keeps_dilationList hm

/-! ## Parameters -/

/-- The parameters of a block, in front of its closing brace and what follows. -/
def paramsThen (b : Block) (m : Language Kind) : Language Kind :=
  (Syntax.param b)∗ * (mark .rbrace * m)

/-- What may come behind the name of a parameter. -/
def assignedThen (b : Block) (p : ParamName) (m : Language Kind) : Language Kind :=
  mark .equal * (Syntax.value p.shape * (mark .semicolon * paramsThen b m))

theorem completable_paramsThen (b : Block) (hm : Completable m) :
    Completable (paramsThen b m) :=
  (completable_kstar _).mul ((completable_mark _).mul hm)

theorem begins_paramsThen {b : Block} {k : Kind} (h : Begins (paramsThen b m) k) :
    k = .rbrace ∨ ∃ p, b.admits p = true ∧ k = .param p := by
  rcases h.of_kstar_mul with hend | hround
  · exact .inl hend.of_mark_mul
  · exact .inr hround.of_param_mul

theorem quotient_paramsThen_rbrace (b : Block) (m : Language Kind) :
    (paramsThen b m).leftQuotient [.rbrace] = m := by
  have hround : ¬ Begins (Syntax.param b * paramsThen b m) .rbrace := by
    intro h
    obtain ⟨p, -, hp⟩ := h.of_param_mul
    cases hp
  rw [paramsThen, quotient_kstar_mul_of_stop hround, quotient_mark_mul]

theorem quotient_paramsThen_param {b : Block} {p : ParamName} (h : b.admits p = true)
    (m : Language Kind) :
    (paramsThen b m).leftQuotient [.param p] = assignedThen b p m := by
  have hend : ¬ Begins (mark .rbrace * m) (.param p) := fun h => nomatch h.of_mark_mul
  rw [paramsThen, quotient_kstar_mul_of_start hend, quotient_param_mul h]
  rfl

theorem keeps_param {b : Block} (hstart : startsParam ts = true) (hm : Completable m) :
    Keeps fin (paramsThen b m) ts (fun _ => paramsThen b m) (Tree.param fin b ts) := by
  have hparams := completable_paramsThen b hm
  refine Keeps.bind (m := fun name => mark .equal * (Syntax.value (name.kind.shape?.getD .number) *
    (mark .semicolon * paramsThen b m))) (keeps_one hparams ?_ ?_) fun name us _ => ?_
  · intro t _ hadmits
    obtain ⟨p, hp, hadmits⟩ := admits_iff.1 hadmits
    rw [hp, quotient_paramsThen_param hadmits, shape?_param]
    rfl
  · -- The closing brace is no name, and the names are the admitted ones.
    intro t ht hrefused h
    rcases begins_paramsThen h with hend | ⟨p, hadmits, hp⟩
    · rw [startsParam, Option.mem_def.1 ht, Option.any_some, hend] at hstart
      cases hstart
    · rw [admits_iff.2 ⟨p, hp, hadmits⟩] at hrefused
      cases hrefused
  · have hsemicolon := (completable_mark .semicolon).mul hparams
    refine (keeps_mark ((completable_value _).mul hsemicolon)).bind fun equals us _ => ?_
    refine (keeps_value _ hsemicolon).bind fun v us _ => ?_
    exact (keeps_mark hparams).bind fun semicolon us _ => keeps_pure _

theorem keeps_params {b : Block} (hm : Completable m) :
    Keeps fin (paramsThen b m) ts (fun _ => paramsThen b m) (Tree.params fin b ts) := by
  have hparam : ∀ {ts : List Token}, startsParam ts = true →
      Keeps fin (paramsThen b m) ts (fun _ => paramsThen b m) (Tree.param fin b ts) :=
    fun hstart => keeps_param hstart hm
  fun_induction Tree.params fin b ts with
  | case1 ts hstart e he =>
    have hfirst := hparam hstart
    exact .fault (he ▸ hfirst).early
  | case2 ts hstart first us hread _ e he ih =>
    have hfirst := hparam hstart
    rw [hread] at hfirst
    exact .fault (hfirst.andThen (he ▸ ih)).early
  | case3 ts hstart first us hread _ rest vs hrest ih =>
    have hfirst := hparam hstart
    rw [hread] at hfirst
    rw [hrest] at ih
    exact (hfirst.andThen ih).made _ rfl
  | case4 ts => exact keeps_pure []

/-- Where repetition has stopped, only the closing brace may come. -/
theorem keeps_rbrace {b : Block} {e : Expected} (hstop : startsParam ts = false)
    (hm : Completable m) :
    Keeps fin (paramsThen b m) ts (fun _ => m) (Tree.mark fin e .rbrace ts) := by
  refine keeps_mark_of (completable_paramsThen b hm)
    (fun _ _ _ => quotient_paramsThen_rbrace b m) fun t ht hne h => ?_
  rcases begins_paramsThen h with hend | ⟨p, -, hp⟩
  · exact hne hend
  · rw [startsParam, Option.mem_def.1 ht, Option.any_some, hp] at hstop
    cases hstop

/-! ## Blocks -/

/-- What may come behind the head of a block. -/
def bracesThen (b : Block) (m : Language Kind) : Language Kind :=
  mark .lbrace * paramsThen b m

theorem completable_bracesThen (b : Block) (hm : Completable m) :
    Completable (bracesThen b m) :=
  (completable_mark _).mul (completable_paramsThen b hm)

theorem block_mul (b : Block) (m : Language Kind) : block b * m = head b * bracesThen b m := by
  rw [block, mul_assoc, mul_assoc, mul_assoc]
  rfl

theorem keeps_braces {b : Block} {e e' : Expected} {wrap : Tree → List Tree → Tree → Tree}
    (hm : Completable m) :
    Keeps fin (bracesThen b m) ts (fun _ => m)
      ((do
        let lbrace ← Tree.mark fin e .lbrace
        let ps ← Tree.params fin b
        let rbrace ← Tree.mark fin e' .rbrace
        return wrap lbrace ps rbrace : Reader Tree) ts) := by
  refine (keeps_mark (completable_paramsThen b hm)).bind fun lbrace us _ => ?_
  refine Keeps.bind (keeps_params hm) fun ps vs hps => ?_
  exact (keeps_rbrace (params_eq_ok_iff.1 hps).2.2 hm).bind fun rbrace us _ => keeps_pure _

/-- The input and the output block, wherever their keyword leads into the braces. -/
theorem keeps_endBlock {e : Expected} {keyword : Kind} {kind : NodeKind} {b : Block}
    (hl : Completable l) (hkeyword : l.leftQuotient [keyword] = bracesThen b m)
    (hrefuse : ∀ t ∈ ts.head?, t.kind ≠ keyword → ¬ Begins l t.kind) (hm : Completable m) :
    Keeps fin l ts (fun _ => m) (Tree.endBlock fin e keyword kind b ts) :=
  (keeps_mark_of hl (fun _ _ _ => hkeyword) hrefuse).bind fun _ _ _ => keeps_braces hm

theorem keeps_inputBlock (hm : Completable m) :
    Keeps fin (block .input * m) ts (fun _ => m) (Tree.inputBlock fin ts) := by
  rw [block_mul]
  exact keeps_endBlock ((completable_head .input).mul (completable_bracesThen _ hm))
    (quotient_mark_mul _ _) (fun _ _ hne h => hne h.of_mark_mul) hm

/-- The hidden blocks, in front of the output block and what follows. -/
def blocksThen (m : Language Kind) : Language Kind :=
  (block .hidden)∗ * (block .output * m)

theorem completable_blocksThen (hm : Completable m) : Completable (blocksThen m) :=
  (completable_kstar _).mul ((completable_block _).mul hm)

theorem begins_blocksThen {k : Kind} (h : Begins (blocksThen m) k) :
    k = .output ∨ k.layer?.isSome = true := by
  rcases h.of_kstar_mul with hend | hround
  · rw [block_mul] at hend
    exact .inl hend.of_mark_mul
  · rw [block_mul] at hround
    exact .inr hround.of_oneOf_mul

theorem quotient_blocksThen_output (m : Language Kind) :
    (blocksThen m).leftQuotient [.output] = bracesThen .output m := by
  have hround : ¬ Begins (block .hidden * blocksThen m) .output := by
    rw [block_mul]
    exact fun h => nomatch h.of_oneOf_mul
  rw [blocksThen, quotient_kstar_mul_of_stop hround, block_mul]
  exact quotient_mark_mul _ _

theorem quotient_blocksThen_layer {k : Kind} (h : k.layer?.isSome = true) (m : Language Kind) :
    (blocksThen m).leftQuotient [k] = bracesThen .hidden (blocksThen m) := by
  have hend : ¬ Begins (block .output * m) k := by
    rw [block_mul]
    intro hbegins
    rw [hbegins.of_mark_mul] at h
    cases h
  rw [blocksThen, quotient_kstar_mul_of_start hend, block_mul]
  exact quotient_oneOf_mul h _

theorem keeps_hiddenBlock (hstart : startsLayer ts = true) (hm : Completable m) :
    Keeps fin (blocksThen m) ts (fun _ => blocksThen m) (Tree.hiddenBlock fin ts) := by
  have hblocks := completable_blocksThen hm
  refine Keeps.bind (m := fun _ => bracesThen .hidden (blocksThen m))
    (keeps_one hblocks ?_ ?_) fun type us _ => keeps_braces hblocks
  · exact fun t _ ht => quotient_blocksThen_layer ht m
  · intro t ht hrefused
    rw [startsLayer, Option.mem_def.1 ht, Option.any_some, hrefused] at hstart
    cases hstart

theorem keeps_hiddenBlocks (hm : Completable m) :
    Keeps fin (blocksThen m) ts (fun _ => blocksThen m) (Tree.hiddenBlocks fin ts) := by
  have hblock : ∀ {ts : List Token}, startsLayer ts = true →
      Keeps fin (blocksThen m) ts (fun _ => blocksThen m) (Tree.hiddenBlock fin ts) :=
    fun hstart => keeps_hiddenBlock hstart hm
  fun_induction Tree.hiddenBlocks fin ts with
  | case1 ts hstart e he =>
    have hfirst := hblock hstart
    exact .fault (he ▸ hfirst).early
  | case2 ts hstart first us hread _ e he ih =>
    have hfirst := hblock hstart
    rw [hread] at hfirst
    exact .fault (hfirst.andThen (he ▸ ih)).early
  | case3 ts hstart first us hread _ rest vs hrest ih =>
    have hfirst := hblock hstart
    rw [hread] at hfirst
    rw [hrest] at ih
    exact (hfirst.andThen ih).made _ rfl
  | case4 ts => exact keeps_pure []

/-- Where repetition has stopped, only the output block may come. -/
theorem keeps_outputBlock (hstop : startsLayer ts = false) (hm : Completable m) :
    Keeps fin (blocksThen m) ts (fun _ => m) (Tree.outputBlock fin ts) := by
  refine keeps_endBlock (completable_blocksThen hm) (quotient_blocksThen_output m) ?_ hm
  intro t ht hne h
  rcases begins_blocksThen h with hend | hlayer
  · exact hne hend
  · rw [startsLayer, Option.mem_def.1 ht, Option.any_some, hlayer] at hstop
    cases hstop

/-! ## Descriptions -/

theorem description_eq : description =
    mark .neuralnet * (mark .lbrace * (block .input * blocksThen (mark .rbrace * 1))) := by
  rw [mul_one]
  rfl

/-- Behind a description nothing may come. -/
theorem keeps_description : Keeps fin description ts (fun _ => 1) (Tree.description fin ts) := by
  have hend : Completable (mark .rbrace * 1) := (completable_mark _).mul completable_one
  have hblocks := completable_blocksThen hend
  rw [description_eq]
  refine (keeps_mark ((completable_mark _).mul
    ((completable_block .input).mul hblocks))).bind fun neuralnet us _ => ?_
  refine (keeps_mark ((completable_block .input).mul hblocks)).bind fun lbrace us _ => ?_
  refine (keeps_inputBlock hblocks).bind fun input us _ => ?_
  refine Keeps.bind (keeps_hiddenBlocks hend) fun hidden us hhidden => ?_
  refine (keeps_outputBlock (hiddenBlocks_eq_ok_iff.1 hhidden).2.2 hend).bind
    fun output us _ => ?_
  exact (keeps_mark completable_one).bind fun rbrace us _ => keeps_pure _

theorem early_ofTokens {e : SyntaxError} (h : Tree.ofTokens fin ts = .error e) :
    Early fin description ts e := by
  have hkeeps : Keeps fin description ts (fun _ => 1) (Tree.description fin ts) :=
    keeps_description
  rw [Tree.ofTokens] at h
  split at h
  · next hread =>
    rw [Except.error.injEq] at h
    exact h ▸ (hread ▸ hkeeps).early
  · cases h
  · next extra us hread =>
    rw [hread] at hkeeps
    rw [Except.error.injEq] at h
    refine h ▸ (hkeeps.andThen (n := fun _ : Unit => 1) (.fault ?_)).early
    refine early_refuse completable_one ?_
    rintro t - ⟨ks, hks⟩
    cases hks

/-! ## Accepted sequences -/

/-- A sequence of kinds with their characters that some accepted text is cut into. -/
def Accepted (ws : List (Kind × String)) : Prop :=
  ∃ text ts, Token.ofText text = .ok ts ∧ ts.map unplaced = ws ∧
    ∃ tree, Tree.ofText text = .ok tree

/-- Words in a row, each behind a blank. -/
def spacedOut (ws : List (Kind × String)) : List Char := ws.flatMap fun w => ' ' :: w.2.toList

theorem isStop_head_spacedOut (ws : List (Kind × String)) :
    ∀ c ∈ (spacedOut ws).head?, IsStop c := by
  cases ws with
  | nil => simp [spacedOut]
  | cons w ws =>
    intro c hc
    obtain rfl := Option.some.inj hc
    exact .inl rfl

theorem exists_ofTextAt_spacedOut {ws : List (Kind × String)}
    (h : ∀ w ∈ ws, w.2.toList ∈ pattern w.1) (p : Position) :
    ∃ ts, ofTextAt p (spacedOut ws) = .ok ts ∧ ts.map unplaced = ws := by
  induction ws generalizing p with
  | nil => exact ⟨[], ofTextAt_gap p [], rfl⟩
  | cons w ws ih =>
    rw [List.forall_mem_cons] at h
    have hblank : ' ' ∈ separators := List.mem_cons_self ..
    obtain ⟨ts, hts, hwords⟩ := ih h.2 ((p.after [' ']).after w.2.toList)
    refine ⟨_, ofTextAt_word (g := [.separator ' ' hblank]) h.1 (isStop_head_spacedOut ws) hts, ?_⟩
    rw [List.map_cons, hwords, unplaced, String.ofList_toList]

/-- A sequence is accepted when each of its words fits its kind and the kinds are a sentence. -/
theorem accepted_iff {ws : List (Kind × String)} :
    Accepted ws ↔ (∀ w ∈ ws, w.2.toList ∈ pattern w.1) ∧ ws.map Prod.fst ∈ description := by
  constructor
  · rintro ⟨text, ts, hts, rfl, tree, htree⟩
    obtain ⟨hshape, htokens⟩ := ofText_eq_ok_iff.1 htree
    obtain rfl : ts = tree.tokens := Except.ok.inj (hts.symm.trans htokens)
    refine ⟨fun w hw => ?_, ?_⟩
    · obtain ⟨t, ht, rfl⟩ := List.mem_map.1 hw
      exact fits_of_ofText hts t ht
    · rw [List.map_map]
      exact (spells_description _).2 ⟨tree, hshape, rfl⟩
  · rintro ⟨hfits, hsentence⟩
    obtain ⟨ts, hts, rfl⟩ := exists_ofTextAt_spacedOut hfits Position.start
    rw [List.map_map] at hsentence
    obtain ⟨tree, hshape, rfl⟩ := (spells_description ts).1 hsentence
    have htokens : Token.ofText (String.ofList (spacedOut (tree.tokens.map unplaced))) =
        .ok tree.tokens := by
      rwa [Token.ofText, String.toList_ofList]
    exact ⟨_, _, htokens, rfl, tree, ofText_eq_ok_iff.2 ⟨hshape, htokens⟩⟩

/-- Some text of a kind. -/
def sample (k : Kind) : String := k.spelling?.getD (if k = .int then "0" else "0.0")

theorem sample_mem_pattern (k : Kind) : (sample k).toList ∈ pattern k := by
  have hdigits : "0".toList ∈ digits := rfl
  have hinteger : "0".toList ∈ integer :=
    Language.append_mem_mul (nil_mem_optional _) hdigits
  cases hs : k.spelling? with
  | some s =>
    rw [sample, hs]
    exact (mem_pattern_of_spelling? hs).2 rfl
  | none =>
    rw [sample, pattern, hs]
    by_cases hk : k = .int
    · rw [if_pos hk, if_pos hk]
      exact hinteger
    · rw [if_neg hk, if_neg hk]
      have hfraction : ".0".toList ∈ fraction :=
        Language.append_mem_mul (a := ['.']) ⟨'.', rfl, rfl⟩ hdigits
      exact .inl (Language.append_mem_mul hinteger
        (Language.append_mem_mul hfraction (nil_mem_optional _)))

/-- Tokens go on to an accepted sequence as soon as their kinds go on to a sentence. -/
theorem exists_accepted_iff {ts : List Token} (hfits : ∀ t ∈ ts, Fits t) :
    (∃ more, Accepted (ts.map unplaced ++ more)) ↔
      Completable (description.leftQuotient (ts.map Token.kind)) := by
  constructor
  · rintro ⟨more, haccepted⟩
    have hsentence := (accepted_iff.1 haccepted).2
    rw [List.map_append, List.map_map] at hsentence
    exact ⟨_, hsentence⟩
  · rintro ⟨ks, hks⟩
    refine ⟨ks.map fun k => (k, sample k), accepted_iff.2 ⟨?_, ?_⟩⟩
    · rw [List.forall_mem_append, List.forall_mem_map, List.forall_mem_map]
      exact ⟨hfits, fun k _ => sample_mem_pattern k⟩
    · rw [List.map_append, List.map_map, List.map_map, List.map_id'']
      · exact hks
      · exact fun _ => rfl

/-! ## Whole texts -/

/-- A text that is cut into tokens but has no tree goes wrong as early as can be.  Either its
tokens are the beginning of an accepted sequence that is longer, and the error stands right behind
the last byte; or it stands at a token where the tokens before go on to an accepted sequence, but
not with this one. -/
theorem early_of_ofText {text : String} {ts : List Token} {e : SyntaxError}
    (hts : Token.ofText text = .ok ts) (he : Tree.ofText text = .error e) :
    ((∃ more, more ≠ [] ∧ Accepted (ts.map unplaced ++ more)) ∧
      e.pos = placeBehind text.toList) ∨
    ∃ before t after, ts = before ++ t :: after ∧ e.pos = t.pos ∧
      (∃ more, Accepted (before.map unplaced ++ more)) ∧
      ∀ more, ¬ Accepted ((before ++ [t]).map unplaced ++ more) := by
  have hfits := fits_of_ofText hts
  have hread : Tree.ofTokens (placeBehind text.toList) ts = .error e := by
    rw [Tree.ofText, hts, after_start] at he
    exact he
  cases early_ofTokens hread with
  | atEnd hmore hpos =>
    obtain ⟨more, haccepted⟩ := (exists_accepted_iff hfits).2 hmore
    refine .inl ⟨⟨more, ?_, haccepted⟩, hpos⟩
    -- The tokens alone are no sentence, or there would be a tree.
    rintro rfl
    rw [List.append_nil] at haccepted
    have hsentence := (accepted_iff.1 haccepted).2
    rw [List.map_map] at hsentence
    obtain ⟨tree, hshape, rfl⟩ := (spells_description ts).1 hsentence
    rw [ofTokens_eq_ok_iff.2 ⟨hshape, rfl⟩] at hread
    cases hread
  | @atToken before after t hsplit hbefore hhere hpos =>
    subst hsplit
    rw [List.forall_mem_append, List.forall_mem_cons] at hfits
    refine .inr ⟨before, t, after, rfl, hpos, (exists_accepted_iff hfits.1).2 hbefore, ?_⟩
    intro more haccepted
    have hhereFits : ∀ u ∈ before ++ [t], Fits u := by
      rw [List.forall_mem_append, List.forall_mem_singleton]
      exact ⟨hfits.1, hfits.2.1⟩
    obtain ⟨ks, hks⟩ := (exists_accepted_iff hhereFits).1 ⟨more, haccepted⟩
    rw [List.map_append, Language.leftQuotient_append] at hks
    exact hhere ⟨ks, hks⟩

/-- An output block may hold no dilation list, so its name is wrong here. -/
def misplacedList : String :=
  "neuralnet \x7b input \x7b\x7d\noutput \x7b units = 1; dilations = [1,"

/-- A dilation list that could go on. -/
def unendedList : String := "neuralnet \x7b input \x7b\x7d\nconv1d \x7b dilations = [1,"

theorem early_dilationLists :
    (∃ ts e, Token.ofText misplacedList = .ok ts ∧ Tree.ofText misplacedList = .error e ∧
      ∃ before t after, ts = before ++ t :: after ∧ e.pos = ⟨2, 21⟩ ∧ e.pos = t.pos ∧
        (∃ more, Accepted (before.map unplaced ++ more)) ∧
        ∀ more, ¬ Accepted ((before ++ [t]).map unplaced ++ more)) ∧
    ∃ ts e, Token.ofText unendedList = .ok ts ∧ Tree.ofText unendedList = .error e ∧
      (∃ more, more ≠ [] ∧ Accepted (ts.map unplaced ++ more)) ∧ e.pos = ⟨2, 25⟩ := by
  constructor
  · have hcut : (Token.ofText misplacedList).toOption.isSome = true := by decide +kernel
    have hplace : (match Tree.ofText misplacedList with
      | .error e => e.pos == ⟨2, 21⟩
      | .ok _ => false) = true := by decide +kernel
    have hend : placeBehind misplacedList.toList = ⟨2, 36⟩ := by decide +kernel
    cases hts : Token.ofText misplacedList with
    | error e => rw [hts] at hcut; cases hcut
    | ok ts =>
      cases he : Tree.ofText misplacedList with
      | ok tree => rw [he] at hplace; cases hplace
      | error e =>
        rw [he, beq_iff_eq] at hplace
        rcases early_of_ofText hts he with ⟨-, hpos⟩ | ⟨before, t, after, hsplit, hpos, hgo, hstop⟩
        · rw [hplace, hend] at hpos
          cases hpos
        · exact ⟨ts, e, rfl, rfl, before, t, after, hsplit, hplace, hpos, hgo, hstop⟩
  · have hcut : (Token.ofText unendedList).toOption.any
        (fun ts => ts.all (·.pos != ⟨2, 25⟩)) = true := by decide +kernel
    have hplace : (match Tree.ofText unendedList with
      | .error e => e.pos == ⟨2, 25⟩
      | .ok _ => false) = true := by decide +kernel
    cases hts : Token.ofText unendedList with
    | error e => rw [hts] at hcut; cases hcut
    | ok ts =>
      cases he : Tree.ofText unendedList with
      | ok tree => rw [he] at hplace; cases hplace
      | error e =>
        rw [he, beq_iff_eq] at hplace
        rcases early_of_ofText hts he with ⟨hmore, -⟩ | ⟨before, t, after, rfl, hpos, -⟩
        · exact ⟨ts, e, rfl, rfl, hmore, hplace⟩
        · rw [hts] at hcut
          have hne := List.all_eq_true.1 hcut t (by simp)
          rw [← hpos, hplace] at hne
          cases hne

end NeuralArch.Syntax
