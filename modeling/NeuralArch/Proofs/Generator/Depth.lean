import NeuralArch.Proofs.Generator.Derivation
import NeuralArch.Proofs.Generator.Termination

/-!
# How deep self-recursion goes

A symbol that is expanded by its alternatives refers to itself only below the
bound.  A strategy does not look at the bound: an alternative of its item that
refers to the item goes one level deeper, wherever the strategy stands.  So the
bound is exceeded at most by the number of such strategies that stand inside
one another, and it is kept where none of them can be reached.

* `FlatItems` — no strategy that can be reached has an item that refers to
  itself; `Nesting` — a measure of how they stand inside one another.
* `symbol_bounded` — the depth that a run reaches, by induction on the descent.
* `deepest_le` — the greatest depth that an expansion counts.
-/

namespace NeuralArch.Generator

open Relation

/-- No strategy that can be reached from a symbol has an item that refers to itself. -/
def FlatItems (g : Generator) (name : String) : Prop :=
  ∀ x plan r p, ReflTransGen (LeadsTo g) name x → g.config.strategies[x]? = some plan →
    g.grammar.rule? plan.item = some r → p ∈ r.productions → .symbol plan.item ∉ p.elements

/-- A rank that does not grow on the way from a symbol, and falls from a strategy to its item
where the item refers to itself. -/
structure Nesting (g : Generator) (name : String) (rank : String → Nat) : Prop where
  leadsTo : ∀ {x y}, ReflTransGen (LeadsTo g) name x → LeadsTo g x y → rank y ≤ rank x
  item : ∀ {x plan r p}, ReflTransGen (LeadsTo g) name x →
    g.config.strategies[x]? = some plan → g.grammar.rule? plan.item = some r →
    p ∈ r.productions → .symbol plan.item ∈ p.elements → rank plan.item < rank x

variable {g : Generator} {name : String} {rank : String → Nat}

theorem FlatItems.nesting (h : g.FlatItems name) : Nesting g name fun _ => 0 where
  leadsTo _ _ := Nat.le_refl 0
  item hx hplan hrule hp hself := absurd hself (h _ _ _ _ hx hplan hrule hp)

theorem Nesting.of_leadsTo (h : Nesting g name rank) {y : String} (hy : LeadsTo g name y) :
    Nesting g y rank where
  leadsTo hx := h.leadsTo (.head hy hx)
  item hx := h.item (.head hy hx)

section

variable {σ : Type} {s t : State σ} {patience maxDepth depth limit n : Nat}
  {param : Option String}

/-- The depth that is counted stays within a limit. -/
def Bounded (limit : Nat) (s t : State σ) : Prop :=
  s.stats.deepest ≤ limit → t.stats.deepest ≤ limit

theorem passes_bounded (limit : Nat) : Passes (Bounded limit : State σ → State σ → Prop) where
  refl _ h := h
  trans h h' hs := h' (h hs)
  draw _ _ h := h

variable [RandomSource σ] {expand : String → Nat → Option String → Expand σ Unit}
  {self : String}

/-- Elements stay within a limit, if their own symbol leads no deeper than that, and each symbol
stays within it at its depth. -/
theorem bounded_elements {es : List Element} (hself : .symbol self ∈ es → depth + 1 ≤ limit)
    (hexpand : ∀ y, .symbol y ∈ es → ∀ below, g.depthInside? self depth y = some below →
      ∀ param, Relates (Bounded limit) (expand y below param)) :
    Relates (Bounded limit) (elements g patience expand self depth param es) := by
  refine (passes_bounded limit).elements fun e he s t hrun hs => ?_
  cases hrun with
  | literal | word | value => exact hs
  | self hbelow hrun =>
    have hle := (le_of_next? hbelow).trans (hself he)
    rw [← depthInside?_self self] at hbelow
    exact hexpand _ he _ hbelow param _ _ _ hrun (Nat.max_le.2 ⟨hs, hle⟩)
  | other hne hrun => exact hexpand _ he _ (depthInside?_of_ne hne) param _ _ _ hrun hs

/-- A symbol leaves room within a limit: its rank, on top of the bound and of the depth. -/
structure Fits (g : Generator) (rank : String → Nat) (maxDepth limit : Nat) (name : String)
    (depth : Nat) : Prop where
  nesting : Nesting g name rank
  bound : maxDepth + rank name ≤ limit
  depth : depth + rank name ≤ limit

/-- A run stays within a limit that its symbol, if it has a rule, leaves room within. -/
theorem symbol_bounded (hbuilt : g.grammar.Built) (n : Nat) : ∀ name depth param,
    ((g.grammar.rule? name).isSome = true → Fits g rank maxDepth limit name depth) →
    Relates (Bounded limit) (symbol g patience maxDepth n name depth param : Expand σ Unit) := by
  induction n with
  | zero =>
    intro name depth param _ s a t h
    cases h
  | succ n ih =>
    intro name depth param hfits s a t h hs
    cases symbol_symbolRun h with
    | undefined => exact hs
    | truncated => exact hs
    | @strategy r plan t hrule hplan hrun =>
      obtain ⟨hnesting, hbound, hdepth⟩ := hfits (by rw [hrule]; rfl)
      refine (passes_bounded limit).strategy (fun r' hr' p hp => ?_) s () t hrun hs
      -- The item is one level deeper where it refers to itself, but then its rank is lower.
      have hfalls : .symbol plan.item ∈ p.elements → rank plan.item < rank name :=
        hnesting.item .refl hplan hr' hp
      refine bounded_elements (fun hself => ?_) fun y hy below hbelow param =>
        ih y below param fun htarget => ?_
      · have hlt := hfalls hself
        omega
      · have hleads : LeadsTo g name y := .item hplan hr' hp hy htarget
        have hrank := hnesting.leadsTo .refl hleads
        refine ⟨hnesting.of_leadsTo hleads, by omega, ?_⟩
        by_cases hself : y = plan.item
        · subst hself
          rw [depthInside?_self] at hbelow
          have hle := le_of_next? hbelow
          have hlt := hfalls hy
          omega
        · rw [depthInside?_of_ne hself] at hbelow
          obtain rfl := Option.some.inj hbelow
          omega
    | @alternative r i p source t layerType hrule hplan hp hchoice hrun hlayer =>
      have hfit := hfits (by rw [hrule]; rfl)
      obtain ⟨hnesting, hbound, hdepth⟩ := hfit
      have hbelow := lt_of_symbol_mem hbuilt hrule hp hchoice
      have hmem := List.mem_of_getElem? hp
      refine bounded_elements (fun hself => ?_) (fun y hy below hinside param =>
        ih y below param fun htarget => ?_) _ () t hrun hs
      · have hlt := hbelow hself
        omega
      · by_cases hself : y = name
        · subst hself
          rw [depthInside?_self] at hinside
          have hle := le_of_next? hinside
          have hlt := hbelow hy
          exact ⟨hnesting, hbound, by omega⟩
        · have hleads : LeadsTo g name y := .alternative hplan hrule hmem hy hself htarget
          have hrank := hnesting.leadsTo .refl hleads
          rw [depthInside?_of_ne hself] at hinside
          obtain rfl := Option.some.inj hinside
          exact ⟨hnesting.of_leadsTo hleads, by omega, by omega⟩

end

/-! ## Expansions -/

/-- An expansion counts no depth beyond the bound where no strategy that it can reach has an item
that refers to itself; and otherwise no more beyond it than such strategies stand inside one
another. -/
theorem deepest_le {σ : Type} [RandomSource σ] (hbuilt : g.grammar.Built) (limits : Limits)
    (maxDepth : UInt64) (source rest : σ) (e : Expansion)
    (h : g.expand limits name 0 maxDepth source = .ok (.done (e, rest))) :
    (g.FlatItems name → e.stats.deepest ≤ maxDepth.toNat) ∧
      ∀ rank, Nesting g name rank → e.stats.deepest ≤ maxDepth.toNat + rank name := by
  obtain ⟨t, hrun, hfinish⟩ := expand_eq_done h
  cases hfinish
  have hrank : ∀ rank, Nesting g name rank → t.stats.deepest ≤ maxDepth.toNat + rank name := by
    intro rank hnesting
    have hstart : (0 : UInt64).toNat + rank name ≤ maxDepth.toNat + rank name :=
      Nat.add_le_add_right (Nat.zero_le _) _
    exact symbol_bounded hbuilt _ name _ none (fun _ => ⟨hnesting, Nat.le_refl _, hstart⟩)
      _ () t hrun (Nat.zero_le _)
  exact ⟨fun hflat => hrank _ hflat.nesting, hrank⟩

/-- A generator with two lists: the items of one refer to themselves, those of the other do
not. -/
def twoLists : Generator :=
  { ofGrammar (Grammar.ofAlternatives [("list", ["<item>"]), ("row", ["<cell>"]),
      ("cell", ["\"cell\"", "<item>"]), ("item", ["\"deeper\"", "<item>"]),
      ("item", ["\"end\""])]) with
    config := { Config.standard with
      strategies := Std.ExtTreeMap.ofList
        [("list", Strategy.allRequired "item"), ("row", Strategy.allRequired "cell")] } }

theorem strategies_twoLists {x : String} {plan : Strategy}
    (h : twoLists.config.strategies[x]? = some plan) :
    (x = "list" ∧ plan = .allRequired "item") ∨ (x = "row" ∧ plan = .allRequired "cell") := by
  have hall : ∀ e ∈ twoLists.config.strategies.toList,
      (e.1 = "list" ∧ e.2 = .allRequired "item") ∨ (e.1 = "row" ∧ e.2 = .allRequired "cell") := by
    decide
  exact hall (x, plan) (Std.ExtTreeMap.mem_toList_iff_getElem?_eq_some.2 h)

/-- What the alternatives refer to. -/
theorem symbols_twoLists {x y : String} {r : Rule} {p : Production}
    (hrule : twoLists.grammar.rule? x = some r) (hp : p ∈ r.productions)
    (hy : .symbol y ∈ p.elements) : y = "item" ∨ (x = "row" ∧ y = "cell") := by
  have hall : ∀ rule ∈ twoLists.grammar.rules.toList, ∀ p ∈ rule.2.productions,
      ∀ e ∈ p.elements, (match e with
        | .symbol y => y == "item" || (rule.1 == "row" && y == "cell")
        | _ => true) = true := by
    decide
  have hedge := hall _ (Std.ExtTreeMap.mem_toList_iff_getElem?_eq_some.2 hrule) _ hp _ hy
  simpa using hedge

theorem leadsTo_twoLists {x y : String} (h : LeadsTo twoLists x y) : y = "item" := by
  cases h with
  | alternative hplan hrule hp hy _ _ =>
    rcases symbols_twoLists hrule hp hy with rfl | ⟨rfl, rfl⟩
    · rfl
    · exact absurd hplan (by decide)
  | item hplan hrule hp hy _ =>
    rcases symbols_twoLists hrule hp hy with rfl | ⟨hitem, rfl⟩
    · rfl
    · rcases strategies_twoLists hplan with ⟨-, rfl⟩ | ⟨-, rfl⟩
      · exact absurd hitem (by decide)
      · exact absurd hitem (by decide)

theorem nesting_twoLists (name : String) :
    Nesting twoLists name fun x => if x = "list" then 1 else 0 where
  leadsTo _ h := by
    rw [leadsTo_twoLists h]
    exact Nat.zero_le _
  item _ hplan hrule hp hself := by
    rcases strategies_twoLists hplan with ⟨rfl, rfl⟩ | ⟨rfl, rfl⟩
    · decide
    · rcases symbols_twoLists hrule hp hself with h | ⟨h, -⟩
      · exact absurd h (by decide)
      · exact absurd h (by decide)

theorem flatItems_twoLists : twoLists.FlatItems "row" := by
  intro x plan r p hx hplan hrule hp hself
  have hname : x = "row" ∨ x = "item" := by
    cases hx with
    | refl => exact .inl rfl
    | tail _ h => exact .inr (leadsTo_twoLists h)
  rcases strategies_twoLists hplan with ⟨rfl, -⟩ | ⟨-, rfl⟩
  · exact absurd hname (by decide)
  · rcases symbols_twoLists hrule hp hself with h | ⟨h, -⟩
    · exact absurd h (by decide)
    · exact absurd h (by decide)

theorem deepest_le_twoLists :
    (∃ e rest, twoLists.expand ⟨8, 8⟩ "row" 0 2 (WordSource.ofWords [0, 0, 0]) =
        .ok (.done (e, rest)) ∧ e.stats.selfRecursions = 2 ∧ e.stats.deepest ≤ 2) ∧
      ∃ e rest, twoLists.expand ⟨8, 8⟩ "list" 0 2 (WordSource.ofWords [0, 0, 0]) =
        .ok (.done (e, rest)) ∧ e.stats.selfRecursions = 2 ∧ e.stats.deepest ≤ 2 + 1 := by
  have hbuilt : twoLists.grammar.Built := Grammar.built_ofAlternatives _
  have hrow : (done? (twoLists.expand ⟨8, 8⟩ "row" 0 2 (WordSource.ofWords [0, 0, 0]))).any
      (fun r => r.1.stats.selfRecursions == 2) = true := by
    decide +kernel
  have hlist : (done? (twoLists.expand ⟨8, 8⟩ "list" 0 2 (WordSource.ofWords [0, 0, 0]))).any
      (fun r => r.1.stats.selfRecursions == 2) = true := by
    decide +kernel
  obtain ⟨⟨e, rest⟩, h, hcount⟩ := exists_done_of_any hrow
  obtain ⟨⟨e', rest'⟩, h', hcount'⟩ := exists_done_of_any hlist
  exact ⟨⟨e, rest, h, eq_of_beq hcount, (deepest_le hbuilt _ _ _ _ e h).1 flatItems_twoLists⟩,
    e', rest', h', eq_of_beq hcount', (deepest_le hbuilt _ _ _ _ e' h').2 _
      (nesting_twoLists "list")⟩

/-- Where the items of a list refer to themselves, the bound is not kept. -/
theorem deepest_gt_twoLists :
    ∃ e rest, twoLists.expand ⟨8, 8⟩ "list" 0 0 (WordSource.ofWords []) =
      .ok (.done (e, rest)) ∧ ¬ e.stats.deepest ≤ 0 := by
  have hrun : (done? (twoLists.expand ⟨8, 8⟩ "list" 0 0 (WordSource.ofWords []))).any
      (fun r => r.1.stats.deepest == 1) = true := by
    decide +kernel
  obtain ⟨⟨e, rest⟩, h, hdeepest⟩ := exists_done_of_any hrun
  have hone : e.stats.deepest = 1 := eq_of_beq hdeepest
  exact ⟨e, rest, h, by omega⟩

end NeuralArch.Generator
