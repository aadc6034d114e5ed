import Mathlib.Data.List.Nodup
import NeuralArch.Generator.Subset
import NeuralArch.Proofs.Random.Draw

/-!
# Which parameters a layer gets

The chosen indices are ascending, each is admitted, and there are as many as the
bounds ask for.  The anchor is among them.  Whatever the bounds are, no draw
faults on the way.

* `Chosen` — what holds of chosen indices.
* `gives_chooseSubset` — it holds of what is drawn.
-/

namespace NeuralArch.Generator

open Draw

/-- Ascending indices out of the available ones, in a number from `low` to `high`, with the
anchor among them. -/
structure Chosen (available : List Nat) (anchor : Option Nat) (low high : Nat) (is : List Nat) :
    Prop where
  ascending : is.Pairwise (· < ·)
  admitted : ∀ i ∈ is, i ∈ available
  low_le : low ≤ is.length
  le_high : is.length ≤ high
  anchored : is ≠ [] → ∀ a ∈ anchor, a ∈ is

/-! ## Looking up indices -/

theorem length_filterMap_getElem? {l is : List Nat} (h : ∀ i ∈ is, i < l.length) :
    (is.filterMap (l[·]?)).length = is.length := by
  induction is with
  | nil => rfl
  | cons i is ih =>
    have hi := h i (List.mem_cons_self ..)
    rw [List.filterMap_cons_some (List.getElem?_eq_getElem hi), List.length_cons,
      ih fun j hj => h j (List.mem_cons_of_mem _ hj), List.length_cons]

theorem nodup_filterMap_getElem? {l is : List Nat} (hl : l.Nodup) (his : is.Nodup) :
    (is.filterMap (l[·]?)).Nodup := by
  refine his.filterMap fun i j a hi hj => ?_
  obtain ⟨hi, rfl⟩ := List.getElem?_eq_some_iff.1 (Option.mem_def.1 hi)
  obtain ⟨hj, heq⟩ := List.getElem?_eq_some_iff.1 (Option.mem_def.1 hj)
  exact hl.getElem_inj_iff.1 heq.symm

theorem pairwise_mergeSort_lt {l : List Nat} (h : l.Nodup) :
    l.mergeSort.Pairwise (· < ·) := by
  have hle : l.mergeSort.Pairwise fun a b => decide (a ≤ b) = true :=
    List.pairwise_mergeSort (by simp; omega) (by simp; omega) l
  have hne : l.mergeSort.Pairwise (· ≠ ·) := (List.mergeSort_perm l _).nodup_iff.2 h
  refine (hle.and hne).imp fun hab => ?_
  have := of_decide_eq_true hab.1
  omega

/-! ## Choosing -/

variable {σ : Type} [RandomSource σ]

theorem admitted_nodup (g : Generator) (layerType : Option String) (ps : List Production) :
    (g.admitted layerType ps).Nodup :=
  List.nodup_range.filter _

theorem length_pool {available : List Nat} (h : available.Nodup) {a : Nat} (ha : a ∈ available) :
    (available.filter (· != a)).length + 1 = available.length := by
  rw [← h.erase_eq_filter, List.length_erase_of_mem ha]
  have := List.length_pos_of_mem ha
  omega

/-- What is drawn from: the available indices but the anchor. -/
theorem exists_pool (patience : Nat) {available : List Nat} (h : available.Nodup)
    {anchor : Option Nat} (hanchor : ∀ a ∈ anchor, a ∈ available) (count : Nat) :
    ∃ pool : List Nat,
      (chooseIndices patience available anchor count : Draw σ (List Nat)) =
        (if count < anchor.toList.length then Draw.fail .negativeCount
        else do
          let wanted := Nat.min (count - anchor.toList.length) pool.length
          let drawn ← Draw.indices patience pool.length wanted
          return (anchor.toList ++ drawn.filterMap (pool[·]?)).mergeSort) ∧
      pool.Nodup ∧ (∀ i ∈ pool, i ∈ available) ∧ (∀ a ∈ anchor, a ∉ pool) ∧
      pool.length + anchor.toList.length = available.length := by
  cases anchor with
  | none => exact ⟨available, rfl, h, fun _ hi => hi, by simp, by simp⟩
  | some a =>
    refine ⟨available.filter (· != a), rfl, h.filter _,
      fun i hi => (List.mem_filter.1 hi).1, ?_, ?_⟩
    · intro b hb hmem
      obtain rfl := Option.some.inj hb
      simpa using (List.mem_filter.1 hmem).2
    · exact length_pool h (hanchor a rfl)

theorem gives_chooseIndices (patience : Nat) {available : List Nat} (h : available.Nodup)
    {anchor : Option Nat} (hanchor : ∀ a ∈ anchor, a ∈ available) {count : Nat}
    (hcount : 0 < count) (hle : count ≤ available.length) :
    (chooseIndices patience available anchor count : Draw σ (List Nat)).Gives
      (Chosen available anchor count count) := by
  obtain ⟨pool, hchoose, hnodup, hsubset, hnot, hlength⟩ :=
    @exists_pool σ _ patience available h anchor hanchor count
  have htoList : anchor.toList.length ≤ 1 := by cases anchor <;> simp
  rw [hchoose, if_neg (by omega)]
  dsimp only
  have hwanted : Nat.min (count - anchor.toList.length) pool.length =
      count - anchor.toList.length := Nat.min_eq_left (by omega)
  rw [hwanted]
  refine (gives_indices patience (by omega)).bind fun drawn hdrawn => gives_pure ?_
  have hmem : ∀ i ∈ drawn.filterMap (pool[·]?), i ∈ pool := by
    intro i hi
    obtain ⟨j, -, hj⟩ := List.mem_filterMap.1 hi
    exact List.mem_of_getElem? hj
  have hall : (anchor.toList ++ drawn.filterMap (pool[·]?)).Nodup := by
    refine List.nodup_append.2 ⟨by cases anchor <;> simp,
      nodup_filterMap_getElem? hnodup hdrawn.nodup, fun a ha b hb => ?_⟩
    intro hab
    exact hnot a (by simpa using ha) (hmem a (hab ▸ hb))
  have hcounted : (anchor.toList ++ drawn.filterMap (pool[·]?)).mergeSort.length = count := by
    rw [List.length_mergeSort, List.length_append, length_filterMap_getElem? hdrawn.lt,
      hdrawn.length_eq]
    omega
  refine ⟨pairwise_mergeSort_lt hall, fun i hi => ?_, Nat.le_of_eq hcounted.symm,
    Nat.le_of_eq hcounted, fun _ a ha => ?_⟩
  · rw [List.mem_mergeSort, List.mem_append, Option.mem_toList] at hi
    rcases hi with hi | hi
    · exact hanchor i hi
    · exact hsubset i (hmem i hi)
  · rw [List.mem_mergeSort, List.mem_append, Option.mem_toList]
    exact .inl ha

theorem mem_of_anchor? {g : Generator} {layerType : Option String} {ps : List Production}
    {available : List Nat} {a : Nat} (h : g.anchor? layerType ps available = some a) :
    a ∈ available ∧ ∃ layer param, layerType = some layer ∧
      g.config.anchors[layer]? = some param ∧
      (ps[a]?.bind Production.paramName?) = some param := by
  unfold anchor? at h
  cases layerType with
  | none => simp at h
  | some layer =>
    cases hparam : g.config.anchors[layer]? with
    | none => simp [hparam] at h
    | some param =>
      simp only [Option.bind_eq_bind, Option.bind_some, hparam] at h
      refine ⟨List.mem_of_find?_eq_some h, layer, param, rfl, hparam, ?_⟩
      simpa using List.find?_some h

/-- The chosen indices are ascending and admitted, as many as the bounds ask for, with the
anchor among them. -/
theorem gives_chooseSubset (g : Generator) (patience : Nat) (layerType : Option String)
    (ps : List Production) (min max : Nat) :
    (g.chooseSubset patience layerType ps min max : Draw σ (List Nat)).Gives
      (Chosen (g.admitted layerType ps)
        (g.anchor? layerType ps (g.admitted layerType ps))
        (Nat.min min (Nat.min max (g.admitted layerType ps).length))
        (Nat.min max (g.admitted layerType ps).length)) := by
  have hhigh : Nat.min max (g.admitted layerType ps).length ≤
      (g.admitted layerType ps).length := Nat.min_le_right _ _
  unfold chooseSubset
  dsimp only
  generalize Nat.min max (g.admitted layerType ps).length = high at hhigh ⊢
  have hlow : Nat.min min high ≤ high := Nat.min_le_right _ _
  generalize Nat.min min high = low at hlow ⊢
  refine (gives_below patience .word (Nat.succ_pos _)).bind fun extra hextra => ?_
  split
  · next hzero =>
    refine gives_pure ⟨.nil, by simp, ?_, Nat.zero_le _, fun h => absurd rfl h⟩
    rw [List.length_nil]
    omega
  · next hcount =>
    refine (gives_chooseIndices patience (admitted_nodup g layerType ps)
      (fun a ha => (mem_of_anchor? ha).1) (Nat.pos_of_ne_zero hcount) ?_).mono fun is his => ?_
    · omega
    · have hlower := his.low_le
      have hupper := his.le_high
      exact ⟨his.ascending, his.admitted, by omega, by omega, his.anchored⟩

end NeuralArch.Generator
