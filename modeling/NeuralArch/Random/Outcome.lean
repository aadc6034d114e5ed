/-!
# Outcomes of random computations

A random computation is done with a value, stops at a fault, or does not come
to an end within the bounds it was given: a draw that keeps rejecting what the
source offers ends as `undrawn`, an expansion that keeps descending as
`unfinished`. The four cases stay apart, so a statement can say which of them
it excludes.
-/

namespace NeuralArch

/-- A step that cannot be taken. -/
inductive Fault
  /-- A draw from a range without members. -/
  | emptyRange
  /-- A draw from a range of floats whose length is infinite. -/
  | infiniteRange
  /-- A chance that is no number. -/
  | notAProbability
  /-- An alternative that its rule does not have. -/
  | noSuchAlternative
  /-- A count that would fall below zero. -/
  | negativeCount
  /-- More distinct indices than there are. -/
  | tooManyIndices
  /-- A part of a text that begins outside the text or inside a character. -/
  | sliceOutside
  /-- A depth that no word holds. -/
  | depthOverflow
deriving DecidableEq, Repr

/-- How a random computation ends. -/
inductive Outcome (α : Type)
  | done (a : α)
  | fault (f : Fault)
  /-- No offer of the source was accepted. -/
  | undrawn
  /-- The expansion was still descending. -/
  | unfinished
deriving DecidableEq, Repr

namespace Outcome

/-- Goes on with a value, if there is one. -/
def andThen {α β : Type} (x : Outcome α) (f : α → Outcome β) : Outcome β :=
  match x with
  | done a => f a
  | fault e => fault e
  | undrawn => undrawn
  | unfinished => unfinished

instance : Monad Outcome where
  pure := done
  bind := andThen

@[simp] theorem done_bind {α β : Type} (a : α) (f : α → Outcome β) : (done a >>= f) = f a := rfl

@[simp] theorem fault_bind {α β : Type} (e : Fault) (f : α → Outcome β) :
    (fault e >>= f) = fault e := rfl

@[simp] theorem undrawn_bind {α β : Type} (f : α → Outcome β) :
    ((undrawn : Outcome α) >>= f) = undrawn := rfl

@[simp] theorem unfinished_bind {α β : Type} (f : α → Outcome β) :
    ((unfinished : Outcome α) >>= f) = unfinished := rfl

instance : LawfulMonad Outcome :=
  LawfulMonad.mk' Outcome
    (fun x => by cases x <;> rfl)
    (fun _ _ => rfl)
    (fun x _ _ => by cases x <;> rfl)

/-- A computation goes on to a value exactly when its first part has one. -/
theorem bind_eq_done {α β : Type} {x : Outcome α} {f : α → Outcome β} {b : β} :
    (x >>= f) = done b ↔ ∃ a, x = done a ∧ f a = done b := by
  cases x <;> simp

end Outcome

end NeuralArch
