import ServiceLang.Proofs.Lower.Place

/-!
Lowering that fails only where a documented check does.

`x.Meets P` says that `x` has come to something with the property `P`, or to the defect of a
check that has really failed (`Defect.IsDocumented`).  It holds of sequences, maps and folds
if it holds of their steps (`Meets.bind` and below), so each function is treated once and is
never opened again.
-/

namespace ServiceLang

/-- One of the checks of lowering has failed.  `malformed` is none of them. -/
def Defect.IsDocumented : Defect → Prop
  | breakerNotWhole key value =>
    (key = "threshold" ∨ key = "max_concurrent") ∧ Decimal.isInteger value = false
  | breakerNotNumber key value =>
    (key = "threshold" ∨ key = "max_concurrent") ∧ MainGrammar.signedNumber? value = none
  | notWhole _ => True
  | unknownRequestSource word => RequestSource.ofName? word = none
  | concurrencyOnWorkflow => True
  | retryNeedsDuration key => key = "initial_interval" ∨ key = "max_interval"
  | retryNeedsNumber key => key = "max_attempts" ∨ key = "backoff_coefficient"
  | malformed _ => False

/-- The outcome is something with the property `P`, or an error with the property `E`. -/
def Meets {ε α : Type} (E : ε → Prop) (P : α → Prop) : Except ε α → Prop
  | .ok a => P a
  | .error e => E e

namespace Meets

variable {ε α β : Type} {E : ε → Prop} {P : α → Prop} {Q : β → Prop}

theorem imp {x : Except ε α} {P' : α → Prop} (h : Meets E P x) (hp : ∀ a, P a → P' a) : Meets E P' x := by
  cases x with
  | error e => exact h
  | ok a => exact hp a h

theorem map {x : Except ε α} {f : α → β} (h : Meets E P x) (hf : ∀ a, P a → Q (f a)) :
    Meets E Q (x.map f) := by
  cases x with
  | error e => exact h
  | ok a => exact hf a h

theorem bind {x : Except ε α} {f : α → Except ε β} (h : Meets E P x) (hf : ∀ a, P a → Meets E Q (f a)) :
    Meets E Q (do let a ← x; f a) := by
  cases x with
  | error e => exact h
  | ok a => exact hf a h

theorem mapM {f : α → Except ε β} {xs : List α} (h : ∀ x ∈ xs, Meets E Q (f x)) :
    Meets E (fun ys => ∀ y ∈ ys, Q y) (xs.mapM f) := by
  induction xs with
  | nil => exact fun y hy => by cases hy
  | cons x xs ih =>
    rw [List.mapM_cons]
    refine bind (h x List.mem_cons_self) fun y hy => ?_
    refine bind (ih fun z hz => h z (List.mem_cons_of_mem x hz)) fun ys hys => ?_
    intro z hz
    rcases List.mem_cons.1 hz with rfl | hz
    · exact hy
    · exact hys z hz

/-- A fold meets what every step keeps. -/
theorem foldlM {f : β → α → Except ε β} {xs : List α} {b : β} (hb : Q b)
    (h : ∀ b, Q b → ∀ x ∈ xs, Meets E Q (f b x)) : Meets E Q (xs.foldlM f b) := by
  induction xs generalizing b with
  | nil => exact hb
  | cons x xs ih =>
    rw [List.foldlM_cons]
    exact bind (h b hb x List.mem_cons_self) fun b' hb' =>
      ih hb' fun c hc y hy => h c hc y (List.mem_cons_of_mem x hy)

end Meets

/-- What is lowered has the property, or a documented check has failed. -/
abbrev Lowered.Meets {α : Type} (x : Lowered α) (P : α → Prop) : Prop :=
  ServiceLang.Meets (fun d : Located Defect => d.cause.IsDocumented) P x

end ServiceLang
