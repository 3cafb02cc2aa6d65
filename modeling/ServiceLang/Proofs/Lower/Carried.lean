import Mathlib.Data.List.Forall2
import Mathlib.Data.Option.Basic

/-!
Two computations that fail together.

`Carries g P x y` says of two computations with failures that both fail, or that `x` comes
to something with the property `P` and `y` to its image under `g`.  It holds of sequences,
maps and folds if it holds of their steps.  `Agree R x y` is the same of a relation between
the results.
-/

namespace ServiceLang

/-- Both fail, or the first comes to something with the property and the second to its image. -/
inductive Carries {ε α β : Type} (g : α → β) (P : α → Prop) : Except ε α → Except ε β → Prop
  | ok {a : α} : P a → Carries g P (.ok a) (.ok (g a))
  | error (e e' : ε) : Carries g P (.error e) (.error e')

/-- Both fail, or both come to related things. -/
inductive Agree {ε α β : Type} (R : α → β → Prop) : Except ε α → Except ε β → Prop
  | ok {a : α} {b : β} : R a b → Agree R (.ok a) (.ok b)
  | error (e e' : ε) : Agree R (.error e) (.error e')

namespace Carries

variable {ε α β γ δ : Type} {g : α → β} {k : γ → δ} {P : α → Prop} {Q : γ → Prop}
  {x : Except ε α} {y : Except ε β}

theorem refl (x : Except ε α) : Carries id (fun _ => True) x x := by
  cases x with
  | error e => exact .error e e
  | ok a => exact .ok trivial

/-- What has an image comes to something. -/
theorem exists_of_ok {b : β} (h : Carries g P x (.ok b)) : ∃ a, x = .ok a ∧ b = g a := by
  generalize hy : Except.ok b = y at h
  cases h with
  | error => cases hy
  | ok ha =>
    cases hy
    exact ⟨_, rfl, rfl⟩

/-- The image of what something comes to. -/
theorem eq_of_ok {a : α} (h : Carries g P (.ok a) y) : y = .ok (g a) := by
  generalize hx : Except.ok a = x at h
  cases h with
  | error => cases hx
  | ok =>
    cases hx
    rfl

theorem agree_map {R : γ → δ → Prop} {h : α → γ} {h' : β → δ} (hxy : Carries g P x y)
    (hR : ∀ a, P a → R (h a) (h' (g a))) : Agree R (x.map h) (y.map h') := by
  cases hxy with
  | error e e' => exact .error e e'
  | ok ha => exact .ok (hR _ ha)

theorem map {h : α → γ} {h' : β → δ} (hxy : Carries g P x y)
    (hk : ∀ a, P a → h' (g a) = k (h a) ∧ Q (h a)) : Carries k Q (x.map h) (y.map h') := by
  cases hxy with
  | error e e' => exact .error e e'
  | @ok a ha =>
    obtain ⟨heq, hq⟩ := hk a ha
    show Carries k Q (.ok (h a)) (.ok (h' (g a)))
    rw [heq]
    exact .ok hq

theorem bind {u : α → Except ε γ} {u' : β → Except ε δ} (hxy : Carries g P x y)
    (hu : ∀ a, P a → Carries k Q (u a) (u' (g a))) : Carries k Q (x >>= u) (y >>= u') := by
  cases hxy with
  | error e e' => exact .error e e'
  | ok ha => exact hu _ ha

theorem mapM {σ τ : Type} {u : σ → Except ε α} {u' : τ → Except ε β} {ss : List σ} {ts : List τ}
    (h : List.Forall₂ (fun s t => Carries g P (u s) (u' t)) ss ts) :
    Carries (List.map g) (fun as => ∀ a ∈ as, P a) (ss.mapM u) (ts.mapM u') := by
  induction h with
  | nil => exact .ok nofun
  | cons hst _ ih =>
    rw [List.mapM_cons, List.mapM_cons]
    refine hst.bind fun a ha => ih.bind fun as has => ?_
    exact .ok (a := a :: as) (List.forall_mem_cons.2 ⟨ha, has⟩)

/-- What is carried by every step is carried by the whole fold. -/
theorem foldlM {σ τ : Type} {R : σ → τ → Prop} {u : α → σ → Except ε α} {u' : β → τ → Except ε β}
    {ss : List σ} {ts : List τ} (h : List.Forall₂ R ss ts)
    (hu : ∀ a s t, P a → R s t → Carries g P (u a s) (u' (g a) t)) {a : α} (ha : P a) :
    Carries g P (ss.foldlM u a) (ts.foldlM u' (g a)) := by
  induction h generalizing a with
  | nil => exact .ok ha
  | cons hst _ ih =>
    rw [List.foldlM_cons, List.foldlM_cons]
    exact (hu a _ _ ha hst).bind fun a' ha' => ih ha'

end Carries

end ServiceLang
