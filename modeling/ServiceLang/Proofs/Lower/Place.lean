import Mathlib.Data.List.Forall2
import ServiceLang.Parse.Program

/-!
Where lowered statements stand.

A statement of main text is positioned where its node starts, and it is no
endpoint.  A flow is positioned where its declaration starts; an endpoint at its
declaration or at the keyword inside it.  Declarations that are built part by part
keep the position with which they begin, which is one lemma about folds.
-/

namespace ServiceLang

open Peg

/-- What every step of a fold keeps, the whole fold keeps. -/
theorem Lowered.foldlM_keeps {α β : Type} (P : β → Prop) (f : β → α → Lowered β) (xs : List α)
    (b b' : β) (hf : ∀ b, ∀ x ∈ xs, ∀ b', f b x = .ok b' → P b → P b')
    (h : xs.foldlM f b = .ok b') (hb : P b) : P b' := by
  induction xs generalizing b with
  | nil => cases h; exact hb
  | cons x xs ih =>
    rw [List.foldlM_cons] at h
    cases hx : f b x with
    | error e => rw [hx] at h; cases h
    | ok b1 =>
      rw [hx] at h
      exact ih b1 (fun b y hy => hf b y (List.mem_cons_of_mem x hy)) h
        (hf b x List.mem_cons_self b1 hx hb)

/-- Mapping with failures, if nothing fails. -/
theorem forall₂_of_mapM {α β ε : Type} {f : α → Except ε β} {xs : List α} {ys : List β}
    (h : xs.mapM f = .ok ys) : List.Forall₂ (fun x y => f x = .ok y) xs ys := by
  induction xs generalizing ys with
  | nil => cases h; exact .nil
  | cons x xs ih =>
    rw [List.mapM_cons] at h
    cases hx : f x with
    | error e => rw [hx] at h; cases h
    | ok y =>
      cases hxs : xs.mapM f with
      | error e => rw [hx, hxs] at h; cases h
      | ok zs =>
        rw [hx, hxs] at h
        cases h
        exact .cons hx (ih hxs)

theorem exists_partner {α β : Type} {P : α → β → Prop} {xs : List α} {ys : List β}
    (h : List.Forall₂ P xs ys) {y : β} (hy : y ∈ ys) : ∃ x ∈ xs, P x y := by
  induction h with
  | nil => cases hy
  | @cons a b xs ys hab _ ih =>
    rcases List.mem_cons.1 hy with rfl | hy
    · exact ⟨a, List.mem_cons_self, hab⟩
    · obtain ⟨x, hx, hp⟩ := ih hy
      exact ⟨x, List.mem_cons_of_mem a hx, hp⟩

theorem map_eq_ok {α β ε : Type} {f : α → β} {x : Except ε α} {b : β}
    (h : x.map f = .ok b) : ∃ a, x = .ok a ∧ f a = b := by
  cases x with
  | error e => cases h
  | ok a => cases h; exact ⟨a, rfl, rfl⟩

/-- What is found to come out comes out. -/
theorem exists_ok_of_isSome {ε α : Type} {x : Except ε α} (h : x.toOption.isSome) : ∃ a, x = .ok a := by
  cases x with
  | error e => cases h
  | ok a => exact ⟨a, rfl⟩

/-- What is found to come out with some property comes out. -/
theorem exists_ok_of_any {ε α : Type} {x : Except ε α} {f : α → Bool} (h : x.toOption.any f) :
    ∃ a, x = .ok a ∧ f a := by
  cases x with
  | error e => cases h
  | ok a => exact ⟨a, rfl, h⟩

theorem Lowered.bind_eq_ok {α β : Type} {f : α → Lowered β} {x : Lowered α} {b : β}
    (h : (do let a ← x; f a) = .ok b) : ∃ a, x = .ok a ∧ f a = .ok b := by
  cases x with
  | error e => cases h
  | ok a => exact ⟨a, rfl, h⟩

namespace MainGrammar

variable {place : Nat → Position} {t : ParseTree Rule}

/-! ## Declarations of main text -/

theorem lowerConfig_pos {c : Config} (h : lowerConfig place t = .ok c) : c.pos = place t.offset := by
  obtain ⟨properties, -, h⟩ := Lowered.bind_eq_ok h
  cases h
  rfl

theorem lowerAuth_pos {a : Auth} (h : lowerAuth place t = .ok a) : a.pos = place t.offset := by
  obtain ⟨properties, -, h⟩ := Lowered.bind_eq_ok h
  cases h
  rfl

theorem lowerPropertyBlock_pos {b : PropertyBlock} (h : lowerPropertyBlock place t = .ok b) :
    b.pos = place t.offset := by
  obtain ⟨properties, -, h⟩ := Lowered.bind_eq_ok h
  cases h
  rfl

theorem addIntegrationPart_pos {i j : Integration} {part : ParseTree Rule}
    (h : addIntegrationPart place i part = .ok j) : j.pos = i.pos := by
  unfold addIntegrationPart at h
  split at h
  · obtain ⟨a, -, h⟩ := Lowered.bind_eq_ok h
    cases h; rfl
  · obtain ⟨b, -, h⟩ := Lowered.bind_eq_ok h
    cases h; rfl
  · obtain ⟨p, -, h⟩ := Lowered.bind_eq_ok h
    split at h <;> (cases h; rfl)
  · cases h; rfl

theorem lowerIntegration_pos {i : Integration} (h : lowerIntegration place t = .ok i) :
    i.pos = place t.offset :=
  Lowered.foldlM_keeps (·.pos = place t.offset) _ _ _ i
    (fun _ _ _ _ hb hp => (addIntegrationPart_pos hb).trans hp) h rfl

theorem addWebhookProperty_pos (w : Webhook) (p : Property) : (addWebhookProperty w p).pos = w.pos := by
  unfold addWebhookProperty
  split
  · rfl
  · rfl
  · split <;> rfl
  · rfl

theorem lowerWebhook_pos {w : Webhook} (h : lowerWebhook place t = .ok w) :
    w.pos = place t.offset := by
  have keeps : ∀ (properties : List Property) (w : Webhook),
      (properties.foldl addWebhookProperty w).pos = w.pos := by
    intro properties
    induction properties with
    | nil => intro w; rfl
    | cons p properties ih => intro w; rw [List.foldl_cons, ih, addWebhookProperty_pos]
  obtain ⟨properties, -, h⟩ := Lowered.bind_eq_ok h
  cases h
  exact keeps properties _

/-! ## Statements of main text -/

/-- The statement stands where the node starts, and it is no endpoint. -/
def StandsAt (place : Nat → Position) (offset : Nat) (s : Stmt) : Prop :=
  s.pos = place offset ∧ Source.isEndpoint s = false

theorem standsAt_of_declaration {s : Stmt} (h : lowerDeclaration? place t = some (.ok s)) :
    StandsAt place t.offset s := by
  have map : ∀ {α : Type} {f : α → Stmt} {x : Lowered α}, some (f <$> x) = some (.ok s) →
      ∃ a, x = .ok a ∧ f a = s := fun h => map_eq_ok (Option.some.inj h)
  unfold lowerDeclaration? at h
  split at h
  · obtain ⟨c, hc, rfl⟩ := map h
    exact ⟨lowerConfig_pos hc, rfl⟩
  · cases h; exact ⟨rfl, rfl⟩
  · obtain ⟨a, ha, rfl⟩ := map h
    exact ⟨lowerAuth_pos ha, rfl⟩
  · obtain ⟨r, hr, rfl⟩ := map h
    exact ⟨lowerPropertyBlock_pos hr, rfl⟩
  · obtain ⟨m, hm, rfl⟩ := map h
    exact ⟨lowerPropertyBlock_pos hm, rfl⟩
  · cases h; exact ⟨rfl, rfl⟩
  · cases h; exact ⟨rfl, rfl⟩
  · obtain ⟨i, hi, rfl⟩ := map h
    exact ⟨lowerIntegration_pos hi, rfl⟩
  · obtain ⟨w, hw, rfl⟩ := map h
    exact ⟨lowerWebhook_pos hw, rfl⟩
  · cases h

theorem standsAt_of_assembleStmt {rule : Rule} {offset : Nat} {parts : List StmtPart} {s : Stmt}
    (h : assembleStmt (place offset) rule parts = some s) : StandsAt place offset s := by
  unfold assembleStmt at h
  dsimp only at h
  split at h
  · cases h; exact ⟨rfl, rfl⟩
  · obtain ⟨e, -, rfl⟩ := Option.map_eq_some_iff.1 h
    exact ⟨rfl, rfl⟩
  · obtain ⟨e, -, rfl⟩ := Option.map_eq_some_iff.1 h
    exact ⟨rfl, rfl⟩
  · split at h
    · cases h; exact ⟨rfl, rfl⟩
    · cases h
  · split at h
    · cases h; exact ⟨rfl, rfl⟩
    · cases h
  · obtain ⟨b, -, rfl⟩ := Option.map_eq_some_iff.1 h
    exact ⟨rfl, rfl⟩
  · cases h; exact ⟨rfl, rfl⟩
  · cases h; exact ⟨rfl, rfl⟩
  · split at h
    · cases h; exact ⟨rfl, rfl⟩
    · cases h
  · cases h

/-- A statement of main text stands where its node starts. -/
theorem standsAt_of_lowerStmt {s : Stmt} (h : lowerStmt place t = .ok s) :
    StandsAt place t.offset s := by
  obtain ⟨rule, start, stop, children⟩ := t
  unfold lowerStmt at h
  split at h
  · next declaration hd =>
    rw [h] at hd
    exact standsAt_of_declaration hd
  · split at h
    · cases h
    split at h
    · next hs => cases h; exact standsAt_of_assembleStmt hs
    · cases h

end MainGrammar

/-! ## Flows -/

namespace FlowGrammar

variable {place : Nat → Position} {t : ParseTree Rule}

theorem addFlowPart_pos {isJob : Bool} {j k : Job} {part : ParseTree Rule}
    (h : addFlowPart place isJob j part = .ok k) : k.flow.pos = j.flow.pos := by
  unfold addFlowPart at h
  dsimp only at h
  split at h
  · cases h; rfl
  · obtain ⟨trigger, -, rfl⟩ := map_eq_ok h
    rfl
  · cases h; rfl
  · cases h; rfl
  · split at h
    · cases h
    split at h
    · obtain ⟨n, -, rfl⟩ := map_eq_ok h
      rfl
    · cases h
  · obtain ⟨r, -, rfl⟩ := map_eq_ok h
    rfl
  · obtain ⟨a, -, rfl⟩ := map_eq_ok h
    rfl
  · obtain ⟨p, -, rfl⟩ := map_eq_ok h
    rfl
  · cases h; rfl

theorem lowerParts_pos {isJob : Bool} {j : Job} (h : lowerParts place isJob t = .ok j) :
    j.flow.pos = place t.offset :=
  Lowered.foldlM_keeps (·.flow.pos = place t.offset) _ _ _ j
    (fun _ _ _ _ hb hp => (addFlowPart_pos hb).trans hp) h rfl

/-- A flow stands where its declaration starts, and is a workflow or a job. -/
theorem lowerFlow_pos {s : Stmt} (h : lowerFlow place t = .ok s) :
    s.pos = place t.offset ∧ ((∃ f, s = .workflow f) ∨ ∃ j, s = .job j) := by
  unfold lowerFlow at h
  split at h
  · obtain ⟨j, hj, rfl⟩ := map_eq_ok h
    exact ⟨lowerParts_pos hj, .inl ⟨_, rfl⟩⟩
  · obtain ⟨j, hj, rfl⟩ := map_eq_ok h
    exact ⟨lowerParts_pos hj, .inr ⟨_, rfl⟩⟩
  · cases h

end FlowGrammar

/-! ## Endpoints -/

namespace EndpointGrammar

variable {place : Nat → Position} {t : ParseTree Rule}

theorem addPart_pos {e f : Endpoint} {part : ParseTree Rule} (h : addPart place e part = .ok f) :
    f.pos = e.pos ∨ part.rule = .word .endpoint ∧ f.pos = place part.offset := by
  unfold addPart at h
  split at h
  · cases h; exact .inl rfl
  · next hr => cases h; exact .inr ⟨hr, rfl⟩
  · cases h; exact .inl rfl
  · cases h; exact .inl rfl
  · cases h; exact .inl rfl
  · cases h; exact .inl rfl
  · cases h; exact .inl rfl
  · cases h; exact .inl rfl
  · obtain ⟨r, -, rfl⟩ := map_eq_ok h
    exact .inl rfl
  · obtain ⟨r, -, rfl⟩ := map_eq_ok h
    exact .inl rfl
  · cases h; exact .inl rfl
  · cases h; exact .inl rfl

/-- An endpoint stands where its declaration starts, or at a keyword inside it. -/
theorem lowerEndpoint_pos {e : Endpoint} (h : lowerEndpoint place t = .ok e) :
    e.pos = place t.offset ∨
      ∃ part ∈ t.children, part.rule = .word .endpoint ∧ e.pos = place part.offset := by
  refine Lowered.foldlM_keeps (fun e => e.pos = place t.offset ∨
    ∃ part ∈ t.children, part.rule = .word .endpoint ∧ e.pos = place part.offset) _ _ _ e ?_ h
    (.inl rfl)
  intro e part hpart f hf hp
  rcases addPart_pos hf with hpos | ⟨hr, hpos⟩
  · rw [hpos]; exact hp
  · exact .inr ⟨part, hpart, hr, hpos⟩

end EndpointGrammar

end ServiceLang
