import ServiceLang.Proofs.Lower.Place

/-!
What is written in webhooks and circuit breakers.

A webhook keeps what is written in it if its fields hold the literals under their keys and
its properties are all the others, in their order (`Webhook.Keeps`).  With distinct keys
it does just if the fields are given literals of their kind (`Webhook.keeps_iff`); any
other value of a field is lost.  A circuit breaker has no place but for its three settings
(`CircuitBreaker.reflects_iff`), and of several circuit breakers an integration has the last
(`exists_of_lowerIntegration`).
-/

namespace ServiceLang

open Peg MainGrammar

/-- A field that only the properties with one key set is set by such a property, if there is
no other with the key. -/
theorem foldl_field {σ β : Type} {set : σ → Property → σ} {field : σ → β} {key : String}
    (hother : ∀ s p, p.key ≠ key → field (set s p) = field s) {written : List Property}
    (hdistinct : (written.map Property.key).Nodup) {p : Property} (hp : p ∈ written)
    (hkey : p.key = key) {value : β} (hset : ∀ s, field (set s p) = value) (s : σ) :
    field (written.foldl set s) = value := by
  obtain ⟨before, after, rfl⟩ := List.append_of_mem hp
  have keep (after : List Property) (h : key ∉ after.map Property.key) (s : σ) :
      field (after.foldl set s) = field s := by
    induction after generalizing s with
    | nil => rfl
    | cons q after ih =>
      rw [List.map_cons, List.mem_cons, not_or] at h
      rw [List.foldl_cons, ih h.2, hother s q (Ne.symm h.1)]
  rw [List.map_append, List.map_cons, hkey] at hdistinct
  have behind := (List.nodup_cons.1 (List.nodup_append.1 hdistinct).2.1).1
  rw [List.foldl_append, List.foldl_cons, keep after behind, hset]

/-! ## Webhooks -/

namespace Webhook

/-- The keys that a webhook has fields for. -/
def keys : List String := ["url", "secret", "events"]

/-- The webhook has all that is written: the literals of its fields, and the other
properties as they are. -/
structure Keeps (w : Webhook) (written : List Property) : Prop where
  url : ∀ p ∈ written, p.key = "url" → ∃ url, p.value.string? = some url ∧ w.url = some url
  secret : ∀ p ∈ written, p.key = "secret" →
    ∃ secret, p.value.string? = some secret ∧ w.secret = some secret
  events : ∀ p ∈ written, p.key = "events" →
    ∃ pos elements, p.value = .array pos elements ∧ w.events = elements.map listedEvent
  properties : w.properties = written.filter (·.key ∉ keys)

/-- The values under these keys are strings, and events are written as a list. -/
def Fits (strings : List String) (written : List Property) : Prop :=
  ∀ p ∈ written, (p.key ∈ strings → p.value.string?.isSome) ∧
    (p.key = "events" → ∃ pos elements, p.value = .array pos elements)

section

variable (w : Webhook) (p : Property)

theorem url_add (hp : p.key = "url") : (addWebhookProperty w p).url = p.value.string? := by
  simp [addWebhookProperty, hp]

theorem url_add_of_ne (hp : p.key ≠ "url") : (addWebhookProperty w p).url = w.url := by
  unfold addWebhookProperty
  split
  · exact absurd ‹_› hp
  · rfl
  · split <;> rfl
  · rfl

theorem secret_add (hp : p.key = "secret") : (addWebhookProperty w p).secret = p.value.string? := by
  simp [addWebhookProperty, hp]

theorem secret_add_of_ne (hp : p.key ≠ "secret") : (addWebhookProperty w p).secret = w.secret := by
  unfold addWebhookProperty
  split
  · rfl
  · exact absurd ‹_› hp
  · split <;> rfl
  · rfl

theorem events_add {pos : Position} {elements : List Expr} (hp : p.key = "events")
    (hvalue : p.value = .array pos elements) :
    (addWebhookProperty w p).events = elements.map listedEvent := by
  simp [addWebhookProperty, hp, hvalue]

theorem events_add_of_ne (hp : p.key ≠ "events") : (addWebhookProperty w p).events = w.events := by
  unfold addWebhookProperty
  split
  · rfl
  · rfl
  · exact absurd ‹_› hp
  · rfl

theorem properties_add :
    (addWebhookProperty w p).properties = w.properties ++ if p.key ∈ keys then [] else [p] := by
  unfold addWebhookProperty
  split
  · next hp => simp [hp, keys]
  · next hp => simp [hp, keys]
  · next hp => split <;> simp [hp, keys]
  · next hurl hsecret hevents =>
    rw [if_neg (show p.key ∉ keys by simpa [keys] using ⟨hurl, hsecret, hevents⟩)]

end

theorem properties_foldl (written : List Property) (w : Webhook) :
    (written.foldl addWebhookProperty w).properties =
      w.properties ++ written.filter (·.key ∉ keys) := by
  induction written generalizing w with
  | nil => simp
  | cons p written ih =>
    rw [List.foldl_cons, ih, properties_add, List.append_assoc, List.filter_cons]
    by_cases hp : p.key ∈ keys <;> simp [hp]

/-- Of a webhook with distinct keys just the values that are no literals of their field
are lost. -/
theorem keeps_iff {written : List Property} (hdistinct : (written.map Property.key).Nodup) {w : Webhook}
    (hw : w.properties = []) :
    (written.foldl addWebhookProperty w).Keeps written ↔ Fits ["url", "secret"] written := by
  constructor
  · intro h p hp
    refine ⟨fun hkey => ?_, fun hkey => ?_⟩
    · rcases List.mem_cons.1 hkey with hkey | hkey
      · obtain ⟨url, hurl, -⟩ := h.url p hp hkey
        rw [hurl]
        rfl
      · obtain ⟨secret, hsecret, -⟩ := h.secret p hp (List.mem_singleton.1 hkey)
        rw [hsecret]
        rfl
    · obtain ⟨pos, elements, hvalue, -⟩ := h.events p hp hkey
      exact ⟨pos, elements, hvalue⟩
  · intro h
    refine ⟨fun p hp hkey => ?_, fun p hp hkey => ?_, fun p hp hkey => ?_, ?_⟩
    · obtain ⟨url, hurl⟩ := Option.isSome_iff_exists.1 ((h p hp).1 (by simp [hkey]))
      refine ⟨url, hurl, ?_⟩
      rw [← hurl]
      exact foldl_field url_add_of_ne hdistinct hp hkey (fun w => url_add w p hkey) w
    · obtain ⟨secret, hsecret⟩ := Option.isSome_iff_exists.1 ((h p hp).1 (by simp [hkey]))
      refine ⟨secret, hsecret, ?_⟩
      rw [← hsecret]
      exact foldl_field secret_add_of_ne hdistinct hp hkey (fun w => secret_add w p hkey) w
    · obtain ⟨pos, elements, hvalue⟩ := (h p hp).2 hkey
      exact ⟨pos, elements, hvalue,
        foldl_field events_add_of_ne hdistinct hp hkey (fun w => events_add w p hkey hvalue) w⟩
    · rw [properties_foldl, hw, List.nil_append]

end Webhook

/-- A webhook is what its properties make of it. -/
theorem exists_of_lowerWebhook {place : Nat → Position} {t : ParseTree Rule} {w : Webhook}
    (h : lowerWebhook place t = .ok w) : ∃ written, propertiesIn place t = .ok written ∧
      w = written.foldl addWebhookProperty ⟨place t.offset, identIn t, none, [], none, []⟩ := by
  obtain ⟨written, hwritten, hw⟩ := Lowered.bind_eq_ok h
  cases hw
  exact ⟨written, hwritten, rfl⟩

/-! ## Circuit breakers -/

namespace CircuitBreaker

def set (b : CircuitBreaker) (p : Property) : CircuitBreaker :=
  match p.key with
  | "threshold" => { b with threshold := Decimal.toInteger ((signedNumber? p.value).getD 0) }
  | "max_concurrent" => { b with maxConcurrent := Decimal.toInteger ((signedNumber? p.value).getD 0) }
  | "timeout" => { b with timeout := p.value.string?.getD "" }
  | _ => b

def limits : List String := ["threshold", "max_concurrent"]

/-- The property is one of the settings, and has this value in the circuit breaker. -/
def Reflects (b : CircuitBreaker) (p : Property) : Prop :=
  p.key = "threshold" ∧ (signedNumber? p.value).map Decimal.toInteger = some b.threshold ∨
    p.key = "max_concurrent" ∧ (signedNumber? p.value).map Decimal.toInteger = some b.maxConcurrent ∨
    p.key = "timeout" ∧ p.value.string? = some b.timeout

/-- All properties are settings, and those under these keys are strings. -/
def Fits (strings : List String) (written : List Property) : Prop :=
  ∀ p ∈ written, p.key ∈ "timeout" :: limits ∧ (p.key ∈ strings → p.value.string?.isSome)

section

variable (b : CircuitBreaker) (p : Property)

theorem set_of_notMem (hp : p.key ∉ "timeout" :: limits) : b.set p = b := by
  rw [limits, List.mem_cons, List.mem_cons, List.mem_singleton, not_or, not_or] at hp
  unfold set
  split
  · exact absurd ‹_› hp.2.1
  · exact absurd ‹_› hp.2.2
  · exact absurd ‹_› hp.1
  · rfl

theorem threshold_set_of_ne (hp : p.key ≠ "threshold") : (b.set p).threshold = b.threshold := by
  unfold set
  split
  · exact absurd ‹_› hp
  all_goals rfl

theorem maxConcurrent_set_of_ne (hp : p.key ≠ "max_concurrent") :
    (b.set p).maxConcurrent = b.maxConcurrent := by
  unfold set
  split
  · rfl
  · exact absurd ‹_› hp
  all_goals rfl

theorem timeout_set_of_ne (hp : p.key ≠ "timeout") : (b.set p).timeout = b.timeout := by
  unfold set
  split
  · rfl
  · rfl
  · exact absurd ‹_› hp
  · rfl

end

/-- A circuit breaker with distinct keys and numbers for limits reflects all that is written,
unless there is something else than its settings or a timeout that is no string. -/
theorem reflects_iff {written : List Property} (hdistinct : (written.map Property.key).Nodup)
    (hlimits : ∀ p ∈ written, p.key ∈ limits → (signedNumber? p.value).isSome) (b : CircuitBreaker) :
    (∀ p ∈ written, (written.foldl set b).Reflects p) ↔ Fits ["timeout"] written := by
  constructor
  · intro h p hp
    rcases h p hp with ⟨hkey, -⟩ | ⟨hkey, -⟩ | ⟨hkey, hvalue⟩
    · simp [hkey, limits]
    · simp [hkey, limits]
    · simp [hkey, hvalue]
  · intro h p hp
    obtain ⟨hkey, hstring⟩ := h p hp
    rcases List.mem_cons.1 hkey with hkey | hkey
    · obtain ⟨text, htext⟩ := Option.isSome_iff_exists.1 (hstring (by simp [hkey]))
      refine .inr (.inr ⟨hkey, ?_⟩)
      rw [htext, foldl_field timeout_set_of_ne hdistinct hp hkey (fun b => ?_) b]
      simp [set, hkey, htext]
    obtain ⟨x, hx⟩ := Option.isSome_iff_exists.1 (hlimits p hp hkey)
    rcases List.mem_cons.1 hkey with hkey | hkey
    · refine .inl ⟨hkey, ?_⟩
      rw [hx, foldl_field threshold_set_of_ne hdistinct hp hkey (fun b => ?_) b]
      · rfl
      · simp [set, hkey, hx]
    · have hkey := List.mem_singleton.1 hkey
      refine .inr (.inl ⟨hkey, ?_⟩)
      rw [hx, foldl_field maxConcurrent_set_of_ne hdistinct hp hkey (fun b => ?_) b]
      · rfl
      · simp [set, hkey, hx]

end CircuitBreaker

theorem exists_of_breakerLimit {offset : Nat} {p : Property} {n : Int}
    (h : breakerLimit offset p = .ok n) :
    ∃ x, signedNumber? p.value = some x ∧ n = Decimal.toInteger x := by
  unfold breakerLimit at h
  cases hx : signedNumber? p.value with
  | none => rw [hx] at h; cases h
  | some x =>
    simp only [hx] at h
    split at h
    · cases h
      exact ⟨x, rfl, rfl⟩
    · cases h

theorem exists_of_addBreakerProperty {place : Nat → Position} {b b' : CircuitBreaker} {t : ParseTree Rule}
    (h : addBreakerProperty place b t = .ok b') : ∃ p, lowerProperty place t = .ok p ∧ b' = b.set p ∧
      (p.key ∈ CircuitBreaker.limits → (signedNumber? p.value).isSome) := by
  obtain ⟨p, hp, h⟩ := Lowered.bind_eq_ok h
  refine ⟨p, hp, ?_⟩
  split at h
  · next hkey =>
    obtain ⟨n, hn, h⟩ := Lowered.bind_eq_ok h
    obtain ⟨x, hx, rfl⟩ := exists_of_breakerLimit hn
    cases h
    simp [CircuitBreaker.set, hkey, hx]
  · next hkey =>
    obtain ⟨n, hn, h⟩ := Lowered.bind_eq_ok h
    obtain ⟨x, hx, rfl⟩ := exists_of_breakerLimit hn
    cases h
    simp [CircuitBreaker.set, hkey, hx]
  · next hkey =>
    cases h
    simp [CircuitBreaker.set, CircuitBreaker.limits, hkey]
  · next hthreshold hmax htimeout =>
    cases h
    have hlimits : p.key ∉ CircuitBreaker.limits := by
      simpa [CircuitBreaker.limits] using ⟨hthreshold, hmax⟩
    have hkey : p.key ∉ "timeout" :: CircuitBreaker.limits :=
      mt List.mem_cons.1 (not_or.2 ⟨htimeout, hlimits⟩)
    exact ⟨(b.set_of_notMem p hkey).symm, fun h => absurd h hlimits⟩

/-- A circuit breaker is what its properties make of it, and its limits are numbers. -/
theorem exists_of_lowerCircuitBreaker {place : Nat → Position} {t : ParseTree Rule} {b : CircuitBreaker}
    (h : lowerCircuitBreaker place t = .ok b) : ∃ written, propertiesIn place t = .ok written ∧
      b = written.foldl CircuitBreaker.set ⟨place t.offset, 0, "", 0⟩ ∧
      ∀ p ∈ written, p.key ∈ CircuitBreaker.limits → (signedNumber? p.value).isSome := by
  unfold lowerCircuitBreaker at h
  unfold propertiesIn
  generalize (⟨place t.offset, 0, "", 0⟩ : CircuitBreaker) = start at h ⊢
  generalize t.childrenOf .property = nodes at h ⊢
  induction nodes generalizing start with
  | nil => cases h; exact ⟨[], rfl, rfl, fun p hp => absurd hp List.not_mem_nil⟩
  | cons u us ih =>
    obtain ⟨b', hb', h⟩ := Lowered.bind_eq_ok ((List.foldlM_cons ..).symm.trans h)
    obtain ⟨p, hp, rfl, hlimit⟩ := exists_of_addBreakerProperty hb'
    obtain ⟨written, hwritten, rfl, hlimits⟩ := ih _ h
    refine ⟨p :: written, ?_, rfl, List.forall_mem_cons.2 ⟨hlimit, hlimits⟩⟩
    rw [List.mapM_cons, hp, hwritten]
    rfl

/-- Just circuit breakers set the circuit breaker of an integration. -/
theorem circuitBreaker_addIntegrationPart {place : Nat → Position} {i j : Integration}
    {t : ParseTree Rule} (h : addIntegrationPart place i t = .ok j) :
    if t.rule = .circuitBreaker
      then ∃ b, lowerCircuitBreaker place t = .ok b ∧ j.circuitBreaker = some b
      else j.circuitBreaker = i.circuitBreaker := by
  unfold addIntegrationPart at h
  split at h
  · next hrule =>
    obtain ⟨auth, -, h⟩ := Lowered.bind_eq_ok h
    cases h
    simp [hrule]
  · next hrule =>
    obtain ⟨b, hb, h⟩ := Lowered.bind_eq_ok h
    cases h
    simp [hrule, hb]
  · next hrule =>
    obtain ⟨p, -, h⟩ := Lowered.bind_eq_ok h
    rw [if_neg (by rw [hrule]; decide)]
    split at h <;> cases h <;> rfl
  · next hrule _ =>
    cases h
    rw [if_neg (by simpa using hrule)]

/-- An integration has the last circuit breaker that is written in it. -/
theorem exists_of_lowerIntegration {place : Nat → Position} {t u : ParseTree Rule} {i : Integration}
    (h : lowerIntegration place t = .ok i) (hu : (t.childrenOf .circuitBreaker).getLast? = some u) :
    ∃ b, lowerCircuitBreaker place u = .ok b ∧ i.circuitBreaker = some b := by
  obtain ⟨earlier, hbreakers⟩ := List.getLast?_eq_some_iff.1 hu
  obtain ⟨before, rest, hchildren, -, hrest⟩ := List.filter_eq_append_iff.1 hbreakers
  obtain ⟨between, after, rfl, -, hrule, hafter⟩ := List.filter_eq_cons_iff.1 hrest
  unfold lowerIntegration at h
  rw [hchildren, ← List.append_assoc, List.foldlM_append] at h
  obtain ⟨j, -, h⟩ := Lowered.bind_eq_ok h
  obtain ⟨k, hk, h⟩ := Lowered.bind_eq_ok ((List.foldlM_cons ..).symm.trans h)
  have hb := circuitBreaker_addIntegrationPart hk
  rw [if_pos (of_decide_eq_true hrule)] at hb
  -- no part behind the last circuit breaker changes it
  refine Lowered.foldlM_keeps (fun i => ∃ b, lowerCircuitBreaker place u = .ok b ∧
    i.circuitBreaker = some b) _ after k i (fun i v hv j hj hi => ?_) h hb
  have hj := circuitBreaker_addIntegrationPart hj
  rw [if_neg (mt decide_eq_true (List.filter_eq_nil_iff.1 hafter v hv))] at hj
  rw [hj]
  exact hi

end ServiceLang
