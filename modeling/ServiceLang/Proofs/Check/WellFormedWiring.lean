import ServiceLang.Check.Wiring
import ServiceLang.Proofs.Check.WellFormedEndpoint
import ServiceLang.Proofs.Format.Duration

/-!
What the pass over events and what they are joined to accepts.

The pass asks an index of names for the targets of handlers, and the index was made on
another walk over the program.  Here a handler is joined to a name that some statement of
the program declares, wherever that statement stands and however often the name is declared
(`Program.Declares`).  Only the statements of the program itself count: nested declarations
are an error of their own.

The pass finds nothing exactly in the programs whose events, handlers, integrations and
webhooks are well formed (`Program.wiringFindings_eq_nil_iff`).
-/

namespace ServiceLang

/-! ## Well-formed wiring -/

/-- The event has a dotted name, and the fields of its payload have names and types. -/
structure Event.WellFormed (e : Event) : Prop where
  name : EventName e.name.toList
  fieldNames : ∀ schema ∈ e.schema, (schema.map EventField.name).Nodup
  fieldTypes : ∀ schema ∈ e.schema, ∀ f ∈ schema, f.fieldType ∈ payloadTypes

/-- The handler has one of four actions.  Three of them go to a declared target, the fourth
emits an event, declared or not. -/
inductive EventHandler.Acts (p : Program) (h : EventHandler) : Prop where
  | workflow (action : h.action = "workflow") (target : p.Declares .workflow h.target)
  | integration (action : h.action = "integration") (target : p.Declares .integration h.target)
  | webhook (action : h.action = "webhook") (target : p.Declares .webhook h.target)
  | emit (action : h.action = "emit") (target : EventName h.target.toList)

/-- The handler joins a declared event to something. -/
structure EventHandler.WellFormed (p : Program) (h : EventHandler) : Prop where
  event : p.Declares .event h.event
  action : h.Acts p

/-- One of the properties has this key. -/
def IntegrationAuth.HasKey (a : IntegrationAuth) (key : String) : Prop :=
  ∃ property ∈ a.properties, property.key = key

/-- A way to authenticate requests, with the keys that it needs. -/
inductive IntegrationAuth.WellFormed (a : IntegrationAuth) : Prop where
  | bearer (kind : a.kind = "bearer") (token : a.HasKey "token")
  | apikey (kind : a.kind = "apikey") (header : a.HasKey "header") (value : a.HasKey "value")
  | basic (kind : a.kind = "basic") (username : a.HasKey "username")
      (password : a.HasKey "password")

/-- The limits of the breaker are positive, and its timeout is a duration. -/
structure CircuitBreaker.WellFormed (b : CircuitBreaker) : Prop where
  threshold : 0 < b.threshold
  maxConcurrent : 0 < b.maxConcurrent
  timeout : Duration.Reads b.timeout

/-- The integration has an address, and its authentication and breaker are well formed. -/
structure Integration.WellFormed (i : Integration) : Prop where
  baseUrl : ∃ url ∈ i.baseUrl, Url.check url = .ok ()
  auth : ∀ a ∈ i.auth, a.WellFormed
  circuitBreaker : ∀ b ∈ i.circuitBreaker, b.WellFormed

/-- The webhook has an address, and its events have dotted names. -/
structure Webhook.WellFormed (w : Webhook) : Prop where
  url : ∃ url ∈ w.url, Url.check url = .ok ()
  events : ∀ event ∈ w.events, EventName event.toList

/-- The events of a program and what they are joined to are well formed. -/
structure Program.WellWired (p : Program) : Prop where
  events : ∀ e, .event e ∈ p.statements → e.WellFormed
  handlers : ∀ h, .eventHandler h ∈ p.statements → h.WellFormed p
  integrations : ∀ i, .integration i ∈ p.statements → i.WellFormed
  webhooks : ∀ w, .webhook w ∈ p.statements → w.WellFormed

/-! ## Events -/

theorem EventField.findings_eq_nil_iff (event : String) (earlier : List EventField) (f : EventField) :
    f.findings event earlier = [] ↔
      f.name ∉ earlier.map EventField.name ∧ f.fieldType ∈ payloadTypes := by
  simp [findings]

theorem Event.findings_eq_nil_iff (e : Event) : e.findings = [] ↔ e.WellFormed := by
  have hfields (schema : List EventField) : eachAfter (EventField.findings e.name) [] schema = [] ↔
      (schema.map EventField.name).Nodup ∧ ∀ f ∈ schema, f.fieldType ∈ payloadTypes :=
    eachAfter_eq_nil_iff_nodup EventField.name _ (EventField.findings_eq_nil_iff e.name) schema
  have hschema : eachAfter (EventField.findings e.name) [] (e.schema.getD []) = [] ↔
      (∀ schema ∈ e.schema, (schema.map EventField.name).Nodup) ∧
        ∀ schema ∈ e.schema, ∀ f ∈ schema, f.fieldType ∈ payloadTypes := by
    rw [hfields]
    cases e.schema <;> simp
  rw [findings, List.append_eq_nil_iff, demand_eq_nil_iff, isEventName_iff, hschema]
  constructor
  · rintro ⟨hname, hnames, htypes⟩
    exact ⟨hname, hnames, htypes⟩
  · intro h
    exact ⟨h.name, h.fieldNames, h.fieldTypes⟩

/-! ## Handlers -/

namespace EventHandler

variable (p : Program) (h : EventHandler)

/-- The index that the pass is given knows the names that the program declares. -/
theorem targetFindings_eq_nil_iff (kind : DeclaredKind) :
    h.targetFindings p.declarations kind = [] ↔ p.Declares kind h.target := by
  rw [targetFindings, demand_eq_nil_iff, Declarations.has_iff, p.has_declarations_iff]

theorem actionFindings_eq_nil_iff : h.actionFindings p.declarations = [] ↔ h.Acts p := by
  unfold actionFindings
  constructor
  · intro hnil
    split at hnil
    next action => exact .workflow action ((h.targetFindings_eq_nil_iff p _).mp hnil)
    next action => exact .integration action ((h.targetFindings_eq_nil_iff p _).mp hnil)
    next action => exact .webhook action ((h.targetFindings_eq_nil_iff p _).mp hnil)
    next action => exact .emit action ((isEventName_iff _).mp ((demand_eq_nil_iff _ _ _).mp hnil))
    next => cases hnil
  · rintro (⟨action, target⟩ | ⟨action, target⟩ | ⟨action, target⟩ | ⟨action, target⟩)
    · simpa [action] using (h.targetFindings_eq_nil_iff p _).mpr target
    · simpa [action] using (h.targetFindings_eq_nil_iff p _).mpr target
    · simpa [action] using (h.targetFindings_eq_nil_iff p _).mpr target
    · simpa [action] using (isEventName_iff _).mpr target

theorem findings_eq_nil_iff : h.findings p.declarations = [] ↔ h.WellFormed p := by
  rw [findings, List.append_eq_nil_iff, demand_eq_nil_iff, Declarations.has_iff,
    p.has_declarations_iff, actionFindings_eq_nil_iff]
  constructor
  · rintro ⟨hevent, haction⟩
    exact ⟨hevent, haction⟩
  · intro hformed
    exact ⟨hformed.event, hformed.action⟩

end EventHandler

/-! ## Integrations and webhooks -/

/-- The ways to authenticate are those of the table. -/
theorem IntegrationAuth.wellFormed_iff (a : IntegrationAuth) :
    a.WellFormed ↔ ∃ keys, (a.kind, keys) ∈ authKeys ∧ ∀ key ∈ keys, a.HasKey key := by
  constructor
  · rintro (⟨kind, token⟩ | ⟨kind, header, value⟩ | ⟨kind, username, password⟩)
    · exact ⟨["token"], by simp [kind, authKeys], by simpa using token⟩
    · exact ⟨["header", "value"], by simp [kind, authKeys], by simpa using ⟨header, value⟩⟩
    · exact ⟨["username", "password"], by simp [kind, authKeys], by simpa using ⟨username, password⟩⟩
  · rintro ⟨keys, hkeys, h⟩
    simp only [authKeys, List.mem_cons, Prod.mk.injEq, List.not_mem_nil, or_false] at hkeys
    obtain ⟨kind, rfl⟩ | ⟨kind, rfl⟩ | ⟨kind, rfl⟩ := hkeys
    · exact .bearer kind (h _ (by simp))
    · exact .apikey kind (h _ (by simp)) (h _ (by simp))
    · exact .basic kind (h _ (by simp)) (h _ (by simp))

theorem IntegrationAuth.findings_eq_nil_iff (integration : String) (a : IntegrationAuth) :
    a.findings integration = [] ↔ a.WellFormed := by
  have htable (keys : List String) : (a.kind, keys) ∈ authKeys ↔ authKeys.lookup a.kind = some keys :=
    mem_iff_lookup_eq_some (by decide)
  have hkey (key : String) : (Property.find? a.properties key).isSome = true ↔ a.HasKey key := by
    simp [Property.find?, HasKey, List.find?_isSome]
  rw [wellFormed_iff]
  simp only [htable]
  unfold findings
  cases authKeys.lookup a.kind with
  | none => simp
  | some keys => simp [hkey]

theorem CircuitBreaker.findings_eq_nil_iff (integration : String) (b : CircuitBreaker) :
    b.findings integration = [] ↔ b.WellFormed := by
  rw [findings, List.append_eq_nil_iff, List.append_eq_nil_iff, demand_eq_nil_iff,
    demand_eq_nil_iff, decide_eq_true_eq, decide_eq_true_eq]
  constructor
  · rintro ⟨⟨hthreshold, hconcurrent⟩, htimeout⟩
    refine ⟨hthreshold, hconcurrent, ?_⟩
    split at htimeout
    · cases htimeout
    · cases hd : Duration.parse b.timeout with
      | ok d => exact ⟨d, hd⟩
      | error fault =>
        rw [hd] at htimeout
        cases htimeout
  · intro h
    obtain ⟨d, hd⟩ := h.timeout
    have hsome : b.timeout ≠ "" := by
      intro hempty
      rw [hempty] at hd
      cases hd
    rw [if_neg hsome, hd]
    exact ⟨⟨h.threshold, h.maxConcurrent⟩, rfl⟩

namespace Integration

variable (i : Integration)

theorem urlFindings_eq_nil_iff :
    i.urlFindings = [] ↔ ∃ url ∈ i.baseUrl, Url.check url = .ok () := by
  unfold urlFindings
  cases i.baseUrl with
  | none => simp
  | some url => cases h : Url.check url <;> simp [h]

theorem findings_eq_nil_iff : i.findings = [] ↔ i.WellFormed := by
  rw [findings, List.append_eq_nil_iff, List.append_eq_nil_iff, urlFindings_eq_nil_iff]
  constructor
  · rintro ⟨⟨hurl, hauth⟩, hbreaker⟩
    refine ⟨hurl, fun a ha => ?_, fun b hb => ?_⟩
    · rw [Option.mem_def.mp ha] at hauth
      exact (a.findings_eq_nil_iff i.name).mp hauth
    · rw [Option.mem_def.mp hb] at hbreaker
      exact (b.findings_eq_nil_iff i.name).mp hbreaker
  · intro h
    refine ⟨⟨h.baseUrl, ?_⟩, ?_⟩
    · cases ha : i.auth with
      | none => rfl
      | some a => exact (a.findings_eq_nil_iff i.name).mpr (h.auth a ha)
    · cases hb : i.circuitBreaker with
      | none => rfl
      | some b => exact (b.findings_eq_nil_iff i.name).mpr (h.circuitBreaker b hb)

end Integration

namespace Webhook

variable (w : Webhook)

theorem urlFindings_eq_nil_iff : w.urlFindings = [] ↔ ∃ url ∈ w.url, Url.check url = .ok () := by
  unfold urlFindings
  cases w.url with
  | none => simp
  | some url => cases h : Url.check url <;> simp [h]

theorem findings_eq_nil_iff : w.findings = [] ↔ w.WellFormed := by
  rw [findings, List.append_eq_nil_iff, urlFindings_eq_nil_iff, List.flatMap_eq_nil_iff]
  simp only [demand_eq_nil_iff, isEventName_iff]
  constructor
  · rintro ⟨hurl, hevents⟩
    exact ⟨hurl, hevents⟩
  · intro h
    exact ⟨h.url, h.events⟩

end Webhook

/-! ## Programs -/

/-- The pass finds nothing exactly in the programs whose events are well formed, and what they
are joined to. -/
theorem Program.wiringFindings_eq_nil_iff (p : Program) : p.wiringFindings = [] ↔ p.WellWired := by
  unfold wiringFindings
  rw [List.flatMap_eq_nil_iff]
  constructor
  · intro h
    exact {
      events := fun e he => e.findings_eq_nil_iff.mp (h _ he)
      handlers := fun handler hh => (handler.findings_eq_nil_iff p).mp (h _ hh)
      integrations := fun i hi => i.findings_eq_nil_iff.mp (h _ hi)
      webhooks := fun w hw => w.findings_eq_nil_iff.mp (h _ hw) }
  · intro h s hs
    cases s with
    | event e => exact e.findings_eq_nil_iff.mpr (h.events e hs)
    | eventHandler handler => exact (handler.findings_eq_nil_iff p).mpr (h.handlers handler hs)
    | integration i => exact i.findings_eq_nil_iff.mpr (h.integrations i hs)
    | webhook w => exact w.findings_eq_nil_iff.mpr (h.webhooks w hs)
    | _ => rfl

end ServiceLang
