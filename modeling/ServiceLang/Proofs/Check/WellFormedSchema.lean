import ServiceLang.Proofs.Check.Distinct
import ServiceLang.Proofs.Check.Reordered

/-!
What the schema pass accepts.

The pass walks over fields, embedded fields and blocks, and leaves out checks behind some
of the errors that it reports.  Here is what a well-formed program looks like without any
of that walking: the levels of a document (`Field.Level`) are all alike and at most five
deep, a path in an index leads from field to field (`Field.Leads`), and names are distinct
wherever they are declared side by side.  The pass finds nothing exactly in the well-formed
programs (`Program.schemaFindings_eq_nil_iff`), so it misses nothing, refuses nothing valid,
and what it leaves out never hides the only error.

Configurations and database blocks count where they stand as statements of the program; the
scope pass refuses them anywhere else.
-/

namespace ServiceLang

/-! ## Well-formed schemas -/

namespace Field

/-- The modifiers of a field are distinct and known, those and only those have an argument
that take one, and the field is not both required and optional. -/
structure ModifiersFit (f : Field) : Prop where
  distinct : (f.modifiers.map Modifier.name).Nodup
  known : ∀ m ∈ f.modifiers, ∃ takesArgument, (m.name, takesArgument) ∈ modifierArguments ∧
    m.argument.isSome = takesArgument
  settled : ¬("required" ∈ f.modifiers.map Modifier.name ∧
    "optional" ∈ f.modifiers.map Modifier.name)

/-- The lists of fields in a document, so many levels below the top. -/
inductive Level (top : List Field) : Nat → List Field → Prop where
  | top : Level top 0 top
  | embedded {n : Nat} {level : List Field} {f : Field} (above : Level top n level)
      (mem : f ∈ level) (hasFields : f.fields ≠ []) : Level top (n + 1) f.fields

/-- What holds of the fields at one level of a document. -/
structure DocumentLevel (fields : List Field) : Prop where
  distinct : (fields.map name).Nodup
  types : ∀ f ∈ fields, f.fieldType ∈ documentTypes
  modifiers : ∀ f ∈ fields, f.ModifiersFit
  notRelational : ∀ f ∈ fields, ∀ m ∈ f.modifiers,
    m.name ∉ ["foreign_key", "references", "cascade"]
  embedding : ∀ f ∈ fields, f.fields ≠ [] → f.fieldType ∈ ["object", "array"]

/-- The names lead from a field to one embedded in it, and so on. -/
inductive Leads : List Field → List String → Prop where
  | field {fields : List Field} {f : Field} (mem : f ∈ fields) : Leads fields [f.name]
  | inside {fields : List Field} {f : Field} {names : List String} (mem : f ∈ fields)
      (rest : Leads f.fields names) : Leads fields (f.name :: names)

end Field

namespace Model

/-- A model that a relational database can hold. -/
structure Relational (m : Model) : Prop where
  distinct : (m.fields.map Field.name).Nodup
  types : ∀ f ∈ m.fields, f.fieldType ∈ relationalTypes
  flat : ∀ f ∈ m.fields, f.fields = []
  modifiers : ∀ f ∈ m.fields, f.ModifiersFit
  indexes : ∀ i ∈ m.indexes, ∀ indexed ∈ i.fields, indexed ∈ m.fields.map Field.name

/-- A collection that a document database can hold. -/
structure Document (m : Model) : Prop where
  levels : ∀ n level, Field.Level m.fields n level → Field.DocumentLevel level ∧ n ≤ 5
  indexes : ∀ i ∈ m.indexes, ∀ path ∈ i.fields, Field.Leads m.fields (pathNames path)

end Model

/-- The setting is written, and it is a string with more than white space in it. -/
def Config.Sets (c : Config) (key : String) : Prop :=
  ∃ value, Property.string? c.properties key = some value ∧ Text.trim value.toList ≠ []

/-- A database of this engine can hold the declaration: a well-formed collection if it is one
of documents, otherwise a well-formed model. -/
def Engine.Holds (engine : Engine) (d : Stmt) : Prop :=
  if engine = .mongodb then ∃ m, d = .collection m ∧ m.Document
  else ∃ m, d = .model m ∧ m.Relational

/-- The configuration and the schemas of a program are well formed. -/
structure Program.SchemasFit (p : Program) : Prop where
  oneConfig : p.configs.length ≤ 1
  settings : ∀ c ∈ p.configs, c.engine = .mongodb →
    c.Sets "mongodb_uri" ∧ c.Sets "mongodb_database"
  engines : ∀ b ∈ p.databases, ∀ c ∈ p.configs, b.engine = c.engine
  fallback : p.configs = [] → ∀ b ∈ p.databases, b.engine = .postgres
  declarations : ∀ b ∈ p.databases, ∀ d ∈ b.declarations, b.engine.Holds d
  distinct : (p.placed.filterMap (·.declaration.schemaName?)).Nodup

/-! ## Fields -/

namespace Field

/-- A modifier passes if its name is not there already, it is known, and it has an argument
exactly if it takes one. -/
theorem checkModifier_eq_nil_iff (field : String) (earlier : List Modifier) (m : Modifier) :
    checkModifier field earlier m = [] ↔ m.name ∉ earlier.map Modifier.name ∧
      ∃ takesArgument, (m.name, takesArgument) ∈ modifierArguments ∧
        m.argument.isSome = takesArgument := by
  have hany : earlier.any (·.name == m.name) = true ↔ m.name ∈ earlier.map Modifier.name := by
    simp
  have htable (takes : Bool) : (m.name, takes) ∈ modifierArguments ↔
      modifierArguments.lookup m.name = some takes := mem_iff_lookup_eq_some (by decide)
  simp only [htable]
  unfold checkModifier
  by_cases hmem : m.name ∈ earlier.map Modifier.name
  · rw [if_pos (hany.mpr hmem)]
    simp [hmem]
  · rw [if_neg (mt hany.mp hmem)]
    cases hlookup : modifierArguments.lookup m.name with
    | none => simp [hmem]
    | some takes => cases takes <;> simp [hmem]

theorem hasModifier_iff (f : Field) (name : String) :
    f.hasModifier name = true ↔ name ∈ f.modifiers.map Modifier.name := by
  simp [hasModifier]

theorem modifierFindings_eq_nil_iff (f : Field) : f.modifierFindings = [] ↔ f.ModifiersFit := by
  unfold modifierFindings
  rw [List.append_eq_nil_iff, demand_eq_nil_iff,
    eachAfter_eq_nil_iff_nodup Modifier.name _ (checkModifier_eq_nil_iff f.name)]
  simp only [Bool.not_eq_true', ← Bool.not_eq_true, Bool.and_eq_true, hasModifier_iff]
  exact ⟨fun ⟨⟨hdistinct, hknown⟩, hsettled⟩ => ⟨hdistinct, hknown, hsettled⟩,
    fun h => ⟨⟨h.distinct, h.known⟩, h.settled⟩⟩

theorem headFindings_eq_nil_iff (schema : SchemaRef) (types earlier : List String) (f : Field) :
    headFindings schema types earlier f = [] ↔ f.name ∉ earlier ∧ f.fieldType ∈ types := by
  unfold headFindings
  rw [List.append_eq_nil_iff, demand_eq_nil_iff, demand_eq_nil_iff]
  simp

theorem modelFindings_eq_nil_iff (schema : SchemaRef) (earlier : List Field) (f : Field) :
    modelFindings schema earlier f = [] ↔ f.name ∉ earlier.map name ∧
      f.fieldType ∈ relationalTypes ∧ f.ModifiersFit ∧ f.fields = [] := by
  unfold modelFindings
  rw [List.append_eq_nil_iff, List.append_eq_nil_iff, headFindings_eq_nil_iff,
    modifierFindings_eq_nil_iff, demand_eq_nil_iff, List.isEmpty_iff]
  tauto

theorem relationalFindings_eq_nil_iff (f : Field) :
    f.relationalFindings = [] ↔
      ∀ m ∈ f.modifiers, m.name ∉ ["foreign_key", "references", "cascade"] := by
  simp [relationalFindings, relationalModifiers]

/-! ## Documents -/

theorem documentFindingsAll_eq_eachAfter (schema : SchemaRef) (depth : Nat)
    (earlier fields : List Field) :
    documentFindingsAll schema depth (earlier.map name) fields =
      eachAfter (fun earlier f => f.documentFindings schema depth (earlier.map name)) earlier
        fields := by
  induction fields generalizing earlier with
  | nil => rfl
  | cons f fields ih =>
    have hearlier : earlier.map name ++ [f.name] = (earlier ++ [f]).map name := by simp
    rw [documentFindingsAll, eachAfter, hearlier, ih]

/-- A field of a document passes if it passes on its own, and the fields embedded in it, if
there are any, may be there, are not too deep, and pass as a level of their own. -/
theorem documentFindings_eq_nil_iff (schema : SchemaRef) (depth : Nat) (earlier : List String)
    (f : Field) :
    f.documentFindings schema depth earlier = [] ↔ f.name ∉ earlier ∧
      (f.fieldType ∈ documentTypes ∧ f.ModifiersFit ∧
        (∀ m ∈ f.modifiers, m.name ∉ ["foreign_key", "references", "cascade"]) ∧
        (f.fields ≠ [] → f.fieldType ∈ ["object", "array"] ∧ depth + 1 ≤ maxEmbedDepth ∧
          documentFindingsAll schema (depth + 1) [] f.fields = [])) := by
  obtain ⟨pos, name, type, modifiers, fields⟩ := f
  rw [documentFindings]
  simp only [List.append_eq_nil_iff, headFindings_eq_nil_iff, modifierFindings_eq_nil_iff,
    relationalFindings_eq_nil_iff, List.isEmpty_iff, and_assoc]
  refine and_congr Iff.rfl (and_congr Iff.rfl (and_congr Iff.rfl (and_congr Iff.rfl ?_)))
  change _ ↔ (fields ≠ [] → type ∈ embeddingTypes ∧ depth + 1 ≤ maxEmbedDepth ∧
    documentFindingsAll schema (depth + 1) [] fields = [])
  split
  · next hnone => simp [hnone]
  · next hsome =>
    split
    · next htype => simp [hsome, htype]
    · next htype =>
      rw [not_not] at htype
      split
      · next hdeep => simp [hsome, Nat.not_le.mpr hdeep]
      · next hdeep => simp [hsome, htype, Nat.not_lt.mp hdeep]

/-- A level passes if it is a level of a document and what is embedded in it passes, one
level deeper. -/
theorem documentFindingsAll_eq_nil_iff (schema : SchemaRef) (depth : Nat) (fields : List Field) :
    documentFindingsAll schema depth [] fields = [] ↔ DocumentLevel fields ∧
      ∀ f ∈ fields, f.fields ≠ [] →
        depth + 1 ≤ maxEmbedDepth ∧ documentFindingsAll schema (depth + 1) [] f.fields = [] := by
  have hall := documentFindingsAll_eq_eachAfter schema depth [] fields
  rw [List.map_nil] at hall
  rw [hall, eachAfter_eq_nil_iff_nodup name _ fun earlier f =>
    documentFindings_eq_nil_iff schema depth (earlier.map name) f]
  constructor
  · rintro ⟨hdistinct, h⟩
    exact ⟨⟨hdistinct, fun f hf => (h f hf).1, fun f hf => (h f hf).2.1,
      fun f hf => (h f hf).2.2.1, fun f hf hs => ((h f hf).2.2.2 hs).1⟩,
      fun f hf hs => ((h f hf).2.2.2 hs).2⟩
  · rintro ⟨hlevel, h⟩
    exact ⟨hlevel.distinct, fun f hf => ⟨hlevel.types f hf, hlevel.modifiers f hf,
      hlevel.notRelational f hf, fun hs => ⟨hlevel.embedding f hf hs, h f hf hs⟩⟩⟩

/-- What is a level of embedded fields is one of the fields around them, one level deeper. -/
theorem Level.inside {fields level : List Field} {f : Field} {n : Nat} (mem : f ∈ fields)
    (hasFields : f.fields ≠ []) (h : Level f.fields n level) : Level fields (n + 1) level := by
  induction h with
  | top => exact .embedded .top mem hasFields
  | embedded _ hmem hfields ih => exact .embedded ih hmem hfields

theorem Level.eq_nil {level : List Field} {n : Nat} (h : Level [] n level) : level = [] := by
  induction h with
  | top => rfl
  | embedded _ hmem _ ih => simp [ih] at hmem

/-- The fields of a document pass exactly if all levels do and none is too deep. -/
theorem documentFindingsAll_eq_nil_iff_levels (schema : SchemaRef) {depth : Nat}
    (hdepth : depth ≤ maxEmbedDepth) (fields : List Field) :
    documentFindingsAll schema depth [] fields = [] ↔
      ∀ n level, Level fields n level → DocumentLevel level ∧ depth + n ≤ maxEmbedDepth := by
  constructor
  · intro h n level hlevel
    -- every level is itself a list of fields that the pass has come to and found nothing in
    suffices hpass : documentFindingsAll schema (depth + n) [] level = [] ∧
        depth + n ≤ maxEmbedDepth from
      ⟨((documentFindingsAll_eq_nil_iff ..).mp hpass.1).1, hpass.2⟩
    induction hlevel with
    | top => exact ⟨h, hdepth⟩
    | embedded _ hmem hfields ih =>
      obtain ⟨hdeeper, hpass⟩ := ((documentFindingsAll_eq_nil_iff ..).mp ih.1).2 _ hmem hfields
      exact ⟨hpass, hdeeper⟩
  · -- the levels that are left below this one become fewer
    induction hleft : maxEmbedDepth - depth using Nat.strongRecOn
      generalizing depth fields with
    | ind left ih =>
      intro h
      refine (documentFindingsAll_eq_nil_iff ..).mpr ⟨(h 0 fields .top).1, fun f hf hs => ?_⟩
      have hdeeper : depth + 1 ≤ maxEmbedDepth := (h 1 f.fields (.embedded .top hf hs)).2
      refine ⟨hdeeper, ih _ (by omega) hdeeper f.fields rfl fun n level hlevel => ?_⟩
      obtain ⟨hfit, hn⟩ := h (n + 1) level (hlevel.inside hf hs)
      exact ⟨hfit, by omega⟩

/-! ## Paths -/

theorem find?_name_eq_some_iff {fields : List Field} (distinct : (fields.map name).Nodup)
    (wanted : String) (f : Field) :
    fields.find? (·.name == wanted) = some f ↔ f ∈ fields ∧ f.name = wanted := by
  constructor
  · intro h
    exact ⟨List.mem_of_find?_eq_some h, by simpa using List.find?_some h⟩
  · rintro ⟨hmem, rfl⟩
    cases hfind : fields.find? (·.name == f.name) with
    | none => exact absurd (List.find?_eq_none.mp hfind f hmem) (by simp)
    | some g =>
      have hname : g.name = f.name := by simpa using List.find?_some hfind
      rw [List.inj_on_of_nodup_map distinct (List.mem_of_find?_eq_some hfind) hmem hname]

theorem leads_cons_iff {fields : List Field} {wanted : String} {names : List String} :
    Leads fields (wanted :: names) ↔
      ∃ f ∈ fields, f.name = wanted ∧ (names = [] ∨ Leads f.fields names) := by
  constructor
  · intro h
    cases h with
    | field hmem => exact ⟨_, hmem, rfl, .inl rfl⟩
    | inside hmem hrest => exact ⟨_, hmem, rfl, .inr hrest⟩
  · rintro ⟨f, hmem, rfl, rfl | hrest⟩
    · exact .field hmem
    · exact .inside hmem hrest

theorem hasPath_cons_iff {fields : List Field} {wanted : String} {names : List String} :
    hasPath fields (wanted :: names) = true ↔
      ∃ f, fields.find? (·.name == wanted) = some f ∧ hasPath f.fields names = true := by
  rw [hasPath]
  cases fields.find? (·.name == wanted) with
  | none => simp
  | some f => simp

/-- The look-up of a path goes by the first field of each name.  Where names are distinct
at each level there is no other. -/
theorem hasPath_iff_leads {fields : List Field} {names : List String} (hnames : names ≠ [])
    (distinct : ∀ n level, Level fields n level → (level.map name).Nodup) :
    hasPath fields names = true ↔ Leads fields names := by
  induction names generalizing fields with
  | nil => exact absurd rfl hnames
  | cons wanted names ih =>
    rw [hasPath_cons_iff, leads_cons_iff]
    refine exists_congr fun f => ?_
    rw [find?_name_eq_some_iff (distinct 0 fields .top), and_assoc]
    refine and_congr_right fun hmem => and_congr_right fun _ => ?_
    by_cases hrest : names = []
    · simp [hrest, hasPath]
    · have hinner : ∀ n level, Level f.fields n level → (level.map name).Nodup := by
        intro n level hlevel
        by_cases hfields : f.fields = []
        · rw [hfields] at hlevel
          simp [hlevel.eq_nil]
        · exact distinct (n + 1) level (hlevel.inside hmem hfields)
      simp [hrest, ih hrest hinner]

end Field

/-! ## Schemas -/

namespace Model

theorem indexFindings_eq_nil_iff (schema : SchemaRef) (hasField : String → Bool)
    (indexes : List Index) :
    indexFindings schema hasField indexes = [] ↔
      ∀ i ∈ indexes, ∀ path ∈ i.fields, hasField path = true := by
  simp [indexFindings]

theorem modelFindings_eq_nil_iff (m : Model) : m.modelFindings = [] ↔ m.Relational := by
  unfold modelFindings
  rw [List.append_eq_nil_iff, indexFindings_eq_nil_iff,
    eachAfter_eq_nil_iff_nodup Field.name _ (Field.modelFindings_eq_nil_iff ⟨.model, m.name⟩)]
  have hindexed (indexed : String) : (m.fields.any (·.name == indexed)) = true ↔
      indexed ∈ m.fields.map Field.name := by simp
  simp only [hindexed]
  exact ⟨fun ⟨⟨hdistinct, h⟩, hindexes⟩ => ⟨hdistinct, fun f hf => (h f hf).1,
      fun f hf => (h f hf).2.2, fun f hf => (h f hf).2.1, hindexes⟩,
    fun h => ⟨⟨h.distinct, fun f hf => ⟨h.types f hf, h.modifiers f hf, h.flat f hf⟩⟩,
      h.indexes⟩⟩

theorem pathNames_ne_nil (path : String) : pathNames path ≠ [] := by
  simp [pathNames, Text.splitOn_ne_nil]

theorem collectionFindings_eq_nil_iff (m : Model) : m.collectionFindings = [] ↔ m.Document := by
  have hlevels := Field.documentFindingsAll_eq_nil_iff_levels ⟨.collection, m.name⟩
    (Nat.zero_le maxEmbedDepth) m.fields
  simp only [Nat.zero_add] at hlevels
  unfold collectionFindings
  rw [List.append_eq_nil_iff, indexFindings_eq_nil_iff, hlevels]
  have hpath (h : ∀ n level, Field.Level m.fields n level → Field.DocumentLevel level ∧ n ≤ 5)
      (path : String) : Field.hasPath m.fields (pathNames path) = true ↔
        Field.Leads m.fields (pathNames path) :=
    Field.hasPath_iff_leads (pathNames_ne_nil path) fun n level hlevel => (h n level hlevel).1.distinct
  constructor
  · rintro ⟨h, hindexes⟩
    exact ⟨h, fun i hi path hp => (hpath h path).mp (hindexes i hi path hp)⟩
  · intro h
    exact ⟨h.levels, fun i hi path hp => (hpath h.levels path).mpr (h.indexes i hi path hp)⟩

end Model

/-! ## Programs -/

theorem Config.hasSetting_iff (c : Config) (key : String) : c.hasSetting key = true ↔ c.Sets key := by
  simp [hasSetting, Sets, Option.any_eq_true]

theorem Engine.isDocument_iff (engine : Engine) : engine.isDocument = true ↔ engine = .mongodb := by
  cases engine <;> simp [isDocument]

theorem Config.settingFindings_eq_nil_iff (c : Config) :
    c.settingFindings = [] ↔
      (c.engine = .mongodb → c.Sets "mongodb_uri" ∧ c.Sets "mongodb_database") := by
  unfold settingFindings
  rw [← c.engine.isDocument_iff]
  split
  · next h => simp [documentSettings, hasSetting_iff, h]
  · next h => simp [h]

namespace Placed

/-- The name that a declaration takes among the schemas, if its engine can hold it. -/
def schemaName? (p : Placed) : Option String := p.schema?.map (·.2.name)

theorem nameFindings_eq_nil_iff (earlier : List Placed) (kind : SchemaKind) (m : Model) :
    nameFindings earlier kind m = [] ↔ m.name ∉ earlier.filterMap schemaName? := by
  have htaken : m.name ∈ earlier.filterMap schemaName? ↔
      ∃ x ∈ earlier.filterMap schema?, x.2.name = m.name := by
    unfold schemaName?
    rw [← List.map_filterMap, List.mem_map]
  rw [htaken, nameFindings]
  cases hfind : (earlier.filterMap schema?).find? (·.2.name == m.name) with
  | none =>
    have hnone := List.find?_eq_none.mp hfind
    simp only [beq_iff_eq] at hnone
    simp only [true_iff]
    rintro ⟨x, hx, hname⟩
    exact hnone x hx hname
  | some x =>
    have hname : x.2.name = m.name := by simpa using List.find?_some hfind
    simp only [List.cons_ne_nil, false_iff, not_not]
    exact ⟨x, List.mem_of_find?_eq_some hfind, hname⟩

/-- A declaration passes if its name is free and its engine can hold it. -/
theorem findings_eq_nil_iff (earlier : List Placed) (p : Placed) :
    findings earlier p = [] ↔
      (∀ name ∈ p.schemaName?, name ∉ earlier.filterMap schemaName?) ∧
        p.engine.Holds p.declaration := by
  obtain ⟨engine, d⟩ := p
  by_cases hengine : engine = .mongodb
  · subst hengine
    cases d with
    | collection m =>
      have hname : schemaName? ⟨.mongodb, .collection m⟩ = some m.name := rfl
      simp [findings, schema?, Engine.isDocument, hname, nameFindings_eq_nil_iff,
        Model.collectionFindings_eq_nil_iff, Engine.Holds]
    | _ => simp [findings, schema?, Engine.isDocument, Engine.Holds]
  · have hisDocument : engine.isDocument = false := by
      rw [← Bool.not_eq_true, engine.isDocument_iff]
      exact hengine
    cases d with
    | model m =>
      have hname : schemaName? ⟨engine, .model m⟩ = some m.name := by
        simp [schemaName?, schema?, hisDocument]
      simp [findings, schema?, hisDocument, hengine, hname, nameFindings_eq_nil_iff,
        Model.modelFindings_eq_nil_iff, Engine.Holds]
    | _ => simp [findings, schema?, hisDocument, hengine, Engine.Holds]

theorem schemaName?_eq {p : Placed} (h : p.engine.Holds p.declaration) :
    p.schemaName? = p.declaration.schemaName? := by
  obtain ⟨engine, d⟩ := p
  unfold Engine.Holds at h
  split at h
  · next hengine =>
    obtain ⟨m, rfl, -⟩ := h
    simp [schemaName?, schema?, (engine.isDocument_iff).mpr hengine, Stmt.schemaName?]
  · next hengine =>
    obtain ⟨m, rfl, -⟩ := h
    simp [schemaName?, schema?, mt (engine.isDocument_iff).mp hengine, Stmt.schemaName?]

end Placed

namespace Program

variable (p : Program)

theorem configFindings_eq_nil_iff :
    p.configFindings = [] ↔ p.configs.length ≤ 1 ∧ ∀ c ∈ p.configs, c.engine = .mongodb →
      c.Sets "mongodb_uri" ∧ c.Sets "mongodb_database" := by
  unfold configFindings
  match p.configs with
  | [] => simp
  | [c] => simp [c.settingFindings_eq_nil_iff]
  | c :: c' :: rest => simp

/-- That a configured document engine needs a document block says no more than that all
blocks use the engine of the configuration. -/
theorem engineFindings_eq_nil_iff :
    p.engineFindings = [] ↔ ∀ b ∈ p.databases, b.engine = p.engine := by
  unfold engineFindings
  rw [List.append_eq_nil_iff, List.flatMap_eq_nil_iff]
  simp only [demand_eq_nil_iff, decide_eq_true_eq]
  rw [and_iff_left_iff_imp]
  intro h
  cases p.configs.head? with
  | none => rfl
  | some c =>
    simp only [demand_eq_nil_iff]
    cases hdatabases : p.databases with
    | nil => simp
    | cons b bs =>
      have hb : b.engine = p.engine := h b (by simp [hdatabases])
      cases hdocument : p.engine.isDocument <;> simp [hb, hdocument]

theorem engine_eq_iff (hone : p.configs.length ≤ 1) (engine : Engine) :
    engine = p.engine ↔
      (∀ c ∈ p.configs, engine = c.engine) ∧ (p.configs = [] → engine = .postgres) := by
  unfold Program.engine
  match hconfigs : p.configs, hone with
  | [], _ => simp [Engine.fallback]
  | [c], _ => simp

theorem placedFindings_eq_nil_iff :
    eachAfter Placed.findings [] p.placed = [] ↔
      (∀ b ∈ p.databases, ∀ d ∈ b.declarations, b.engine.Holds d) ∧
        (p.placed.filterMap (·.declaration.schemaName?)).Nodup := by
  have hholds : (∀ x ∈ p.placed, x.engine.Holds x.declaration) ↔
      ∀ b ∈ p.databases, ∀ d ∈ b.declarations, b.engine.Holds d := by
    unfold placed
    simp only [List.forall_mem_flatMap, List.forall_mem_map]
  rw [eachAfter_eq_nil_iff_nodup_filterMap Placed.schemaName? _ Placed.findings_eq_nil_iff,
    ← hholds, and_comm]
  refine and_congr_right fun h => ?_
  rw [List.filterMap_congr fun x hx => Placed.schemaName?_eq (h x hx)]

/-- The schema pass finds nothing exactly in the programs whose configuration and schemas are
well formed. -/
theorem schemaFindings_eq_nil_iff : p.schemaFindings = [] ↔ p.SchemasFit := by
  unfold schemaFindings
  rw [List.append_eq_nil_iff, List.append_eq_nil_iff, configFindings_eq_nil_iff,
    engineFindings_eq_nil_iff, placedFindings_eq_nil_iff]
  constructor
  · rintro ⟨⟨⟨hone, hsettings⟩, hengines⟩, hdeclarations, hdistinct⟩
    have hengine (b : DatabaseBlock) (hb : b ∈ p.databases) :=
      (p.engine_eq_iff hone b.engine).mp (hengines b hb)
    exact ⟨hone, hsettings, fun b hb => (hengine b hb).1, fun hnone b hb => (hengine b hb).2 hnone,
      hdeclarations, hdistinct⟩
  · intro h
    have hengine (b : DatabaseBlock) (hb : b ∈ p.databases) : b.engine = p.engine :=
      (p.engine_eq_iff h.oneConfig b.engine).mpr ⟨h.engines b hb, fun hnone => h.fallback hnone b hb⟩
    exact ⟨⟨⟨h.oneConfig, h.settings⟩, hengine⟩, h.declarations, h.distinct⟩

end Program

end ServiceLang
