import ServiceLang.Check.Schema
import ServiceLang.Proofs.Check.RelocatedNames

/-!
Schemas of relocated programs.

The checks of the configuration, of the engines of database blocks and of the models and
collections in them commute with `relocate`.  Fields of collections are embedded in each other,
so their check is followed along the recursion into embedded documents.
-/

namespace ServiceLang

variable (f : Position → Position)

def SchemaProblem.relocate : SchemaProblem → SchemaProblem
  | .secondConfig first => .secondConfig (f first)
  | .duplicateSchema schema first => .duplicateSchema schema (f first)
  | problem => problem

def SchemaFindings.relocate (xs : SchemaFindings) : SchemaFindings :=
  xs.map (Finding.relocate f (SchemaProblem.relocate f))

namespace SchemaFindings

@[simp] theorem relocate_append (xs ys : SchemaFindings) :
    relocate f (xs ++ ys) = relocate f xs ++ relocate f ys :=
  List.map_append

@[simp] theorem relocate_demand (holds : Bool) (pos : Position) (problem : SchemaProblem) :
    relocate f (demand holds pos problem) = demand holds (f pos) (problem.relocate f) :=
  demand_relocate f _ holds pos problem

theorem relocate_flatMap {α : Type} (check : α → SchemaFindings) (as : List α) :
    relocate f (as.flatMap check) = as.flatMap fun a => relocate f (check a) :=
  List.map_flatMap

end SchemaFindings

@[simp] theorem Config.hasSetting_relocate (c : Config) (key : String) :
    (c.relocate f).hasSetting key = c.hasSetting key := by
  unfold hasSetting
  rw [relocate, Property.string?_relocate]

theorem Config.settingFindings_relocate (c : Config) :
    (c.relocate f).settingFindings = SchemaFindings.relocate f c.settingFindings := by
  have hengine : (c.relocate f).engine = c.engine := rfl
  unfold settingFindings
  rw [hengine]
  split
  · rw [SchemaFindings.relocate_flatMap]
    simp only [hasSetting_relocate, SchemaFindings.relocate_demand]
    rfl
  · rfl

namespace Field

@[simp] theorem name_relocate (x : Field) : (x.relocate f).name = x.name := by
  cases x; rfl

@[simp] theorem pos_relocate (x : Field) : (x.relocate f).pos = f x.pos := by
  cases x; rfl

@[simp] theorem fieldType_relocate (x : Field) : (x.relocate f).fieldType = x.fieldType := by
  cases x; rfl

@[simp] theorem modifiers_relocate (x : Field) :
    (x.relocate f).modifiers = x.modifiers.map (Modifier.relocate f) := by
  cases x; rfl

@[simp] theorem fields_relocate (x : Field) :
    (x.relocate f).fields = x.fields.map (Field.relocate f) := by
  cases x
  exact relocateAll_eq_map f _

theorem checkModifier_relocate (field : String) (earlier : List Modifier) (m : Modifier) :
    checkModifier field (earlier.map (Modifier.relocate f)) (m.relocate f) =
      SchemaFindings.relocate f (checkModifier field earlier m) := by
  have hany : (earlier.map (Modifier.relocate f)).any (·.name == (m.relocate f).name) =
      earlier.any (·.name == m.name) := by
    rw [List.any_map]
    rfl
  have hname : (m.relocate f).name = m.name := rfl
  unfold checkModifier
  rw [hany, hname]
  split
  · rfl
  · cases modifierArguments.lookup m.name with
    | none => rfl
    | some takes =>
      cases takes
      all_goals
        dsimp only
        rw [SchemaFindings.relocate_demand]
        rfl

@[simp] theorem hasModifier_relocate (x : Field) (name : String) :
    (x.relocate f).hasModifier name = x.hasModifier name := by
  unfold hasModifier
  rw [modifiers_relocate, List.any_map]
  rfl

theorem modifierFindings_relocate (x : Field) :
    (x.relocate f).modifierFindings = SchemaFindings.relocate f x.modifierFindings := by
  have hmodifiers := eachAfter_map (checkModifier_relocate f x.name) [] x.modifiers
  unfold modifierFindings
  rw [name_relocate, modifiers_relocate, SchemaFindings.relocate_append,
    SchemaFindings.relocate_demand, hasModifier_relocate, hasModifier_relocate, pos_relocate]
  exact congrArg (· ++ _) hmodifiers

theorem headFindings_relocate (schema : SchemaRef) (types earlier : List String) (x : Field) :
    headFindings schema types earlier (x.relocate f) =
      SchemaFindings.relocate f (headFindings schema types earlier x) := by
  unfold headFindings
  rw [name_relocate, fieldType_relocate, pos_relocate, SchemaFindings.relocate_append,
    SchemaFindings.relocate_demand, SchemaFindings.relocate_demand]
  rfl

theorem modelFindings_relocate (schema : SchemaRef) (earlier : List Field) (x : Field) :
    modelFindings schema (earlier.map (Field.relocate f)) (x.relocate f) =
      SchemaFindings.relocate f (modelFindings schema earlier x) := by
  have hnames : (earlier.map (Field.relocate f)).map name = earlier.map name := by
    rw [List.map_map]
    exact List.map_congr_left fun y _ => y.name_relocate f
  unfold modelFindings
  rw [hnames, headFindings_relocate, modifierFindings_relocate, fields_relocate, List.isEmpty_map,
    SchemaFindings.relocate_append, SchemaFindings.relocate_append, SchemaFindings.relocate_demand,
    pos_relocate, name_relocate]
  rfl

theorem relationalFindings_relocate (x : Field) :
    (x.relocate f).relationalFindings = SchemaFindings.relocate f x.relationalFindings := by
  unfold relationalFindings
  rw [SchemaFindings.relocate_flatMap, modifiers_relocate, List.flatMap_map]
  simp only [SchemaFindings.relocate_demand, name_relocate]
  rfl

mutual

theorem documentFindings_relocate (schema : SchemaRef) (depth : Nat) (earlier : List String) :
    ∀ x : Field, (x.relocate f).documentFindings schema depth earlier =
      SchemaFindings.relocate f (x.documentFindings schema depth earlier)
  | .mk pos name type modifiers fields => by
    have hhead := headFindings_relocate f schema documentTypes earlier
      (.mk pos name type modifiers fields)
    have hmodifiers := modifierFindings_relocate f (.mk pos name type modifiers fields)
    have hrelational := relationalFindings_relocate f (.mk pos name type modifiers fields)
    have hembedded := documentFindingsAll_relocate schema (depth + 1) [] fields
    have hempty : (Field.relocateAll f fields).isEmpty = fields.isEmpty := by
      rw [relocateAll_eq_map, List.isEmpty_map]
    rw [Field.relocate] at hhead hmodifiers hrelational ⊢
    rw [documentFindings, documentFindings, hhead, hmodifiers, hrelational, hempty, hembedded, SchemaFindings.relocate_append,
      SchemaFindings.relocate_append, SchemaFindings.relocate_append]
    congr 1
    split
    · rfl
    split
    · rfl
    split <;> rfl

theorem documentFindingsAll_relocate (schema : SchemaRef) (depth : Nat) (earlier : List String) :
    ∀ xs : List Field, documentFindingsAll schema depth earlier (Field.relocateAll f xs) =
      SchemaFindings.relocate f (documentFindingsAll schema depth earlier xs)
  | [] => rfl
  | x :: xs => by
    rw [Field.relocateAll, documentFindingsAll, documentFindingsAll, x.documentFindings_relocate,
      name_relocate, documentFindingsAll_relocate schema depth _ xs, SchemaFindings.relocate_append]

end

theorem hasPath_relocate (names : List String) (xs : List Field) :
    hasPath (xs.map (Field.relocate f)) names = hasPath xs names := by
  induction names generalizing xs with
  | nil => rfl
  | cons name rest ih =>
    have hfind : (xs.map (Field.relocate f)).find? (·.name == name) =
        (xs.find? (·.name == name)).map (Field.relocate f) := by
      rw [List.find?_map]
      simp only [Function.comp_def, name_relocate]
    rw [hasPath, hasPath, hfind]
    cases xs.find? (·.name == name) with
    | none => rfl
    | some x =>
      show hasPath (x.relocate f).fields rest = _
      rw [fields_relocate, ih]

end Field

namespace Model

theorem indexFindings_relocate (schema : SchemaRef) (hasField : String → Bool) (indexes : List Index) :
    indexFindings schema hasField (indexes.map (Index.relocate f)) =
      SchemaFindings.relocate f (indexFindings schema hasField indexes) := by
  unfold indexFindings
  rw [List.flatMap_map, SchemaFindings.relocate_flatMap]
  refine congrArg indexes.flatMap (funext fun index => ?_)
  rw [SchemaFindings.relocate_flatMap]
  simp only [SchemaFindings.relocate_demand]
  rfl

theorem modelFindings_relocate (m : Model) :
    (m.relocate f).modelFindings = SchemaFindings.relocate f m.modelFindings := by
  have hfields := eachAfter_map (Field.modelFindings_relocate f ⟨.model, m.name⟩) [] m.fields
  have hnames (name : String) : (m.fields.map (Field.relocate f)).any (·.name == name) =
      m.fields.any (·.name == name) := by
    rw [List.any_map]
    simp only [Function.comp_def, Field.name_relocate]
  unfold modelFindings relocate
  dsimp only
  rw [SchemaFindings.relocate_append, ← indexFindings_relocate, Field.relocateAll_eq_map]
  simp only [hnames]
  exact congrArg (· ++ _) hfields

theorem collectionFindings_relocate (m : Model) :
    (m.relocate f).collectionFindings = SchemaFindings.relocate f m.collectionFindings := by
  unfold collectionFindings relocate
  dsimp only
  rw [SchemaFindings.relocate_append, ← indexFindings_relocate, Field.documentFindingsAll_relocate]
  simp only [Field.relocateAll_eq_map, Field.hasPath_relocate]

end Model

namespace Placed

def relocate (p : Placed) : Placed := ⟨p.engine, p.declaration.relocate f⟩

theorem schema?_relocate (p : Placed) :
    (p.relocate f).schema? = p.schema?.map fun x => (x.1, x.2.relocate f) := by
  obtain ⟨engine, s⟩ := p
  cases s with
  | model m | collection m =>
    unfold schema? relocate Stmt.relocate
    dsimp only
    split <;> rfl
  | ifStmt _ _ _ other => cases other <;> rfl
  | _ => rfl

theorem nameFindings_relocate (earlier : List Placed) (kind : SchemaKind) (m : Model) :
    nameFindings (earlier.map (relocate f)) kind (m.relocate f) =
      SchemaFindings.relocate f (nameFindings earlier kind m) := by
  have hschemas : (earlier.map (relocate f)).filterMap schema? =
      (earlier.filterMap schema?).map fun x => (x.1, x.2.relocate f) := by
    rw [List.filterMap_map, List.map_filterMap]
    exact congrArg (List.filterMap · earlier) (funext (schema?_relocate f))
  have hname : (m.relocate f).name = m.name := rfl
  unfold nameFindings
  have hfind : ((earlier.filterMap schema?).map fun x => (x.1, x.2.relocate f)).find?
        (·.2.name == m.name) =
      ((earlier.filterMap schema?).find? (·.2.name == m.name)).map fun x => (x.1, x.2.relocate f) := by
    rw [List.find?_map]
    rfl
  rw [hschemas, hname, hfind]
  cases (earlier.filterMap schema?).find? (·.2.name == m.name) <;> rfl

theorem findings_relocate (earlier : List Placed) (p : Placed) :
    findings (earlier.map (relocate f)) (p.relocate f) =
      SchemaFindings.relocate f (findings earlier p) := by
  have hschema := schema?_relocate f p
  unfold findings
  rw [hschema]
  cases hp : p.schema? with
  | some x =>
    obtain ⟨kind, m⟩ := x
    cases kind with
    | model =>
      show nameFindings _ .model (m.relocate f) ++ (m.relocate f).modelFindings = _
      rw [nameFindings_relocate, Model.modelFindings_relocate, SchemaFindings.relocate_append]
    | collection =>
      show nameFindings _ .collection (m.relocate f) ++ (m.relocate f).collectionFindings = _
      rw [nameFindings_relocate, Model.collectionFindings_relocate, SchemaFindings.relocate_append]
  | none =>
    obtain ⟨engine, s⟩ := p
    cases s with
    | ifStmt _ _ _ other => cases other <;> rfl
    | block b => cases b; rfl
    | _ => rfl

end Placed

def DatabaseBlock.relocate (b : DatabaseBlock) : DatabaseBlock :=
  ⟨f b.pos, b.engine, b.declarations.map (Stmt.relocate f)⟩

namespace Program

variable (p : Program)

theorem configs_relocate : (p.relocate f).configs = p.configs.map (Config.relocate f) := by
  refine p.filterMap_relocate fun s => ?_
  cases s with
  | ifStmt _ _ _ other => cases other <;> rfl
  | _ => rfl

theorem databases_relocate : (p.relocate f).databases = p.databases.map (DatabaseBlock.relocate f) := by
  refine p.filterMap_relocate fun s => ?_
  cases s with
  | ifStmt _ _ _ other => cases other <;> rfl
  | database pos engine declarations =>
    show some (DatabaseBlock.mk _ _ (Stmt.relocateAll f declarations)) = _
    rw [Stmt.relocateAll_eq_map]
    rfl
  | _ => rfl

theorem engine_relocate : (p.relocate f).engine = p.engine := by
  unfold engine
  rw [configs_relocate, List.head?_map, Option.map_map]
  rfl

theorem configFindings_relocate :
    (p.relocate f).configFindings = SchemaFindings.relocate f p.configFindings := by
  unfold configFindings
  rw [configs_relocate]
  cases p.configs with
  | nil => rfl
  | cons first rest =>
    show (first.relocate f).settingFindings ++ _ = _
    rw [Config.settingFindings_relocate, SchemaFindings.relocate_append, List.map_map]
    congr 1
    unfold SchemaFindings.relocate
    rw [List.map_map]
    rfl

theorem engineFindings_relocate :
    (p.relocate f).engineFindings = SchemaFindings.relocate f p.engineFindings := by
  have hany : (p.databases.map (DatabaseBlock.relocate f)).any (·.engine.isDocument) =
      p.databases.any (·.engine.isDocument) := by
    rw [List.any_map]
    rfl
  unfold engineFindings
  rw [engine_relocate, databases_relocate, configs_relocate, SchemaFindings.relocate_append,
    SchemaFindings.relocate_flatMap, List.flatMap_map, List.isEmpty_map, hany, List.isEmpty_map]
  simp only [SchemaFindings.relocate_demand]
  refine congrArg (_ ++ ·) ?_
  rw [List.head?_map]
  cases p.configs.head? with
  | none => rfl
  | some c =>
    show demand _ (f c.pos) _ = SchemaFindings.relocate f (demand _ c.pos _)
    rw [SchemaFindings.relocate_demand]
    rfl

theorem placed_relocate : (p.relocate f).placed = p.placed.map (Placed.relocate f) := by
  unfold placed
  rw [databases_relocate, List.flatMap_map, List.map_flatMap]
  refine congrArg p.databases.flatMap (funext fun b => ?_)
  rw [DatabaseBlock.relocate, List.map_map, List.map_map]
  rfl

theorem schemaFindings_relocate :
    (p.relocate f).schemaFindings = SchemaFindings.relocate f p.schemaFindings := by
  have hplaced := eachAfter_map (Placed.findings_relocate f) [] p.placed
  unfold schemaFindings
  rw [configFindings_relocate, engineFindings_relocate, placed_relocate,
    SchemaFindings.relocate_append, SchemaFindings.relocate_append]
  exact congrArg (_ ++ ·) hplaced

end Program

end ServiceLang
