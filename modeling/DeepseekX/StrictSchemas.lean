import Mathlib.Data.List.Basic

/-!
# Strict schemas for DeepSeek

With strict tools the parameters of a function are sent with every object closed: all its
properties are required and there are no others. The normalisation walks the schema through
its properties, items and variants. It recognises an object by its single type.
-/

namespace DeepseekX.StrictSchemas
open List
open Option (some map_congr Rel)

inductive JsonSchemaPrimitiveType where
  | string | number | boolean | integer | object | array | null
  deriving DecidableEq, Repr

inductive JsonSchemaType where
  | single (type : JsonSchemaPrimitiveType)
  | multiple (types : List JsonSchemaPrimitiveType)
  deriving DecidableEq, Repr

inductive AdditionalProperties (σ : Type) where
  | boolean (allowed : Bool)
  | schema (schema : σ)

/-- The properties are listed in the order of their names. -/
structure JsonSchema (V : Type) where
  schemaType : Option JsonSchemaType
  description : Option String
  enumValues : Option (List V)
  items : Option (JsonSchema V)
  properties : Option (List (String × JsonSchema V))
  required : Option (List String)
  additionalProperties : Option (AdditionalProperties (JsonSchema V))
  anyOf : Option (List (JsonSchema V))

variable {V : Type}

namespace JsonSchema

def objectType : Option JsonSchemaType := some (.single .object)

variable (schema : JsonSchema V)

def propertyNames : List String :=
  (schema.properties.getD []).map (·.1)

/-- The last part of the normalisation: an object is closed. -/
def close : JsonSchema V :=
  if schema.schemaType = objectType then
    { schema with
      required := some schema.propertyNames
      additionalProperties := some (.boolean false) }
  else schema

theorem sizeOf_property {property : String × JsonSchema V}
    {properties : List (String × JsonSchema V)} (h : property ∈ properties) :
    sizeOf property.2 < sizeOf properties := by
  have hproperty := sizeOf_lt_of_mem h
  obtain ⟨name, schema⟩ := property
  rw [Prod.mk.sizeOf_spec] at hproperty
  dsimp only
  omega

def normalizeDeepseekStrictSchema : JsonSchema V → JsonSchema V
  | ⟨schemaType, description, enumValues, items, properties, required, additionalProperties,
      anyOf⟩ =>
    let schemaType := if schemaType.isNone && properties.isSome then objectType else schemaType
    let properties := match properties with
      | none => none
      | some properties => some (properties.map fun property =>
          (property.1, normalizeDeepseekStrictSchema property.2))
    let items := match items with
      | none => none
      | some items => some (normalizeDeepseekStrictSchema items)
    let anyOf := match anyOf with
      | none => none
      | some variants => some (variants.map fun variant => normalizeDeepseekStrictSchema variant)
    close ⟨schemaType, description, enumValues, items, properties, required,
      additionalProperties, anyOf⟩
termination_by schema => sizeOf schema
decreasing_by
  · have hproperty := sizeOf_property ‹property ∈ _›
    simp only [JsonSchema.mk.sizeOf_spec, some.sizeOf_spec]
    omega
  · decreasing_tactic
  · decreasing_tactic

def isEmptySchema : Bool :=
  schema.schemaType.isNone && schema.properties.isNone && schema.items.isNone && schema.anyOf.isNone

variable (parameters : JsonSchema V)

def rootObject : JsonSchema V :=
  if parameters.isEmptySchema then
    { parameters with schemaType := objectType, properties := some [] }
  else parameters

def deepseekStrictParameters : JsonSchema V :=
  parameters.rootObject.normalizeDeepseekStrictSchema

inductive Step where
  | property (index : ℕ)
  | items
  | variant (index : ℕ)

def child : Step → Option (JsonSchema V)
  | .property index => ((schema.properties.getD [])[index]?).map (·.2)
  | .items => schema.items
  | .variant index => (schema.anyOf.getD [])[index]?

def subschema : List Step → JsonSchema V → Option (JsonSchema V)
  | [], schema => some schema
  | step :: path, schema => (schema.child step).bind (subschema path)

def admitsObject : Option JsonSchemaType → Bool
  | some (.single type) => type == .object
  | some (.multiple types) => types.contains .object
  | none => false

def IsObject : Prop :=
  schema.properties.isSome = true ∨ admitsObject schema.schemaType = true

/-- Exactly the properties are required, and there are no others. -/
def Closed : Prop :=
  schema.required = some schema.propertyNames ∧ schema.additionalProperties = some (.boolean false)

/-- Two schemas agree apart from their type, required and additional properties, and apart
from what their subschemas are. -/
def SameFields (schema other : JsonSchema V) : Prop :=
  schema.description = other.description ∧ schema.enumValues = other.enumValues ∧
    schema.items.isSome = other.items.isSome ∧
    (schema.properties.map fun properties => properties.map (·.1)) =
      (other.properties.map fun properties => properties.map (·.1)) ∧
    schema.anyOf.map length = other.anyOf.map length

def mapChildren (f : JsonSchema V → JsonSchema V) (schema : JsonSchema V) : JsonSchema V :=
  { schema with
    items := schema.items.map f
    properties := schema.properties.map fun properties => properties.map (Prod.map id f)
    anyOf := schema.anyOf.map (map f) }

def typed : JsonSchema V :=
  { schema with
    schemaType := if schema.schemaType.isNone && schema.properties.isSome then objectType
      else schema.schemaType }

theorem normalize_eq :
    schema.normalizeDeepseekStrictSchema =
      close (typed (mapChildren normalizeDeepseekStrictSchema schema)) := by
  obtain ⟨_, _, _, items, properties, _, _, anyOf⟩ := schema
  rw [normalizeDeepseekStrictSchema.eq_def]
  cases items <;> cases properties <;> cases anyOf <;> rfl

section Levels
variable (schema : JsonSchema V) (f : JsonSchema V → JsonSchema V)

theorem close_cases : schema.close = schema ∧ schema.schemaType ≠ objectType ∨
    schema.close = { schema with
      required := some schema.propertyNames
      additionalProperties := some (.boolean false) } ∧ schema.schemaType = objectType := by
  by_cases h : schema.schemaType = objectType
  · exact .inr ⟨if_pos h, h⟩
  · exact .inl ⟨if_neg h, h⟩

theorem propertyNames_mapChildren :
    (mapChildren f schema).propertyNames = schema.propertyNames := by
  unfold propertyNames mapChildren
  cases schema.properties <;> simp

theorem mapChildren_close_typed :
    mapChildren f (close (typed schema)) = close (typed (mapChildren f schema)) := by
  have htyped : mapChildren f (typed schema) = typed (mapChildren f schema) := by
    simp [mapChildren, typed]
  rw [← htyped]
  unfold close
  by_cases h : (typed schema).schemaType = objectType
  · rw [if_pos h, if_pos (show (mapChildren f (typed schema)).schemaType = objectType from h),
      propertyNames_mapChildren]
    rfl
  · rw [if_neg h, if_neg (show (mapChildren f (typed schema)).schemaType ≠ objectType from h)]

theorem typed_of_object (h : schema.schemaType = objectType) : typed schema = schema := by
  obtain ⟨⟩ := schema
  cases h
  rfl

theorem close_typed_idem : close (typed (close (typed schema))) = close (typed schema) := by
  rcases close_cases (typed schema) with ⟨h, -⟩ | ⟨h, htype⟩
  · have htyped : typed (typed schema) = typed schema := by
      unfold typed
      cases schema.schemaType <;> cases schema.properties <;> rfl
    rw [h, htyped, h]
  · have hobject : typed (close (typed schema)) = close (typed schema) :=
      typed_of_object _ (by rw [h]; exact htype)
    rw [hobject, h]
    exact if_pos htype

theorem child_normalize (step : Step) :
    schema.normalizeDeepseekStrictSchema.child step =
      (schema.child step).map normalizeDeepseekStrictSchema := by
  rw [normalize_eq]
  have hclose : ∀ t : JsonSchema V, (close t).child step = t.child step := by
    intro t
    rcases close_cases t with ⟨h, -⟩ | ⟨h, -⟩ <;> rw [h]
    cases step <;> rfl
  rw [hclose]
  cases step with
  | property index =>
    cases h : schema.properties <;> simp [child, typed, mapChildren, h, Function.comp_def]
  | items => rfl
  | variant index => cases h : schema.anyOf <;> simp [child, typed, mapChildren, h]

theorem sizeOf_child {step : Step} {t : JsonSchema V} (h : schema.child step = some t) :
    sizeOf t < sizeOf schema := by
  obtain ⟨_, _, _, items, properties, _, _, anyOf⟩ := schema
  rw [JsonSchema.mk.sizeOf_spec]
  cases step with
  | property index =>
    obtain ⟨property, hget, rfl⟩ := Option.map_eq_some_iff.mp h
    cases properties with
    | none => cases hget
    | some properties =>
      have hlt : sizeOf property.2 < sizeOf properties :=
        sizeOf_property (mem_of_getElem? hget)
      rw [some.sizeOf_spec]
      omega
  | items =>
    obtain rfl : items = some t := h
    rw [some.sizeOf_spec]
    omega
  | variant index =>
    cases anyOf with
    | none => cases h
    | some variants =>
      have hlt : sizeOf t < sizeOf variants := sizeOf_lt_of_mem (mem_of_getElem? h)
      rw [some.sizeOf_spec]
      omega

end Levels

theorem induction_on {P : JsonSchema V → Prop} (schema : JsonSchema V)
    (h : ∀ schema, (∀ step t, schema.child step = some t → P t) → P schema) : P schema :=
  h schema fun _ t ht =>
    have := sizeOf_child schema ht
    induction_on t h
termination_by sizeOf schema

theorem mapChildren_congr {schema : JsonSchema V} {f g : JsonSchema V → JsonSchema V}
    (h : ∀ step t, schema.child step = some t → f t = g t) :
    mapChildren f schema = mapChildren g schema := by
  unfold mapChildren
  congr 1
  · exact map_congr fun t ht => h .items t ht
  · refine map_congr fun list hlist => map_congr_left fun property hmem => ?_
    obtain ⟨index, hindex⟩ := mem_iff_getElem?.mp hmem
    exact Prod.ext rfl (h (.property index) _ (by simp_all [child]))
  · refine map_congr fun list hlist => map_congr_left fun t hmem => ?_
    obtain ⟨index, hindex⟩ := mem_iff_getElem?.mp hmem
    exact h (.variant index) _ (by simp_all [child])

theorem normalize_normalize (schema : JsonSchema V) :
    schema.normalizeDeepseekStrictSchema.normalizeDeepseekStrictSchema =
      schema.normalizeDeepseekStrictSchema := by
  induction schema using induction_on with
  | h schema ih =>
    have hchildren : mapChildren normalizeDeepseekStrictSchema
        (mapChildren normalizeDeepseekStrictSchema schema) =
        mapChildren normalizeDeepseekStrictSchema schema := by
      refine Eq.trans ?_ (mapChildren_congr ih)
      simp only [mapChildren, Option.map_map, Function.comp_def, map_map]
      rfl
    rw [normalize_eq (normalizeDeepseekStrictSchema schema), normalize_eq schema,
      mapChildren_close_typed, hchildren, close_typed_idem]

theorem subschema_normalize (path : List Step) (schema : JsonSchema V) :
    subschema path schema.normalizeDeepseekStrictSchema =
      (subschema path schema).map normalizeDeepseekStrictSchema := by
  induction path generalizing schema with
  | nil => rfl
  | cons step path ih =>
    rw [subschema, subschema, child_normalize]
    cases schema.child step with
    | none => rfl
    | some t => exact ih t

section Nodes
variable (schema : JsonSchema V)

theorem schemaType_level (f : JsonSchema V → JsonSchema V) :
    (typed (mapChildren f schema)).schemaType = objectType ↔
      schema.schemaType = none ∧ schema.properties.isSome = true ∨
        schema.schemaType = objectType := by
  cases htype : schema.schemaType <;> cases hproperties : schema.properties <;>
    simp [typed, mapChildren, htype, hproperties]

/-- Closing a schema changes what is required and the additional properties. -/
theorem normalize_fields : ∃ required additionalProperties,
    schema.normalizeDeepseekStrictSchema =
      { typed (mapChildren normalizeDeepseekStrictSchema schema) with
        required := required
        additionalProperties := additionalProperties } := by
  rw [normalize_eq]
  rcases close_cases (typed (mapChildren normalizeDeepseekStrictSchema schema)) with
    ⟨h, -⟩ | ⟨h, -⟩ <;> rw [h]
  · exact ⟨_, _, rfl⟩
  · exact ⟨_, _, rfl⟩

theorem normalize_node :
    (schema.normalizeDeepseekStrictSchema.IsObject ↔ schema.IsObject) ∧
      schema.normalizeDeepseekStrictSchema.isEmptySchema = schema.isEmptySchema ∧
      SameFields schema.normalizeDeepseekStrictSchema schema := by
  obtain ⟨required, additionalProperties, h⟩ := normalize_fields schema
  rw [h]
  cases htype : schema.schemaType <;> cases hproperties : schema.properties <;>
    cases hvariants : schema.anyOf <;>
    simp [IsObject, isEmptySchema, SameFields, typed, mapChildren, hproperties, hvariants]

/-- An object that the normalisation does not recognise is as closed as it was. -/
theorem closed_normalize_iff (h : schema.IsObject) :
    schema.normalizeDeepseekStrictSchema.Closed ↔
      schema.schemaType = none ∨ schema.schemaType = objectType ∨ schema.Closed := by
  have hlevel := schemaType_level schema normalizeDeepseekStrictSchema
  have hnone : schema.schemaType = none → schema.properties.isSome = true := fun hn =>
    h.resolve_right (by rw [hn]; exact Bool.false_ne_true)
  rw [normalize_eq]
  rcases close_cases (typed (mapChildren normalizeDeepseekStrictSchema schema)) with
    ⟨hc, htype⟩ | ⟨hc, htype⟩
  · obtain ⟨hn, ho⟩ := not_or.mp (hlevel.not.mp htype)
    rw [hc, or_iff_right fun hn' => hn ⟨hn', hnone hn'⟩, or_iff_right ho]
    unfold Closed
    rw [show (typed (mapChildren normalizeDeepseekStrictSchema schema)).propertyNames = _ from
      propertyNames_mapChildren schema normalizeDeepseekStrictSchema]
    rfl
  · rw [hc]
    exact iff_of_true ⟨rfl, rfl⟩ ((hlevel.mp htype).elim (.inl ·.1) fun ho => .inr (.inl ho))

end Nodes

/-- The types with which an object is closed; a closed object stays closed with any type. -/
def Recognised (schema : JsonSchema V) : Prop :=
  ∀ path t, subschema path schema = some t → t.IsObject →
    t.schemaType = none ∨ t.schemaType = objectType ∨ t.Closed

theorem recognised_rootObject_iff : parameters.rootObject.Recognised ↔ parameters.Recognised := by
  by_cases hempty : parameters.isEmptySchema = true
  · obtain ⟨type, _, _, items, properties, _, _, anyOf⟩ := parameters
    obtain ⟨⟨⟨rfl, rfl⟩, rfl⟩, rfl⟩ : ((type = none ∧ properties = none) ∧ items = none) ∧
      anyOf = none := by simpa [isEmptySchema] using hempty
    refine iff_of_true ?_ ?_
    all_goals
      intro path t ht _
      cases path with
      | nil =>
        obtain rfl := some.inj ht
        simp [rootObject, isEmptySchema]
      | cons step path => cases step <;> simp [rootObject, isEmptySchema, subschema, child] at ht
  · rw [rootObject, if_neg hempty]

theorem rootObject_strict :
    parameters.deepseekStrictParameters.rootObject = parameters.deepseekStrictParameters := by
  have hroot : parameters.rootObject.isEmptySchema = false := by
    unfold rootObject
    split
    · rfl
    · next h => simpa using h
  rw [rootObject, deepseekStrictParameters, (normalize_node _).2.1, hroot]
  rfl

/-- The strict parameters close every object exactly when each object of the parameters has
the single type object or no type, or is closed already. The normalisation is idempotent and
leaves the other fields as they are. -/
theorem strict_parameters_complete_iff :
    ((∀ path t, subschema path parameters.deepseekStrictParameters = some t → t.IsObject →
        t.Closed) ∧
      parameters.deepseekStrictParameters.deepseekStrictParameters =
        parameters.deepseekStrictParameters ∧
      ∀ path, Rel SameFields (subschema path parameters.deepseekStrictParameters)
        (subschema path parameters.rootObject)) ↔
    parameters.Recognised := by
  have hidem : parameters.deepseekStrictParameters.deepseekStrictParameters =
      parameters.deepseekStrictParameters := by
    rw [deepseekStrictParameters, rootObject_strict, deepseekStrictParameters, normalize_normalize]
  have hfields : ∀ path, Rel SameFields
      (subschema path parameters.deepseekStrictParameters)
      (subschema path parameters.rootObject) := by
    intro path
    rw [deepseekStrictParameters, subschema_normalize]
    cases subschema path parameters.rootObject with
    | none => exact .none
    | some t => exact .some (normalize_node t).2.2
  rw [← recognised_rootObject_iff, and_iff_left ⟨hidem, hfields⟩]
  simp only [deepseekStrictParameters, subschema_normalize]
  constructor
  · intro h path t ht hobject
    exact (closed_normalize_iff t hobject).mp (h path _ (by rw [ht]; rfl)
      ((normalize_node t).1.mpr hobject))
  · intro h path u hu hobject
    obtain ⟨t, ht, rfl⟩ := Option.map_eq_some_iff.mp hu
    have hobject := (normalize_node t).1.mp hobject
    exact (closed_normalize_iff t hobject).mpr (h path t ht hobject)

def nullableMember : JsonSchema ℕ :=
  let member : JsonSchema ℕ := ⟨some (.multiple [.object, .null]), none, none, none,
    some [("path", ⟨some (.single .string), none, none, none, none, none, none, none⟩)], none,
    none, none⟩
  ⟨objectType, none, none, none, some [("options", member)], none, none, none⟩

theorem nullable_member_left_open :
    ∃ t, subschema [.property 0] nullableMember.deepseekStrictParameters = some t ∧
      t.IsObject ∧ t.propertyNames = ["path"] ∧ t.required = none := by
  rw [deepseekStrictParameters, subschema_normalize]
  refine ⟨_, rfl, .inl ?_, ?_, ?_⟩
  all_goals
    simp [normalize_eq, close, typed, mapChildren, propertyNames, objectType]

end JsonSchema
end DeepseekX.StrictSchemas
