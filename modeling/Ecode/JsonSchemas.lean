-- The schemas of tools (core/src/openai_tools.rs): how a schema is read from JSON,
-- how it is written, and how the schema of a foreign tool is made readable first.
import Ecode.Ascending
import Ecode.Entries
import Ecode.Json

namespace Ecode.openai_tools

open json ascending entries

/-! ## Schemas -/

inductive AdditionalProperties (S : Type) where
  | Boolean (b : Bool)
  | Schema (schema : S)

/-- The three ways to combine schemas. -/
inductive Combiner where
  | any_of
  | one_of
  | all_of
  deriving DecidableEq, Repr

def Combiner.key : Combiner → Text
  | .any_of => "anyOf".toList
  | .one_of => "oneOf".toList
  | .all_of => "allOf".toList

/-- The `AnyOf`, `OneOf` and `AllOf` of the source are one constructor. The properties of an object
are the entries of an ordered map. -/
inductive JsonSchema where
  | Boolean (description : Option Text)
  | String (description : Option Text) (allowed_values : Option (List Text))
  | Number (description : Option Text)
  | Array (items : JsonSchema) (description : Option Text)
  | Object (properties : List (Text × JsonSchema)) (required : Option (List Text))
      (additional_properties : Option (AdditionalProperties JsonSchema))
  | Combined (combiner : Combiner) (variants : List JsonSchema) (description : Option Text)

/-! ## Reading -/

inductive SchemaError where
  | not_an_object
  | variants_not_an_array (key : Text)
  | missing_type
  | enum_not_strings
  | enum_not_an_array
  | missing_items
  | properties_not_an_object
  | required_not_strings
  | required_not_an_array
  | additional_properties
  | unsupported_type (other : Text)
  deriving DecidableEq, Repr

/-- The text of an error. `debug` is `{:?}` of a string. -/
def SchemaError.message (debug : Text → Text) : SchemaError → Text
  | .not_an_object => "expected JSON schema object".toList
  | .variants_not_an_array key => key ++ " must be an array".toList
  | .missing_type => "missing JSON schema type".toList
  | .enum_not_strings => "string enum values must be strings".toList
  | .enum_not_an_array => "string enum must be an array".toList
  | .missing_items => "array schema missing items".toList
  | .properties_not_an_object => "object schema properties must be an object".toList
  | .required_not_strings => "required entries must be strings".toList
  | .required_not_an_array => "object schema required must be an array".toList
  | .additional_properties =>
    "data did not match any variant of untagged enum AdditionalProperties".toList
  | .unsupported_type other => "unsupported JSON schema type ".toList ++ debug other

/-- The entries of an ordered map that are put into it one by one. -/
def collect {V : Type} (entries : List (Text × V)) : List (Text × V) :=
  entries.foldl (fun map e => upsert Prod.fst e.1 e (fun old => (old.1, e.2)) map) []

def string_or (error : SchemaError) (value : Json) : Except SchemaError Text :=
  match value.as_string with
  | some t => .ok t
  | none => .error error

/-- A list of strings that need not be there. -/
def optional_strings (not_strings not_an_array : SchemaError) :
    Option Json → Except SchemaError (Option (List Text))
  | some (.array values) => (values.mapM (string_or not_strings)).map some
  | some _ => .error not_an_array
  | none => .ok none

/-- The first combiner that the schema has. -/
def combined (value : Json) : Option (Combiner × Json) :=
  [Combiner.any_of, .one_of, .all_of].findSome? fun c => (value.get c.key).map fun v => (c, v)

theorem sizeOf_lookup {key : Text} {value : Json} {entries : List (Text × Json)}
    (h : entries.lookup key = some value) : sizeOf value < sizeOf entries := by
  induction entries with
  | nil => exact nomatch h
  | cons e entries ih =>
    obtain ⟨name, v⟩ := e
    rw [List.lookup_cons] at h
    split at h
    · obtain rfl := Option.some.inj h
      simp only [List.cons.sizeOf_spec, Prod.mk.sizeOf_spec]
      omega
    · have := ih h
      simp only [List.cons.sizeOf_spec]
      omega

theorem sizeOf_get {key : Text} {value schema : Json} (h : value.get key = some schema) :
    sizeOf schema < sizeOf value := by
  cases value with
  | object entries =>
    have := sizeOf_lookup h
    simp only [Json.object.sizeOf_spec]
    omega
  | _ => exact nomatch h

theorem sizeOf_combined {value variants : Json} {c : Combiner}
    (h : combined value = some (c, variants)) : sizeOf variants < sizeOf value := by
  obtain ⟨c', -, hc⟩ := List.exists_of_findSome?_eq_some h
  obtain ⟨v, hv, heq⟩ := Option.map_eq_some_iff.mp hc
  obtain ⟨rfl, rfl⟩ := Prod.mk.inj heq
  exact sizeOf_get hv

def parse_json_schema_value (value : Json) : Except SchemaError JsonSchema :=
  if value.is_object = false then .error .not_an_object
  else
    let description := (value.get "description".toList).bind Json.as_string
    match _hcombined : combined value with
    | some (combiner, .array values) =>
      (values.attach.mapM fun v => parse_json_schema_value v.1).map fun variants =>
        .Combined combiner variants description
    | some (combiner, _) => .error (.variants_not_an_array combiner.key)
    | none =>
      match (value.get "type".toList).bind Json.as_string with
      | none => .error .missing_type
      | some schema_type =>
        if schema_type = "boolean".toList then .ok (.Boolean description)
        else if schema_type = "string".toList then
          (optional_strings .enum_not_strings .enum_not_an_array (value.get "enum".toList)).map
            fun allowed_values => .String description allowed_values
        else if schema_type = "number".toList ∨ schema_type = "integer".toList then
          .ok (.Number description)
        else if schema_type = "array".toList then
          match _hitems : value.get "items".toList with
          | none => .error .missing_items
          | some items => (parse_json_schema_value items).map fun items => .Array items description
        else if schema_type = "object".toList then do
          let properties ← (match _hproperties : value.get "properties".toList with
            | some (.object properties) =>
              properties.attach.mapM fun e =>
                (parse_json_schema_value e.1.2).map fun schema => (e.1.1, schema)
            | some _ => .error .properties_not_an_object
            | none => .ok [])
          let required ← optional_strings .required_not_strings .required_not_an_array
            (value.get "required".toList)
          let additional_properties ←
            (match _hadditional : value.get "additionalProperties".toList with
            | none => .ok none
            | some (.bool b) => .ok (some (.Boolean b))
            | some schema =>
              match parse_json_schema_value schema with
              | .ok schema => .ok (some (.Schema schema))
              | .error _ => .error .additional_properties)
          .ok (.Object (collect properties) required additional_properties)
        else .error (.unsupported_type schema_type)
termination_by sizeOf value
decreasing_by
  · have hlist := sizeOf_combined _hcombined
    have hmem := List.sizeOf_lt_of_mem v.2
    simp only [Json.array.sizeOf_spec] at hlist
    omega
  · exact sizeOf_get _hitems
  · have hmap := sizeOf_get _hproperties
    have hmem := List.sizeOf_lt_of_mem e.2
    have hentry : sizeOf e.1.2 < sizeOf e.1 := by
      obtain ⟨⟨name, schema⟩, he⟩ := e
      simp only [Prod.mk.sizeOf_spec]
      omega
    simp only [Json.object.sizeOf_spec] at hmap
    omega
  · exact sizeOf_get _hadditional

/-! ## Writing -/

mutual

def serialize : JsonSchema → Json
  | .Boolean description =>
    .fields [("type".toList, some (.string "boolean".toList)),
      ("description".toList, description.map .string)]
  | .String description allowed_values =>
    .fields [("type".toList, some (.string "string".toList)),
      ("description".toList, description.map .string),
      ("enum".toList, allowed_values.map .of_strings)]
  | .Number description =>
    .fields [("type".toList, some (.string "number".toList)),
      ("description".toList, description.map .string)]
  | .Array items description =>
    .fields [("type".toList, some (.string "array".toList)),
      ("items".toList, some (serialize items)),
      ("description".toList, description.map .string)]
  | .Object properties required additional_properties =>
    .fields [("type".toList, some (.string "object".toList)),
      ("properties".toList, some (.object (serialize_properties properties))),
      ("required".toList, some (.of_strings (required.getD (properties.map Prod.fst)))),
      ("additionalProperties".toList, serialize_additional additional_properties)]
  | .Combined combiner variants description =>
    .fields [(combiner.key, some (.array (serialize_all variants))),
      ("description".toList, description.map .string)]

def serialize_properties : List (Text × JsonSchema) → List (Text × Json)
  | [] => []
  | (name, schema) :: properties => (name, serialize schema) :: serialize_properties properties

def serialize_all : List JsonSchema → List Json
  | [] => []
  | schema :: schemas => serialize schema :: serialize_all schemas

def serialize_additional : Option (AdditionalProperties JsonSchema) → Option Json
  | none => none
  | some (.Boolean b) => some (.bool b)
  | some (.Schema schema) => some (serialize schema)

end

/-! ## Foreign schemas -/

def string_schema : Json := .object [("type".toList, .string "string".toList)]

def nested_holders : List Text :=
  ["items".toList, "oneOf".toList, "anyOf".toList, "allOf".toList, "prefixItems".toList]

def supported_types : List Text :=
  ["object".toList, "array".toList, "string".toList, "number".toList, "integer".toList,
    "boolean".toList]

/-- The type that the schema says, or the first that is supported of several. -/
def declared_type (map : List (Text × Json)) : Option Text :=
  match map.lookup "type".toList with
  | some (.string ty) => some ty
  | some (.array types) => (types.filterMap Json.as_string).find? fun ty => ty ∈ supported_types
  | _ => none

def is_combined (map : List (Text × Json)) : Bool :=
  ["oneOf".toList, "anyOf".toList, "allOf".toList].any (has map)

/-- The type that the keywords of the schema tell. -/
def inferred_type (map : List (Text × Json)) : Option Text :=
  if ["properties".toList, "required".toList, "additionalProperties".toList].any
      (has map) then some "object".toList
  else if ["items".toList, "prefixItems".toList].any (has map) then some "array".toList
  else if ["enum".toList, "const".toList, "format".toList].any (has map) then
    some "string".toList
  else if ["minimum".toList, "maximum".toList, "exclusiveMinimum".toList,
      "exclusiveMaximum".toList, "multipleOf".toList].any (has map) then
    some "number".toList
  else none

/-- An object schema has properties, and its `additional` properties are as given. -/
def ensure_properties (additional : Option Json) (map : List (Text × Json)) : List (Text × Json) :=
  let map := if has map "properties".toList then map
    else put "properties".toList (.object []) map
  match additional with
  | some schema => put "additionalProperties".toList schema map
  | none => map

def ensure_items (map : List (Text × Json)) : List (Text × Json) :=
  if has map "items".toList then map else put "items".toList string_schema map

/-- The end of `sanitize_json_schema` of an object: what is nested in it has been sanitized, and
`additional` is what becomes of its additional properties if it has the type of an object. -/
def ensure_type (additional : Option Json) (map : List (Text × Json)) : List (Text × Json) :=
  let declared := declared_type map
  if declared.isNone && is_combined map then map
  else
    let ty := (declared <|> inferred_type map).getD "string".toList
    let map := put "type".toList (.string ty) map
    let map := if ty = "object".toList then ensure_properties additional map else map
    if ty = "array".toList then ensure_items map else map

mutual

def sanitize_json_schema : Json → Json
  | .bool _ => string_schema
  | .array schemas => .array (sanitize_all schemas)
  | .object map => .object (ensure_type (sanitize_additional map) (sanitize_nested map))
  | .null => .null
  | .number n => .number n
  | .string t => .string t

def sanitize_all : List Json → List Json
  | [] => []
  | schema :: schemas => sanitize_json_schema schema :: sanitize_all schemas

def sanitize_values : List (Text × Json) → List (Text × Json)
  | [] => []
  | (name, schema) :: map => (name, sanitize_json_schema schema) :: sanitize_values map

/-- The known holders of nested schemas. -/
def sanitize_nested : List (Text × Json) → List (Text × Json)
  | [] => []
  | (name, .object properties) :: map =>
    (if name = "properties".toList then (name, .object (sanitize_values properties))
      else if name ∈ nested_holders then (name, sanitize_json_schema (.object properties))
      else (name, .object properties)) :: sanitize_nested map
  | (name, value) :: map =>
    (if name ∈ nested_holders then (name, sanitize_json_schema value) else (name, value)) ::
      sanitize_nested map

/-- A boolean is left as it is. -/
def sanitize_additional : List (Text × Json) → Option Json
  | [] => none
  | (name, value) :: map =>
    if name = "additionalProperties".toList then
      match value with
      | .bool b => some (.bool b)
      | value => some (sanitize_json_schema value)
    else sanitize_additional map

end

def parse_tool_input_schema (input_schema : Json) : Except SchemaError JsonSchema :=
  parse_json_schema_value (sanitize_json_schema input_schema)

end Ecode.openai_tools
