-- The round trip of tool schemas (core/src/openai_tools.rs), and what the
-- sanitizer leaves of a schema that it has seen.
import Ecode.JsonSchemas

namespace Ecode.openai_tools

open json ascending entries

/-! ## One level of reading -/

theorem attach_mapM {m : Type → Type} [Monad m] [LawfulMonad m] {α β : Type} (l : List α)
    (f : α → m β) : (l.attach.mapM fun a => f a.1) = l.mapM f := by
  change l.attach.mapM (f ∘ Subtype.val) = _
  rw [← List.mapM_map, List.attach_map_subtype_val]

theorem is_object_of_get {key : Text} {value v : Json} (h : value.get key = some v) :
    value.is_object = true := by
  cases value <;> first | rfl | exact nomatch h

theorem is_object_of_combined {value : Json} {c : Combiner × Json} (h : combined value = some c) :
    value.is_object = true := by
  obtain ⟨c', -, hc⟩ := List.exists_of_findSome?_eq_some h
  obtain ⟨v, hv, -⟩ := Option.map_eq_some_iff.mp hc
  exact is_object_of_get hv

theorem parse_combined {value : Json} {combiner : Combiner} {values : List Json}
    (h : combined value = some (combiner, .array values)) :
    parse_json_schema_value value = (values.mapM parse_json_schema_value).map fun variants =>
      .Combined combiner variants ((value.get "description".toList).bind Json.as_string) := by
  rw [parse_json_schema_value, if_neg (by simp [is_object_of_combined h])]
  dsimp only
  split
  · next combiner' values' h' =>
    obtain ⟨rfl, hvalues⟩ := Prod.mk.inj (Option.some.inj (h.symm.trans h'))
    obtain rfl := Json.array.inj hvalues
    rw [attach_mapM]
  · next combiner' other hother h' =>
    obtain ⟨rfl, rfl⟩ := Prod.mk.inj (Option.some.inj (h.symm.trans h'))
    exact (hother values rfl).elim
  · next h' => exact absurd (h.symm.trans h') (Option.some_ne_none _)

/-- The reading of a schema with a type. -/
def parse_typed (value : Json) (schema_type : Text) : Except SchemaError JsonSchema :=
  let description := (value.get "description".toList).bind Json.as_string
  if schema_type = "boolean".toList then .ok (.Boolean description)
  else if schema_type = "string".toList then
    (optional_strings .enum_not_strings .enum_not_an_array (value.get "enum".toList)).map
      fun allowed_values => .String description allowed_values
  else if schema_type = "number".toList ∨ schema_type = "integer".toList then
    .ok (.Number description)
  else if schema_type = "array".toList then
    match value.get "items".toList with
    | none => .error .missing_items
    | some items => (parse_json_schema_value items).map fun items => .Array items description
  else if schema_type = "object".toList then do
    let properties ← (match value.get "properties".toList with
      | some (.object properties) =>
        properties.mapM fun e => (parse_json_schema_value e.2).map fun schema => (e.1, schema)
      | some _ => .error .properties_not_an_object
      | none => .ok [])
    let required ← optional_strings .required_not_strings .required_not_an_array
      (value.get "required".toList)
    let additional_properties ← (match value.get "additionalProperties".toList with
      | none => .ok none
      | some (.bool b) => .ok (some (.Boolean b))
      | some schema =>
        match parse_json_schema_value schema with
        | .ok schema => .ok (some (.Schema schema))
        | .error _ => .error .additional_properties)
    .ok (.Object (collect properties) required additional_properties)
  else .error (.unsupported_type schema_type)

theorem parse_type {value : Json} {schema_type : Text} (hcombined : combined value = none)
    (htype : value.get "type".toList = some (.string schema_type)) :
    parse_json_schema_value value = parse_typed value schema_type := by
  rw [parse_json_schema_value, if_neg (by simp [is_object_of_get htype])]
  dsimp only
  split
  · next h' => exact absurd (h'.symm.trans hcombined) (Option.some_ne_none _)
  · next h' => exact absurd (h'.symm.trans hcombined) (Option.some_ne_none _)
  · rw [htype]
    simp only [Option.bind_some, Json.as_string]
    unfold parse_typed
    split_ifs
    case pos => rfl
    case pos => rfl
    case pos => rfl
    case pos =>
      split
      · next hitems => rw [hitems]
      · next items hitems => rw [hitems]
    case pos =>
      refine congrArg₂ Bind.bind ?_ (funext fun properties =>
        congrArg₂ Bind.bind rfl (funext fun required => congrArg₂ Bind.bind ?_ rfl))
      · split
        · next properties hproperties =>
          rw [hproperties]
          exact attach_mapM properties fun e =>
            (parse_json_schema_value e.2).map fun schema => (e.1, schema)
        · next other hother hproperties =>
          rw [hproperties]
          cases other <;> first | rfl | exact (hother _ rfl).elim
        · next hproperties => rw [hproperties]
      · split
        · next hadditional => rw [hadditional]
        · next hadditional => rw [hadditional]
        · next schema hother hadditional =>
          rw [hadditional]
          cases schema <;> first | rfl | exact (hother _ rfl).elim
    case neg => rfl

/-! ## The round trip -/

mutual

/-- The schema with the required properties of its objects written out: where a schema does not name
them, they are all. -/
def explicit : JsonSchema → JsonSchema
  | .Boolean description => .Boolean description
  | .String description allowed_values => .String description allowed_values
  | .Number description => .Number description
  | .Array items description => .Array (explicit items) description
  | .Object properties required additional_properties =>
    .Object (explicit_properties properties) (some (required.getD (properties.map Prod.fst)))
      (explicit_additional additional_properties)
  | .Combined combiner variants description => .Combined combiner (explicit_all variants) description

def explicit_properties : List (Text × JsonSchema) → List (Text × JsonSchema)
  | [] => []
  | (name, schema) :: properties => (name, explicit schema) :: explicit_properties properties

def explicit_all : List JsonSchema → List JsonSchema
  | [] => []
  | schema :: schemas => explicit schema :: explicit_all schemas

def explicit_additional :
    Option (AdditionalProperties JsonSchema) → Option (AdditionalProperties JsonSchema)
  | none => none
  | some (.Boolean b) => some (.Boolean b)
  | some (.Schema schema) => some (.Schema (explicit schema))

end

mutual

/-- The properties of every object in the schema are the entries of an ordered map. -/
def Ordered : JsonSchema → Prop
  | .Boolean _ | .String _ _ | .Number _ => True
  | .Array items _ => Ordered items
  | .Object properties _ additional_properties =>
    Ascending Prod.fst properties ∧ OrderedProperties properties ∧
      OrderedAdditional additional_properties
  | .Combined _ variants _ => OrderedAll variants

def OrderedProperties : List (Text × JsonSchema) → Prop
  | [] => True
  | (_, schema) :: properties => Ordered schema ∧ OrderedProperties properties

def OrderedAll : List JsonSchema → Prop
  | [] => True
  | schema :: schemas => Ordered schema ∧ OrderedAll schemas

def OrderedAdditional : Option (AdditionalProperties JsonSchema) → Prop
  | some (.Schema schema) => Ordered schema
  | _ => True

end

/-- An ordered map is made of its own entries. -/
theorem collect_ascending {V : Type} {entries : List (Text × V)}
    (h : Ascending Prod.fst entries) : collect entries = entries := by
  induction entries using List.reverseRecOn with
  | nil => rfl
  | append_singleton entries e ih =>
    obtain ⟨hentries, -, hlast⟩ := List.pairwise_append.mp h
    unfold collect at ih ⊢
    rw [List.foldl_append, ih hentries]
    have hbefore : ∀ b ∈ entries, b.1 < e.1 := fun b hb => hlast b hb e List.mem_cons_self
    have hafter : ∀ b ∈ ([] : List (Text × V)), e.1 < b.1 := by simp
    simpa using upsert_missing hbefore hafter

theorem explicit_properties_keys (properties : List (Text × JsonSchema)) :
    (explicit_properties properties).map Prod.fst = properties.map Prod.fst := by
  induction properties with
  | nil => rfl
  | cons e properties ih => rw [explicit_properties, List.map_cons, List.map_cons, ih]

theorem optional_strings_of_strings (a b : SchemaError) (ts : List Text) :
    optional_strings a b (some (.of_strings ts)) = .ok (some ts) := by
  have hread : (ts.map Json.string).mapM (string_or a) = .ok ts := by
    induction ts with
    | nil => rfl
    | cons t ts ih =>
      rw [List.map_cons, List.mapM_cons, ih]
      rfl
  simp only [optional_strings, Json.of_strings, hread]
  rfl

theorem serialize_object (schema : JsonSchema) : ∃ map, serialize schema = .object map := by
  cases schema <;> exact ⟨_, rfl⟩

mutual

theorem parse_serialize : ∀ schema, Ordered schema →
    parse_json_schema_value (serialize schema) = .ok (explicit schema)
  | .Boolean description, _ => by
    have htype : (serialize (.Boolean description)).get "type".toList =
        some (.string "boolean".toList) := rfl
    rw [parse_type (by cases description <;> rfl) htype]
    cases description <;> rfl
  | .String description allowed_values, _ => by
    have htype : (serialize (.String description allowed_values)).get "type".toList =
        some (.string "string".toList) := rfl
    have henum : (serialize (.String description allowed_values)).get "enum".toList =
        allowed_values.map .of_strings := by
      cases description <;> cases allowed_values <;> rfl
    have hdescription : ((serialize (.String description allowed_values)).get
        "description".toList).bind Json.as_string = description := by
      cases description <;> cases allowed_values <;> rfl
    rw [parse_type (by cases description <;> cases allowed_values <;> rfl) htype]
    unfold parse_typed
    rw [if_neg (by decide), if_pos rfl, henum, hdescription]
    cases allowed_values with
    | none => rfl
    | some values => rw [Option.map_some, optional_strings_of_strings]; rfl
  | .Number description, _ => by
    have htype : (serialize (.Number description)).get "type".toList =
        some (.string "number".toList) := rfl
    rw [parse_type (by cases description <;> rfl) htype]
    cases description <;> rfl
  | .Array items description, h => by
    have htype : (serialize (.Array items description)).get "type".toList =
        some (.string "array".toList) := rfl
    have hget : (serialize (.Array items description)).get "items".toList =
        some (serialize items) := rfl
    have hdescription : ((serialize (.Array items description)).get "description".toList).bind
        Json.as_string = description := by
      cases description <;> rfl
    rw [parse_type (by cases description <;> rfl) htype]
    unfold parse_typed
    rw [if_neg (by decide), if_neg (by decide), if_neg (by decide), if_pos rfl, hget, hdescription]
    dsimp only
    rw [parse_serialize items h]
    rfl
  | .Object properties required additional_properties, h => by
    obtain ⟨hascending, hproperties, hadditional⟩ := h
    have htype : (serialize (.Object properties required additional_properties)).get
        "type".toList = some (.string "object".toList) := rfl
    have hget : (serialize (.Object properties required additional_properties)).get
        "properties".toList = some (.object (serialize_properties properties)) := rfl
    have hrequired : (serialize (.Object properties required additional_properties)).get
        "required".toList =
          some (.of_strings (required.getD (properties.map Prod.fst))) := rfl
    have hrest : (serialize (.Object properties required additional_properties)).get
        "additionalProperties".toList = serialize_additional additional_properties := by
      rcases additional_properties with _ | _ | _ <;> rfl
    have hcollect : collect (explicit_properties properties) = explicit_properties properties := by
      apply collect_ascending
      unfold Ascending at hascending ⊢
      rw [← List.pairwise_map] at hascending ⊢
      rw [explicit_properties_keys]
      exact hascending
    rw [parse_type (by rcases additional_properties with _ | _ | _ <;> rfl) htype]
    unfold parse_typed
    rw [if_neg (by decide), if_neg (by decide), if_neg (by decide), if_neg (by decide), if_pos rfl,
      hget, hrequired, hrest]
    dsimp only
    rw [parse_properties properties hproperties, optional_strings_of_strings,
      parse_additional additional_properties hadditional]
    simp only [bind, Except.bind, explicit, hcollect]
  | .Combined combiner variants description, h => by
    have hcombined : combined (serialize (.Combined combiner variants description)) =
        some (combiner, .array (serialize_all variants)) := by
      cases combiner <;> cases description <;> rfl
    have hdescription : ((serialize (.Combined combiner variants description)).get
        "description".toList).bind Json.as_string = description := by
      cases combiner <;> cases description <;> rfl
    rw [parse_combined hcombined, hdescription, parse_all variants h]
    rfl

theorem parse_properties : ∀ properties, OrderedProperties properties →
    ((serialize_properties properties).mapM fun e =>
      (parse_json_schema_value e.2).map fun schema => (e.1, schema)) =
      .ok (explicit_properties properties)
  | [], _ => rfl
  | (name, schema) :: properties, h => by
    rw [serialize_properties, List.mapM_cons, parse_properties properties h.2]
    dsimp only
    rw [parse_serialize schema h.1]
    rfl

theorem parse_all : ∀ schemas, OrderedAll schemas →
    (serialize_all schemas).mapM parse_json_schema_value = .ok (explicit_all schemas)
  | [], _ => rfl
  | schema :: schemas, h => by
    rw [serialize_all, List.mapM_cons, parse_all schemas h.2, parse_serialize schema h.1]
    rfl

theorem parse_additional : ∀ additional_properties, OrderedAdditional additional_properties →
    (match serialize_additional additional_properties with
      | none => .ok none
      | some (.bool b) => .ok (some (.Boolean b))
      | some schema =>
        match parse_json_schema_value schema with
        | .ok schema => .ok (some (.Schema schema))
        | .error _ => .error .additional_properties : Except SchemaError _) =
      .ok (explicit_additional additional_properties)
  | none, _ => rfl
  | some (.Boolean b), _ => rfl
  | some (.Schema schema), h => by
    obtain ⟨map, hmap⟩ := serialize_object schema
    have hparse := parse_serialize schema h
    rw [hmap] at hparse
    unfold serialize_additional
    rw [hmap]
    dsimp only
    rw [hparse]
    rfl

end

/-! ## What is nested -/

/-- The entry is as the sanitizer leaves it. -/
def Settled (e : Text × Json) : Prop := sanitize_nested [e] = [e]

theorem sanitize_nested_cons (e : Text × Json) (map : List (Text × Json)) :
    sanitize_nested (e :: map) = sanitize_nested [e] ++ sanitize_nested map := by
  obtain ⟨name, value⟩ := e
  cases value <;> rfl

theorem sanitize_nested_one (e : Text × Json) : ∃ value, sanitize_nested [e] = [(e.1, value)] := by
  obtain ⟨name, value⟩ := e
  cases value with
  | object properties =>
    unfold sanitize_nested
    split_ifs <;> exact ⟨_, rfl⟩
  | _ =>
    unfold sanitize_nested
    split_ifs <;> exact ⟨_, rfl⟩

theorem sanitize_nested_iff (map : List (Text × Json)) :
    sanitize_nested map = map ↔ ∀ e ∈ map, Settled e := by
  induction map with
  | nil => simp [sanitize_nested]
  | cons e map ih =>
    obtain ⟨value, hone⟩ := sanitize_nested_one e
    rw [List.forall_mem_cons, ← ih, sanitize_nested_cons, hone, Settled, hone]
    simp

/-- A key that does not hold schemas. -/
theorem settled_other {name : Text} (hname : name ≠ "properties".toList)
    (hholder : name ∉ nested_holders) (value : Json) : Settled (name, value) := by
  unfold Settled
  cases value with
  | object properties =>
    unfold sanitize_nested
    rw [if_neg hname, if_neg hholder]
    rfl
  | _ =>
    unfold sanitize_nested
    rw [if_neg hholder]
    rfl

theorem sanitize_nested_holder {name : Text} (hname : name ≠ "properties".toList)
    (hholder : name ∈ nested_holders) (value : Json) :
    sanitize_nested [(name, value)] = [(name, sanitize_json_schema value)] := by
  cases value with
  | object properties =>
    unfold sanitize_nested
    rw [if_neg hname, if_pos hholder]
    rfl
  | _ =>
    unfold sanitize_nested
    rw [if_pos hholder]
    rfl

theorem lookup_sanitize_nested {name : Text} (hname : name ≠ "properties".toList)
    (hholder : name ∉ nested_holders) (map : List (Text × Json)) :
    (sanitize_nested map).lookup name = map.lookup name := by
  induction map with
  | nil => rfl
  | cons e map ih =>
    obtain ⟨value, hone⟩ := sanitize_nested_one e
    obtain ⟨n, v⟩ := e
    rw [sanitize_nested_cons, hone]
    by_cases heq : name = n
    · subst heq
      have hsettled : sanitize_nested [(name, v)] = [(name, v)] := settled_other hname hholder v
      obtain ⟨-, rfl⟩ := Prod.mk.inj (List.cons.inj (hone.symm.trans hsettled)).1
      simp
    · simpa [List.lookup_cons, beq_eq_false_iff_ne.mpr heq] using ih

/-! ## Additional properties -/

/-- What becomes of the schema of additional properties. -/
def sanitize_extra : Json → Json
  | .bool b => .bool b
  | value => sanitize_json_schema value

theorem sanitize_extra_of_twice {value : Json}
    (h : sanitize_json_schema (sanitize_json_schema value) = sanitize_json_schema value) :
    sanitize_extra (sanitize_json_schema value) = sanitize_json_schema value := by
  unfold sanitize_extra
  split
  · next b hb => exact hb.symm
  · exact h

theorem sanitize_additional_eq (map : List (Text × Json)) :
    sanitize_additional map = (map.lookup "additionalProperties".toList).map sanitize_extra := by
  induction map with
  | nil => rfl
  | cons e map ih =>
    obtain ⟨name, value⟩ := e
    unfold sanitize_additional
    split_ifs with hname
    · subst hname
      cases value <;> simp [sanitize_extra]
    · rw [List.lookup_cons, beq_eq_false_iff_ne.mpr (Ne.symm hname)]
      exact ih

/-! ## The type -/

/-- The schema says its type, and has what the type asks for. -/
structure Typed (map : List (Text × Json)) (ty : Text) : Prop where
  type : map.lookup "type".toList = some (.string ty)
  properties : ty = "object".toList → has map "properties".toList = true
  additional : ty = "object".toList → ∀ v, map.lookup "additionalProperties".toList = some v →
    sanitize_extra v = v
  items : ty = "array".toList → has map "items".toList = true

theorem Typed.ensure_type {map : List (Text × Json)} {ty : Text} (h : Typed map ty) :
    ensure_type (sanitize_additional map) map = map := by
  have hdeclared : declared_type map = some ty := by
    unfold declared_type
    rw [h.type]
  have hproperties : ty = "object".toList →
      ensure_properties (sanitize_additional map) map = map := by
    intro hobject
    unfold ensure_properties
    rw [h.properties hobject, if_pos rfl, sanitize_additional_eq]
    rcases hextra : map.lookup "additionalProperties".toList with _ | v
    · rfl
    · dsimp only [Option.map_some]
      rw [h.additional hobject v hextra]
      exact put_of_lookup hextra
  have hitems : ty = "array".toList → ensure_items map = map := by
    intro harray
    unfold ensure_items
    rw [h.items harray, if_pos rfl]
  unfold openai_tools.ensure_type
  dsimp only
  rw [hdeclared]
  simp only [Option.isNone_some, Bool.false_and, Bool.false_eq_true, if_false]
  have hty : ((some ty <|> inferred_type map).getD "string".toList) = ty := rfl
  rw [hty, put_of_lookup h.type]
  split_ifs with harray hobject hobject
  · rw [hproperties hobject, hitems harray]
  · exact hitems harray
  · exact hproperties hobject
  · rfl

theorem ensure_properties_spec (additional : Option Json) {map : List (Text × Json)}
    (hsettled : ∀ e ∈ map, Settled e) :
    (∀ e ∈ ensure_properties additional map, Settled e) ∧
      has (ensure_properties additional map) "properties".toList = true ∧
      (ensure_properties additional map).lookup "type".toList = map.lookup "type".toList ∧
      (ensure_properties additional map).lookup "additionalProperties".toList =
        (additional <|> map.lookup "additionalProperties".toList) := by
  have hprops : ∀ m, m = (if has map "properties".toList then map
      else put "properties".toList (.object []) map) →
      (∀ e ∈ m, Settled e) ∧ has m "properties".toList = true ∧
        m.lookup "type".toList = map.lookup "type".toList ∧
        m.lookup "additionalProperties".toList =
          map.lookup "additionalProperties".toList := by
    rintro m rfl
    split_ifs with hhas
    · exact ⟨hsettled, hhas, rfl, rfl⟩
    · refine ⟨fun e he => ?_, has_put (.inr rfl), lookup_put_ne (by decide),
        lookup_put_ne (by decide)⟩
      rcases mem_put he with rfl | he
      · rfl
      · exact hsettled e he
  obtain ⟨hall, hhas, htype, hextra⟩ := hprops _ rfl
  unfold ensure_properties
  dsimp only
  rcases additional with _ | schema
  · exact ⟨hall, hhas, htype, hextra⟩
  · refine ⟨fun e he => ?_, has_put (.inl hhas), ?_, ?_⟩
    · rcases mem_put he with rfl | he
      · exact settled_other (by decide) (by decide) schema
      · exact hall e he
    · rw [lookup_put_ne (by decide)]
      exact htype
    · exact lookup_put_self

/-- What `ensure_type` makes of a map whose holders are settled is settled, and says its type unless
it only combines other schemas. -/
theorem ensure_type_spec {additional : Option Json} {map : List (Text × Json)}
    (hsettled : ∀ e ∈ map, Settled e)
    (hadditional : ∀ v, additional = some v → sanitize_extra v = v)
    (hnone : additional = none → map.lookup "additionalProperties".toList = none) :
    (∀ e ∈ ensure_type additional map, Settled e) ∧
      ((declared_type map = none ∧ is_combined map = true ∧ ensure_type additional map = map) ∨
        ∃ ty, Typed (ensure_type additional map) ty) := by
  unfold ensure_type
  dsimp only
  by_cases hcombined : (declared_type map).isNone && is_combined map
  · rw [if_pos hcombined]
    obtain ⟨hdeclared, hcombined⟩ := Bool.and_eq_true_iff.mp hcombined
    exact ⟨hsettled, .inl ⟨Option.isNone_iff_eq_none.mp hdeclared, hcombined, rfl⟩⟩
  · rw [if_neg hcombined]
    generalize (declared_type map <|> inferred_type map).getD "string".toList = ty
    have hset : ∀ e ∈ put "type".toList (.string ty) map, Settled e := by
      intro e he
      rcases mem_put he with rfl | he
      · exact settled_other (by decide) (by decide) _
      · exact hsettled e he
    have htype : (put "type".toList (.string ty) map).lookup "type".toList =
        some (.string ty) := lookup_put_self
    by_cases hobject : ty = "object".toList
    · obtain ⟨hall, hhas, hsame, hextra⟩ := ensure_properties_spec additional hset
      have harray : ty ≠ "array".toList := by
        rw [hobject]
        decide
      rw [if_pos hobject, if_neg harray]
      refine ⟨hall, .inr ⟨ty, hsame.trans htype, fun _ => hhas, fun _ v hv => ?_,
        fun h => absurd h harray⟩⟩
      rw [hextra, lookup_put_ne (by decide)] at hv
      rcases additional with _ | schema
      · rw [hnone rfl] at hv
        exact nomatch hv
      · exact hadditional v hv
    · rw [if_neg hobject]
      by_cases harray : ty = "array".toList
      · rw [if_pos harray]
        unfold ensure_items
        split_ifs with hhas
        · exact ⟨hset, .inr ⟨ty, htype, fun h => absurd h hobject, fun h => absurd h hobject,
            fun _ => hhas⟩⟩
        · refine ⟨fun e he => ?_, .inr ⟨ty, ?_, fun h => absurd h hobject,
            fun h => absurd h hobject, fun _ => has_put (.inr rfl)⟩⟩
          · rcases mem_put he with rfl | he
            · rfl
            · exact hset e he
          · rw [lookup_put_ne (by decide)]
            exact htype
      · rw [if_neg harray]
        exact ⟨hset, .inr ⟨ty, htype, fun h => absurd h hobject, fun h => absurd h hobject,
          fun h => absurd h harray⟩⟩

/-! ## Sanitizing twice -/

mutual

theorem sanitize_twice : ∀ value,
    sanitize_json_schema (sanitize_json_schema value) = sanitize_json_schema value
  | .null | .number _ | .string _ | .bool _ => rfl
  | .array schemas => by
    rw [sanitize_json_schema, sanitize_json_schema, sanitize_all_twice]
  | .object map => by
    have hnested := (sanitize_nested_iff _).mp (sanitize_nested_twice map)
    have hextra := sanitize_extra_twice map
    have hnone : sanitize_additional map = none →
        (sanitize_nested map).lookup "additionalProperties".toList = none := by
      intro hnone
      rw [lookup_sanitize_nested (by decide) (by decide)]
      rw [sanitize_additional_eq] at hnone
      exact Option.map_eq_none_iff.mp hnone
    obtain ⟨hsettled, ⟨hdeclared, hcombined, hsame⟩ | ⟨ty, htyped⟩⟩ :=
      ensure_type_spec hnested hextra hnone
    · rw [sanitize_json_schema, hsame, sanitize_json_schema, sanitize_nested_twice]
      unfold ensure_type
      rw [hdeclared, hcombined]
      rfl
    · rw [sanitize_json_schema, sanitize_json_schema, (sanitize_nested_iff _).mpr hsettled,
        htyped.ensure_type]

theorem sanitize_all_twice : ∀ schemas, sanitize_all (sanitize_all schemas) = sanitize_all schemas
  | [] => rfl
  | schema :: schemas => by
    rw [sanitize_all, sanitize_all, sanitize_twice schema, sanitize_all_twice schemas]

theorem sanitize_values_twice : ∀ map,
    sanitize_values (sanitize_values map) = sanitize_values map
  | [] => rfl
  | (name, schema) :: map => by
    rw [sanitize_values, sanitize_values, sanitize_twice schema, sanitize_values_twice map]

theorem sanitize_nested_twice : ∀ map,
    sanitize_nested (sanitize_nested map) = sanitize_nested map
  | [] => rfl
  | (name, value) :: map => by
    have hlater := (sanitize_nested_iff _).mp (sanitize_nested_twice map)
    have hvalue := sanitize_twice value
    have hfirst : ∀ e ∈ sanitize_nested [(name, value)], Settled e := by
      by_cases hname : name = "properties".toList
      · subst hname
        cases value with
        | object properties =>
          have hvalues := sanitize_values_twice properties
          intro e he
          obtain rfl := List.mem_singleton.mp he
          exact congrArg (fun map => [("properties".toList, Json.object map)]) hvalues
        | _ =>
          intro e he
          obtain rfl := List.mem_singleton.mp he
          rfl
      · by_cases hholder : name ∈ nested_holders
        · rw [sanitize_nested_holder hname hholder]
          intro e he
          obtain rfl := List.mem_singleton.mp he
          rw [Settled, sanitize_nested_holder hname hholder, hvalue]
        · have hsettled : sanitize_nested [(name, value)] = [(name, value)] :=
            settled_other hname hholder value
          rw [hsettled]
          intro e he
          rw [List.mem_singleton.mp he]
          exact hsettled
    rw [sanitize_nested_cons, sanitize_nested_iff]
    exact List.forall_mem_append.mpr ⟨hfirst, hlater⟩

/-- The schema of additional properties is not changed again. -/
theorem sanitize_extra_twice : ∀ map v, sanitize_additional map = some v → sanitize_extra v = v
  | [], _, h => nomatch h
  | (name, value) :: map, v, h => by
    have hvalue := sanitize_twice value
    unfold sanitize_additional at h
    split_ifs at h
    · cases value with
      | bool b =>
        obtain rfl := Option.some.inj h
        rfl
      | _ =>
        obtain rfl := Option.some.inj h
        exact sanitize_extra_of_twice hvalue
    · exact sanitize_extra_twice map v h

end

/-! ## What is written -/

theorem settled_holder {name : Text} (hname : name ≠ "properties".toList)
    (hholder : name ∈ nested_holders) {value : Json} (h : sanitize_json_schema value = value) :
    Settled (name, value) := by
  rw [Settled, sanitize_nested_holder hname hholder, h]

theorem sanitize_extra_fixed {value : Json} (h : sanitize_json_schema value = value) :
    sanitize_extra value = value := by
  unfold sanitize_extra
  split
  · rfl
  · exact h

theorem sanitize_typed {map : List (Text × Json)} (ty : Text) (hsettled : ∀ e ∈ map, Settled e)
    (htyped : Typed map ty) : sanitize_json_schema (.object map) = .object map := by
  rw [sanitize_json_schema, (sanitize_nested_iff map).mpr hsettled, htyped.ensure_type]

theorem settled_description (description : Option Text) :
    ∀ e ∈ (description.map fun d => ("description".toList, Json.string d)).toList, Settled e := by
  intro e he
  obtain ⟨d, -, rfl⟩ := Option.map_eq_some_iff.mp (Option.mem_toList.mp he)
  exact settled_other (by decide) (by decide) _

mutual

theorem sanitize_serialize : ∀ schema, sanitize_json_schema (serialize schema) = serialize schema
  | .Boolean description => by cases description <;> rfl
  | .String description allowed_values => by
    cases description <;> cases allowed_values <;> rfl
  | .Number description => by cases description <;> rfl
  | .Array items description => by
    have hitems := sanitize_serialize items
    have hmap : serialize (.Array items description) =
        .object (("type".toList, .string "array".toList) :: ("items".toList, serialize items) ::
          (description.map fun d => ("description".toList, Json.string d)).toList) := by
      cases description <;> rfl
    rw [hmap]
    refine sanitize_typed "array".toList ?_ ⟨rfl, ?_, ?_, fun _ => rfl⟩
    · refine List.forall_mem_cons.mpr ⟨settled_other (by decide) (by decide) _, ?_⟩
      exact List.forall_mem_cons.mpr ⟨settled_holder (by decide) (by decide) hitems,
        settled_description description⟩
    · exact fun h => absurd h (by decide)
    · exact fun h => absurd h (by decide)
  | .Object properties required additional_properties => by
    have hproperties := sanitize_serialize_properties properties
    have hadditional := sanitize_serialize_additional additional_properties
    have hmap : serialize (.Object properties required additional_properties) =
        .object (("type".toList, .string "object".toList) ::
          ("properties".toList, .object (serialize_properties properties)) ::
          ("required".toList, .of_strings (required.getD (properties.map Prod.fst))) ::
          ((serialize_additional additional_properties).map fun v =>
            ("additionalProperties".toList, v)).toList) := by
      rcases additional_properties with _ | _ | _ <;> rfl
    rw [hmap]
    refine sanitize_typed "object".toList ?_ ⟨rfl, fun _ => rfl, fun _ v hv => ?_, ?_⟩
    · refine List.forall_mem_cons.mpr ⟨settled_other (by decide) (by decide) _, ?_⟩
      refine List.forall_mem_cons.mpr ⟨?_, ?_⟩
      · exact congrArg (fun map => [("properties".toList, Json.object map)]) hproperties
      · refine List.forall_mem_cons.mpr ⟨settled_other (by decide) (by decide) _, ?_⟩
        intro e he
        obtain ⟨v, -, rfl⟩ := Option.map_eq_some_iff.mp (Option.mem_toList.mp he)
        exact settled_other (by decide) (by decide) _
    · apply hadditional
      rcases additional_properties with _ | _ | _ <;> exact hv
    · exact fun h => absurd h (by decide)
  | .Combined combiner variants description => by
    have hvariants := sanitize_serialize_all variants
    have hmap : serialize (.Combined combiner variants description) =
        .object ((combiner.key, .array (serialize_all variants)) ::
          (description.map fun d => ("description".toList, Json.string d)).toList) := by
      cases description <;> rfl
    have hsettled : ∀ e ∈ (combiner.key, Json.array (serialize_all variants)) ::
        (description.map fun d => ("description".toList, Json.string d)).toList, Settled e := by
      refine List.forall_mem_cons.mpr ⟨?_, settled_description description⟩
      refine settled_holder ?_ ?_ ?_
      · cases combiner <;> decide
      · cases combiner <;> decide
      · rw [sanitize_json_schema, hvariants]
    rw [hmap, sanitize_json_schema, (sanitize_nested_iff _).mpr hsettled]
    cases combiner <;> cases description <;> rfl

theorem sanitize_serialize_additional : ∀ additional_properties v,
    serialize_additional additional_properties = some v → sanitize_extra v = v
  | none, _, h => nomatch h
  | some (.Boolean b), v, h => by
    obtain rfl := Option.some.inj h
    rfl
  | some (.Schema schema), v, h => by
    obtain rfl := Option.some.inj h
    exact sanitize_extra_fixed (sanitize_serialize schema)

theorem sanitize_serialize_all : ∀ schemas,
    sanitize_all (serialize_all schemas) = serialize_all schemas
  | [] => rfl
  | schema :: schemas => by
    rw [serialize_all, sanitize_all, sanitize_serialize schema, sanitize_serialize_all schemas]

theorem sanitize_serialize_properties : ∀ properties,
    sanitize_values (serialize_properties properties) = serialize_properties properties
  | [] => rfl
  | (name, schema) :: properties => by
    rw [serialize_properties, sanitize_values, sanitize_serialize schema,
      sanitize_serialize_properties properties]

end

/-! ## What is accepted -/

theorem mapM_ok {α β ε : Type} {f : α → Except ε β} {l : List α} {r : List β}
    (h : l.mapM f = .ok r) : ∀ b ∈ r, ∃ a ∈ l, f a = .ok b := by
  induction l generalizing r with
  | nil =>
    obtain rfl : [] = r := Except.ok.inj h
    simp
  | cons a l ih =>
    rw [List.mapM_cons] at h
    rcases hfirst : f a with e | b
    · rw [hfirst] at h
      exact nomatch h
    · rcases hrest : l.mapM f with e | bs
      · rw [hfirst, hrest] at h
        exact nomatch h
      · rw [hfirst, hrest] at h
        obtain rfl : b :: bs = r := Except.ok.inj h
        refine List.forall_mem_cons.mpr ⟨⟨a, List.mem_cons_self, hfirst⟩, fun c hc => ?_⟩
        obtain ⟨a', ha', hc'⟩ := ih hrest c hc
        exact ⟨a', List.mem_cons_of_mem a ha', hc'⟩

theorem orderedAll_iff (schemas : List JsonSchema) :
    OrderedAll schemas ↔ ∀ schema ∈ schemas, Ordered schema := by
  induction schemas with
  | nil => simp [OrderedAll]
  | cons schema schemas ih => rw [OrderedAll, ih, List.forall_mem_cons]

theorem orderedProperties_iff (properties : List (Text × JsonSchema)) :
    OrderedProperties properties ↔ ∀ e ∈ properties, Ordered e.2 := by
  induction properties with
  | nil => simp [OrderedProperties]
  | cons e properties ih => rw [OrderedProperties, ih, List.forall_mem_cons]

theorem collect_spec {V : Type} (entries : List (Text × V)) :
    Ascending Prod.fst (collect entries) ∧ ∀ e ∈ collect entries, e ∈ entries := by
  induction entries using List.reverseRecOn with
  | nil => exact ⟨List.Pairwise.nil, by simp [collect]⟩
  | append_singleton entries e ih =>
    unfold collect at ih ⊢
    rw [List.foldl_append]
    refine ⟨ih.1.upsert rfl fun _ => rfl, fun e' he' => ?_⟩
    rcases mem_upsert he' with he' | rfl | ⟨old, -, hkey, rfl⟩
    · exact List.mem_append_left _ (ih.2 e' he')
    · exact List.mem_append_right _ List.mem_cons_self
    · rw [hkey]
      exact List.mem_append_right _ List.mem_cons_self

theorem map_ok {α β ε : Type} {f : α → β} {x : Except ε α} {b : β} (h : x.map f = .ok b) :
    ∃ a, x = .ok a ∧ f a = b := by
  cases x with
  | error e => exact nomatch h
  | ok a => exact ⟨a, rfl, Except.ok.inj h⟩

theorem bind_ok {α β ε : Type} {f : α → Except ε β} {x : Except ε α} {b : β}
    (h : (x >>= f) = .ok b) : ∃ a, x = .ok a ∧ f a = .ok b := by
  cases x with
  | error e => exact nomatch h
  | ok a => exact ⟨a, rfl, h⟩

/-- The objects of a schema that was read have ordered maps of properties. -/
theorem parse_ordered {value : Json} {schema : JsonSchema}
    (h : parse_json_schema_value value = .ok schema) : Ordered schema := by
  induction hsize : sizeOf value using Nat.strong_induction_on generalizing value schema with
  | _ n ih =>
    subst hsize
    have hnested : ∀ v s, sizeOf v < sizeOf value → parse_json_schema_value v = .ok s → Ordered s :=
      fun v s hlt hs => ih _ hlt hs rfl
    rw [parse_json_schema_value] at h
    split at h
    · cases h
    · dsimp only at h
      split at h
      · next combiner values hcombined =>
        obtain ⟨variants, hvariants, rfl⟩ := map_ok h
        refine (orderedAll_iff variants).mpr fun s hs => ?_
        obtain ⟨v, -, hv⟩ := mapM_ok hvariants s hs
        refine hnested v.1 s ?_ hv
        have hmem := List.sizeOf_lt_of_mem v.2
        have hlist := sizeOf_combined hcombined
        simp only [Json.array.sizeOf_spec] at hlist
        omega
      · cases h
      · split at h
        · cases h
        · split_ifs at h
          · obtain rfl := Except.ok.inj h
            trivial
          · obtain ⟨allowed_values, -, rfl⟩ := map_ok h
            trivial
          · obtain rfl := Except.ok.inj h
            trivial
          · split at h
            · cases h
            · next items hitems =>
              obtain ⟨s, hs, rfl⟩ := map_ok h
              exact hnested items s (sizeOf_get hitems) hs
          · obtain ⟨properties, hproperties, h⟩ := bind_ok h
            obtain ⟨required, -, h⟩ := bind_ok h
            obtain ⟨additional_properties, hadditional, h⟩ := bind_ok h
            obtain rfl := Except.ok.inj h
            obtain ⟨hascending, hmem⟩ := collect_spec properties
            refine ⟨hascending, (orderedProperties_iff _).mpr fun e he => ?_, ?_⟩
            · have he' := hmem e he
              split at hproperties
              · next map hmap =>
                obtain ⟨a, -, ha⟩ := mapM_ok hproperties e he'
                obtain ⟨s, hs, rfl⟩ := map_ok ha
                refine hnested a.1.2 s ?_ hs
                have hin := List.sizeOf_lt_of_mem a.2
                have hlist := sizeOf_get hmap
                have hentry : sizeOf a.1.2 < sizeOf a.1 := by
                  obtain ⟨⟨name, v⟩, hv⟩ := a
                  simp only [Prod.mk.sizeOf_spec]
                  omega
                simp only [Json.object.sizeOf_spec] at hlist
                omega
              · cases hproperties
              · obtain rfl := Except.ok.inj hproperties
                exact absurd he' List.not_mem_nil
            · split at hadditional
              · obtain rfl := Except.ok.inj hadditional
                trivial
              · obtain rfl := Except.ok.inj hadditional
                trivial
              · next v _ hv =>
                split at hadditional
                · next s hs =>
                  obtain rfl := Except.ok.inj hadditional
                  exact hnested v s (sizeOf_get hv) hs
                · cases hadditional

mutual

/-- What is written out explicitly is sent as before. -/
theorem serialize_explicit : ∀ schema, serialize (explicit schema) = serialize schema
  | .Boolean _ | .String _ _ | .Number _ => rfl
  | .Array items description => by
    rw [explicit, serialize, serialize, serialize_explicit items]
  | .Object properties required additional_properties => by
    rw [explicit, serialize, serialize, serialize_explicit_properties properties,
      serialize_explicit_additional additional_properties, Option.getD_some]
  | .Combined combiner variants description => by
    rw [explicit, serialize, serialize, serialize_explicit_all variants]

theorem serialize_explicit_properties : ∀ properties,
    serialize_properties (explicit_properties properties) = serialize_properties properties
  | [] => rfl
  | (name, schema) :: properties => by
    rw [explicit_properties, serialize_properties, serialize_properties, serialize_explicit schema,
      serialize_explicit_properties properties]

theorem serialize_explicit_all : ∀ schemas,
    serialize_all (explicit_all schemas) = serialize_all schemas
  | [] => rfl
  | schema :: schemas => by
    rw [explicit_all, serialize_all, serialize_all, serialize_explicit schema,
      serialize_explicit_all schemas]

theorem serialize_explicit_additional : ∀ additional_properties,
    serialize_additional (explicit_additional additional_properties) =
      serialize_additional additional_properties
  | none | some (.Boolean _) => rfl
  | some (.Schema schema) => by
    rw [explicit_additional, serialize_additional, serialize_additional, serialize_explicit schema]

end

/-- A foreign schema may be sanitized any number of times, and one that is accepted comes back from
what is sent of it: its maps are in order, and what is sent is read as the same schema with the
required properties written out, which is sent as before. -/
theorem accepted_schema_comes_back (input_schema : Json) :
    sanitize_json_schema (sanitize_json_schema input_schema) = sanitize_json_schema input_schema ∧
      ∀ schema, parse_tool_input_schema input_schema = .ok schema →
        Ordered schema ∧ parse_tool_input_schema (serialize schema) = .ok (explicit schema) ∧
          serialize (explicit schema) = serialize schema := by
  refine ⟨sanitize_twice input_schema, fun schema h => ?_⟩
  have hordered := parse_ordered h
  refine ⟨hordered, ?_, serialize_explicit schema⟩
  unfold parse_tool_input_schema
  rw [sanitize_serialize, parse_serialize schema hordered]

end Ecode.openai_tools
