-- How the configuration is loaded (core/src/config_loader, core/src/config): the
-- user's file, the managed layers over it, the overrides of the command line, and
-- the requirements that the approval policy is held to.
import Ecode.Entries
import Ecode.Policies
import Ecode.Text

namespace Ecode.config_loader

open entries

/-! ## Values -/

/-- A TOML value: a table, or any other value. -/
inductive TomlValue (V : Type) where
  | Other (v : V)
  | Table (entries : List (Text × TomlValue V))

variable {V : Type}

namespace TomlValue

def entries : TomlValue V → List (Text × TomlValue V)
  | .Table entries => entries
  | .Other _ => []

def get (key : Text) (value : TomlValue V) : Option (TomlValue V) := value.entries.lookup key

/-- What is under a path of keys. -/
def at_path : List Text → TomlValue V → Option (TomlValue V)
  | [], value => some value
  | key :: path, value => (value.get key).bind (at_path path)

/-- The setting at a path: a value that is no table. -/
def setting (path : List Text) (value : TomlValue V) : Option V :=
  match value.at_path path with
  | some (.Other v) => some v
  | _ => none

mutual

/-- Each table has a key once. -/
def distinct : TomlValue V → Bool
  | .Other _ => true
  | .Table entries => decide (entries.map Prod.fst).Nodup && distinct_all entries

def distinct_all : List (Text × TomlValue V) → Bool
  | [] => true
  | (_, value) :: entries => distinct value && distinct_all entries

end

end TomlValue

mutual

/-- `overlay` into `base`. -/
def merge_toml_values (base : TomlValue V) : TomlValue V → TomlValue V
  | .Table overlay =>
    match base with
    | .Table base => .Table (merge_entries base overlay)
    | .Other _ => .Table overlay
  | .Other v => .Other v

def merge_entries (base : List (Text × TomlValue V)) :
    List (Text × TomlValue V) → List (Text × TomlValue V)
  | [] => base
  | (key, value) :: overlay =>
    match base.lookup key with
    | some existing => merge_entries (put key (merge_toml_values existing value) base) overlay
    | none => merge_entries (put key value base) overlay

end

/-- The loop of `apply_toml_override` from the segments that are left. A value that is no table is
replaced by one. -/
def set_segments (value : TomlValue V) : List Text → TomlValue V → TomlValue V
  | [], current => current
  | [segment], current => .Table (put segment value current.entries)
  | segment :: rest, current =>
    let next := (current.get segment).getD (.Table [])
    .Table (put segment (set_segments value rest next) current.entries)

def apply_toml_override (root : TomlValue V) (path : Text) (value : TomlValue V) : TomlValue V :=
  set_segments value (Text.split '.' path) root

structure LoadedConfigLayers (V : Type) where
  base : TomlValue V
  managed_config : Option (TomlValue V)
  managed_preferences : Option (TomlValue V)

def apply_managed_layers (layers : LoadedConfigLayers V) : TomlValue V :=
  (layers.managed_config.toList ++ layers.managed_preferences.toList).foldl merge_toml_values
    layers.base

/-- The root that a configuration is read from. -/
def load_root (layers : LoadedConfigLayers V) (cli_overrides : List (Text × TomlValue V)) :
    TomlValue V :=
  cli_overrides.foldl (fun root o => apply_toml_override root o.1 o.2) (apply_managed_layers layers)

/-! ## Requirements -/

/-- A candidate that is not the only value allowed or none of those allowed, or a list of allowed
values that is empty. -/
inductive ConstraintError (T : Type) where
  | invalid_value (candidate expected : T)
  | invalid_value_of (candidate : T) (allowed : List T)
  | empty_field (field_name : Text)

/-- The text of an error. `debug` and `debug_list` are `{:?}` of a value and of a list. -/
def ConstraintError.message {T : Type} (debug : T → Text) (debug_list : List T → Text) :
    ConstraintError T → Text
  | .invalid_value candidate expected =>
    "value `".toList ++ debug candidate ++ "` is not in the allowed set ".toList ++ debug expected
  | .invalid_value_of candidate allowed =>
    "value `".toList ++ debug candidate ++ "` is not in the allowed set ".toList ++
      debug_list allowed
  | .empty_field field_name => "field `".toList ++ field_name ++ "` cannot be empty".toList

/-- A value that its validator accepts. -/
structure Constrained (T : Type) where
  value : T
  validator : T → Except (ConstraintError T) Unit
  valid : validator value = .ok ()

namespace Constrained

variable {T : Type}

def new (initial_value : T) (validator : T → Except (ConstraintError T) Unit) :
    Except (ConstraintError T) (Constrained T) :=
  match h : validator initial_value with
  | .ok () => .ok ⟨initial_value, validator, h⟩
  | .error e => .error e

def allow_any (initial_value : T) : Constrained T := ⟨initial_value, fun _ => .ok (), rfl⟩

def allow_only [DecidableEq T] (value : T) : Constrained T where
  value := value
  validator candidate := if candidate = value then .ok () else .error (.invalid_value candidate value)
  valid := if_pos rfl

def allow_values [DecidableEq T] (initial_value : T) (allowed : List T) :
    Except (ConstraintError T) (Constrained T) :=
  new initial_value fun candidate =>
    if candidate ∈ allowed then .ok () else .error (.invalid_value_of candidate allowed)

def can_set (c : Constrained T) (candidate : T) : Except (ConstraintError T) Unit :=
  c.validator candidate

def set (c : Constrained T) (value : T) : Except (ConstraintError T) (Constrained T) :=
  match h : c.validator value with
  | .ok () => .ok { c with value := value, valid := h }
  | .error e => .error e

end Constrained

structure ConfigRequirements where
  approval_policy : Constrained AskForApproval

structure ConfigRequirementsToml where
  allowed_approval_policies : Option (List AskForApproval)

def default_approval : AskForApproval := .OnRequest

def ConfigRequirements.default : ConfigRequirements := ⟨.allow_any default_approval⟩

/-- `TryFrom`: the value to begin with is the default where it is allowed, else the first. -/
def ConfigRequirements.try_from (toml : ConfigRequirementsToml) :
    Except (ConstraintError AskForApproval) ConfigRequirements :=
  match toml.allowed_approval_policies with
  | none => .ok .default
  | some policies =>
    if default_approval ∈ policies then
      (Constrained.allow_values default_approval policies).map .mk
    else
      match policies with
      | first :: _ => (Constrained.allow_values first policies).map .mk
      | [] => .error (.empty_field "allowed_approval_policies".toList)

/-- Why a configuration is not loaded: a constraint, or one of the other errors. -/
inductive LoadError (E : Type) where
  | constraint (e : ConstraintError AskForApproval)
  | other (e : E)

variable {E : Type}

/-- The approval policy of a legacy managed layer: the last that has one. -/
def legacy_approval_policy (read_legacy : TomlValue V → Except E (Option AskForApproval))
    (legacy : List (TomlValue V)) : Except E (Option AskForApproval) :=
  legacy.foldlM (fun policy layer => (read_legacy layer).map fun p => p <|> policy) none

/-- A managed policy has to be allowed, and is then the only one. -/
def apply_legacy (read_legacy : TomlValue V → Except E (Option AskForApproval))
    (legacy : List (TomlValue V)) (requirements : ConfigRequirements) :
    Except (LoadError E) ConfigRequirements :=
  match legacy_approval_policy read_legacy legacy with
  | .error e => .error (.other e)
  | .ok none => .ok requirements
  | .ok (some policy) =>
    match requirements.approval_policy.can_set policy with
    | .error e => .error (.constraint e)
    | .ok () => .ok ⟨.allow_only policy⟩

/-- `load_config_requirements_internal` once the files have been read and parsed. -/
def load_config_requirements (read_legacy : TomlValue V → Except E (Option AskForApproval))
    (requirements_toml : Option ConfigRequirementsToml) (legacy : List (TomlValue V)) :
    Except (LoadError E) ConfigRequirements :=
  match requirements_toml with
  | none => apply_legacy read_legacy legacy .default
  | some toml =>
    match ConfigRequirements.try_from toml with
    | .error e => .error (.constraint e)
    | .ok requirements => apply_legacy read_legacy legacy requirements

def is_ok {α ε : Type} : Except ε α → Bool
  | .ok _ => true
  | .error _ => false

def candidates : List AskForApproval := [.UnlessTrusted, .OnFailure, .OnRequest, .Never]

/-- `load_allowed_approval_policies` of the requirements: none when the four are allowed. -/
def allowed_approval_policies (requirements : ConfigRequirements) : Option (List AskForApproval) :=
  let allowed := candidates.filter fun candidate =>
    is_ok (requirements.approval_policy.can_set candidate)
  if allowed.length = 4 then none else some allowed

/-! ## Loading -/

/-- What is read for a configuration: the layers, the overrides, and the requirements. -/
structure ConfigSources (V : Type) where
  layers : LoadedConfigLayers V
  cli_overrides : List (Text × TomlValue V)
  requirements_toml : Option ConfigRequirementsToml

def ConfigSources.legacy (sources : ConfigSources V) : List (TomlValue V) :=
  sources.layers.managed_config.toList ++ sources.layers.managed_preferences.toList

/-- The approval policy of the configuration that `ConfigBuilder::load` returns. `approval_policy` is
what the root says of it once it was deserialized and the typed overrides were applied. -/
def load (read_legacy : TomlValue V → Except E (Option AskForApproval))
    (approval_policy : TomlValue V → Except E AskForApproval) (sources : ConfigSources V) :
    Except (LoadError E) AskForApproval := do
  let policy ← (approval_policy (load_root sources.layers sources.cli_overrides)).mapError .other
  let requirements ← load_config_requirements read_legacy sources.requirements_toml sources.legacy
  let constrained ← (requirements.approval_policy.set policy).mapError .constraint
  .ok constrained.value

end Ecode.config_loader
