-- Edits of `config.toml` (core/src/config_edit.rs): the overrides of a profile, the entries of
-- `[[agents]]` and the entries of `[[subagents.commands]]`.
import Ecode.TomlEdit

namespace Ecode.config_edit

open toml_edit

inductive NoneBehavior where
  | Skip
  | Remove
  deriving DecidableEq, Repr

/-! ## Overrides -/

/-- The table that the way goes on in: what is no standard table, or not there, becomes an empty
one. -/
def next_table (current : Items) (seg : Text) : Items :=
  match get current seg with
  | some (.Table items) => items
  | _ => []

/-- Goes down the segments and sets the last one. -/
def apply_toml_edit_override_segments : Items → List Text → Item → Items
  | doc, [], _ => doc
  | current, [last], value => set current last value
  | current, seg :: segments, value =>
    let tbl := next_table current seg
    set current seg (.Table (apply_toml_edit_override_segments tbl segments value))

def remove_toml_edit_segments : Items → List Text → Option Items
  | _, [] => none
  | current, [last] => if (get current last).isSome then some (remove current last) else none
  | current, seg :: segments =>
    match get current seg with
    | some (.Table items) =>
      (remove_toml_edit_segments items segments).map fun items => set current seg (.Table items)
    | _ => none

def effective_profile (doc : Items) : Option Text → Option Text
  | some p => some p
  | none => (get doc "profile".toList).bind Item.as_str

def segments_to_apply (profile : Option Text) (segments : List Text) : List Text :=
  match profile with
  | some name =>
    if segments.head? = some "profiles".toList then segments
    else "profiles".toList :: name :: segments
  | none => segments

/-- `v.trim().parse::<bool>()`, else the text as it is. -/
def item_value (v : Text) : Item :=
  if Text.trim v = "true".toList then .Boolean true
  else if Text.trim v = "false".toList then .Boolean false
  else .String v

/-- One turn of the loop over the overrides: the document and whether it was mutated. -/
def apply_override (none_behavior : NoneBehavior) (profile : Option Text) (state : Items × Bool)
    (override : List Text × Option Text) : Items × Bool :=
  let segments := segments_to_apply profile override.1
  match override.2 with
  | some v => (apply_toml_edit_override_segments state.1 segments (item_value v), true)
  | none =>
    if none_behavior = .Remove then
      match remove_toml_edit_segments state.1 segments with
      | some doc => (doc, true)
      | none => state
    else state

/-- The settings file after the call; there may be none before it. -/
def persist_overrides_with_behavior (file : Option Items) (profile : Option Text)
    (overrides : List (List Text × Option Text)) (none_behavior : NoneBehavior) : Option Items :=
  if overrides.isEmpty then file
  else if none_behavior = .Skip ∧ overrides.all fun o => o.2.isNone then file
  else if file.isNone ∧ none_behavior = .Remove ∧ overrides.all fun o => o.2.isNone then file
  else
    let doc := file.getD []
    let edited :=
      overrides.foldl (apply_override none_behavior (effective_profile doc profile)) (doc, false)
    if edited.2 then some edited.1 else file

def persist_overrides (file : Option Items) (profile : Option Text)
    (overrides : List (List Text × Text)) : Option Items :=
  persist_overrides_with_behavior file profile (overrides.map fun o => (o.1, some o.2)) .Skip

def persist_non_null_overrides (file : Option Items) (profile : Option Text)
    (overrides : List (List Text × Option Text)) : Option Items :=
  persist_overrides_with_behavior file profile overrides .Skip

def persist_overrides_and_clear_if_none (file : Option Items) (profile : Option Text)
    (overrides : List (List Text × Option Text)) : Option Items :=
  persist_overrides_with_behavior file profile overrides .Remove

/-! ## Lists of entries -/

/-- The entry has this name, whatever the case of its letters. -/
def same (name : Text) (tbl : Items) : Bool :=
  match (get tbl "name".toList).bind Item.as_str with
  | some s => Text.eq_ignore_ascii_case s name
  | none => false

def strings (texts : List Text) : Item := .Array (texts.map .String)

/-- `if let Some(v) = field { tbl[key] = v }`. -/
def set_some (tbl : Items) (key : Text) : Option Item → Items
  | some v => set tbl key v
  | none => tbl

/-- A text that is given replaces the old one, and a blank one removes it. -/
def set_text (tbl : Items) (key : Text) : Option Text → Items
  | some text =>
    if (Text.trim text).isEmpty then remove tbl key else set tbl key (.String text)
  | none => tbl

/-- The arguments of `upsert_agent_config`. -/
structure AgentEdit where
  name : Text
  enabled : Option Bool
  args : Option (List Text)
  args_read_only : Option (List Text)
  args_write : Option (List Text)
  instructions : Option Text
  description : Option Text
  command : Option Text

def set_agent_fields (tbl : Items) (edit : AgentEdit) : Items :=
  let tbl := set_some tbl "enabled".toList (edit.enabled.map .Boolean)
  let tbl := set_some tbl "args".toList (edit.args.map strings)
  let tbl := set_some tbl "args-read-only".toList (edit.args_read_only.map strings)
  let tbl := set_some tbl "args-write".toList (edit.args_write.map strings)
  let tbl := set_text tbl "instructions".toList edit.instructions
  let tbl := set_text tbl "description".toList edit.description
  set_text tbl "command".toList edit.command

def append_agent_entry (doc : Items) (edit : AgentEdit) : Items :=
  let t := set_agent_fields [("name".toList, .String edit.name)] edit
  let arr := ((get doc "agents".toList).bind Item.as_array_of_tables).getD []
  set doc "agents".toList (.ArrayOfTables (arr ++ [t]))

def upsert_agent_config (doc : Items) (edit : AgentEdit) : Items :=
  match get doc "agents".toList with
  | some item =>
    match item.as_array_of_tables with
    | some arr =>
      let new_arr := arr.map fun tbl =>
        if same edit.name tbl then set_agent_fields tbl edit else tbl
      let doc := set doc "agents".toList (.ArrayOfTables new_arr)
      if arr.any (same edit.name) then doc else append_agent_entry doc edit
    | none => append_agent_entry doc edit
  | none => append_agent_entry doc edit

structure SubagentCommandConfig where
  name : Text
  read_only : Bool
  agents : List Text
  orchestrator_instructions : Option Text
  agent_instructions : Option Text

/-- A text that is not given is removed. -/
def set_or_remove (tbl : Items) (key : Text) : Option Text → Items
  | some text => set tbl key (.String text)
  | none => remove tbl key

def set_command_fields (tbl : Items) (cmd : SubagentCommandConfig) : Items :=
  let tbl := set tbl "name".toList (.String cmd.name)
  let tbl := set tbl "read-only".toList (.Boolean cmd.read_only)
  let tbl := set tbl "agents".toList (strings cmd.agents)
  let tbl := set_or_remove tbl "orchestrator-instructions".toList cmd.orchestrator_instructions
  set_or_remove tbl "agent-instructions".toList cmd.agent_instructions

/-- `item["commands"] = value`; there is no such entry where the item is no table. -/
def set_commands (subagents value : Item) : Option Item :=
  match subagents with
  | .Table items => some (.Table (set items "commands".toList value))
  | .InlineTable items => some (.InlineTable (set items "commands".toList value))
  | _ => none

/-- None where `doc["subagents"]["commands"]` panics. -/
def upsert_subagent_command (doc : Items) (cmd : SubagentCommandConfig) : Option Items :=
  let subagents := (get doc "subagents".toList).getD (.Table [])
  let commands :=
    ((subagents.as_table_like.bind fun items => get items "commands".toList).bind
      Item.as_array_of_tables).getD []
  let updated := commands.map fun tbl =>
    if same cmd.name tbl then set_command_fields tbl cmd else tbl
  let new_commands :=
    if commands.any (same cmd.name) then updated else updated ++ [set_command_fields [] cmd]
  (set_commands subagents (.ArrayOfTables new_commands)).map (set doc "subagents".toList)

end Ecode.config_edit
