-- JSON values as `serde` reads and writes them: the parts of derived codecs for
-- options, lists, structs and enums, and the text of a map of strings.
import Ecode.Text

namespace Ecode.json

inductive Json where
  | null
  | bool (b : Bool)
  | number (n : Int)
  | string (t : Text)
  | array (items : List Json)
  | object (entries : List (Text × Json))

namespace Json

variable {α : Type}

/-! ## Reading -/

def as_string : Json → Option Text
  | string t => some t
  | _ => none

def as_bool : Json → Option Bool
  | bool b => some b
  | _ => none

/-- An `Option`: `null` is none. -/
def as_option (read : Json → Option α) : Json → Option (Option α)
  | null => some none
  | value => (read value).map some

def as_list (read : Json → Option α) : Json → Option (List α)
  | array items => items.mapM read
  | _ => none

/-- The values of the fields of a struct: an object holds them by name, other names are ignored;
an array holds all of them in order. -/
def as_struct (names : List Text) : Json → Option (List (Option Json))
  | object entries => some (names.map fun name => entries.lookup name)
  | array items => if items.length = names.length then some (items.map some) else none
  | _ => none

/-- The variant of an enum and what it holds: a bare name, or an object with one entry. -/
def as_variant : Json → Option (Text × Option Json)
  | string name => some (name, none)
  | object [(name, value)] => some (name, some value)
  | _ => none

/-- What a variant without data may hold. -/
def is_unit : Option Json → Bool
  | none | some null => true
  | _ => false

/-- A field that must be there. -/
def required (read : Json → Option α) (field : Option Json) : Option α := field.bind read

/-- A field that is none when it is not there. -/
def optional (read : Json → Option α) : Option Json → Option (Option α)
  | some value => as_option read value
  | none => some none

/-- A field with a default. -/
def defaulted (default : α) (read : Json → Option α) : Option Json → Option α
  | some value => read value
  | none => some default

/-! ## Values -/

/-- `Value::get` of a key: the entry of an object. -/
def get (key : Text) : Json → Option Json
  | object entries => entries.lookup key
  | _ => none

/-- `Value::get` of an index: the element of an array. -/
def get_index (i : Nat) : Json → Option Json
  | array items => items[i]?
  | _ => none

def is_object : Json → Bool
  | object _ => true
  | _ => false

def as_array : Json → Option (List Json)
  | array items => some items
  | _ => none

/-- An object with those of its fields that are there. -/
def fields (entries : List (Text × Option Json)) : Json :=
  object (entries.filterMap fun e => e.2.map fun value => (e.1, value))

/-- Of distinct fields an object holds just those that are there. -/
theorem get_fields {entries : List (Text × Option Json)} (h : (entries.map Prod.fst).Nodup)
    (key : Text) : (fields entries).get key = (entries.lookup key).join := by
  unfold fields get
  dsimp only
  induction entries with
  | nil => rfl
  | cons e entries ih =>
    obtain ⟨name, value⟩ := e
    rw [List.map_cons, List.nodup_cons] at h
    have hrest := ih h.2
    rcases value with _ | value
    · rw [List.filterMap_cons_none rfl, hrest, List.lookup_cons]
      by_cases hkey : key = name
      · subst hkey
        have hnone : entries.lookup key = none := by
          rw [List.lookup_eq_none_iff]
          intro e he
          rw [bne_iff_ne]
          rintro rfl
          exact h.1 (List.mem_map.mpr ⟨e, he, rfl⟩)
        simp [hnone]
      · rw [beq_eq_false_iff_ne.mpr hkey]
    · simp only [List.filterMap_cons, Option.map_some, List.lookup_cons]
      by_cases hkey : key = name
      · simp [hkey]
      · rw [beq_eq_false_iff_ne.mpr hkey]
        exact hrest

/-! ## Writing -/

def of_option (write : α → Json) : Option α → Json
  | some a => write a
  | none => null

def of_strings (ts : List Text) : Json := array (ts.map string)

end Json

/-! ## The text of a map of strings -/

/-- The escape of a character in a string. -/
def escape (c : Char) : Text :=
  if c = '\x22' then ['\\', '\x22']
  else if c = '\\' then ['\\', '\\']
  else if c.toNat = 8 then ['\\', 'b']
  else if c.toNat = 12 then ['\\', 'f']
  else if c = '\n' then ['\\', 'n']
  else if c = '\r' then ['\\', 'r']
  else if c = '\t' then ['\\', 't']
  else if c.toNat < 32 then
    ['\\', 'u', '0', '0', Nat.digitChar (c.toNat / 16), Nat.digitChar (c.toNat % 16)]
  else [c]

def quote (t : Text) : Text := ['\x22'] ++ t.flatMap escape ++ ['\x22']

/-- `serde_json::to_vec` of a map from strings to strings, as text. -/
def encode_map (entries : List (Text × Text)) : Text :=
  ['\x7b'] ++ Text.join [','] (entries.map fun (k, v) => quote k ++ [':'] ++ quote v) ++
    ['\x7d']

end Ecode.json
