-- A TOML document as `toml_edit` keeps it, with both spellings of a table and of a list of
-- tables, and what is found under a path of keys after an entry of a table is set.
import Ecode.Text

namespace Ecode.toml_edit

/-- `Item` and `Value` in one; the values of a table keep their order. -/
inductive Item where
  | String (s : Text)
  | Integer (n : Int)
  | Float (written : Text)
  | Boolean (b : Bool)
  | Datetime (written : Text)
  | Array (values : List Item)
  | InlineTable (items : List (Text × Item))
  | Table (items : List (Text × Item))
  | ArrayOfTables (tables : List (List (Text × Item)))

abbrev Items := List (Text × Item)

/-! ## Tables -/

def get (items : Items) (key : Text) : Option Item :=
  (items.find? fun entry => entry.1 = key).map Prod.snd

/-- `table[key] = item`: in the place of the old item or at the end. -/
def set : Items → Text → Item → Items
  | [], key, item => [(key, item)]
  | (k, old) :: items, key, item =>
    if k = key then (key, item) :: items else (k, old) :: set items key item

def remove (items : Items) (key : Text) : Items := items.filter fun entry => entry.1 ≠ key

variable {items : Items} {key k : Text} {item value : Item}

theorem get_set (items : Items) (key : Text) (item : Item) (k : Text) :
    get (set items key item) k = if k = key then some item else get items k := by
  induction items with
  | nil =>
    by_cases h : key = k
    · simp [get, set, h]
    · simp [get, set, h, Ne.symm h]
  | cons entry items ih =>
    obtain ⟨l, old⟩ := entry
    unfold set
    split_ifs with hl hk hk
    · simp [get, hk]
    · simp [get, hl, Ne.symm hk]
    · simp only [get, List.find?_cons] at ih ⊢
      rw [hk] at ih ⊢
      simpa [hl] using ih
    · simp only [get, List.find?_cons] at ih ⊢
      by_cases hlk : l = k
      · simp [hlk]
      · simpa [hlk, hk] using ih

@[simp] theorem get_set_self : get (set items key item) key = some item := by
  simp [get_set]

@[simp] theorem get_set_of_ne (h : k ≠ key) : get (set items key item) k = get items k := by
  simp [get_set, h]

@[simp] theorem get_remove_of_ne (h : k ≠ key) : get (remove items key) k = get items k := by
  unfold get remove
  rw [List.find?_filter]
  congr 2
  funext entry
  by_cases hk : entry.1 = k
  · simp [hk, h]
  · simp [hk]

namespace Item

def is_table : Item → Bool
  | .Table _ => true
  | _ => false

def as_str : Item → Option Text
  | .String s => some s
  | _ => none

def as_array_of_tables : Item → Option (List Items)
  | .ArrayOfTables tables => some tables
  | _ => none

/-- The entries of a table of either spelling. -/
def as_table_like : Item → Option Items
  | .Table items => some items
  | .InlineTable items => some items
  | _ => none

/-- Neither a table nor a list. -/
def is_scalar : Item → Bool
  | .String _ | .Integer _ | .Float _ | .Boolean _ | .Datetime _ => true
  | _ => false

end Item

theorem as_array_of_tables_eq_some {tables : List Items} :
    item.as_array_of_tables = some tables ↔ item = .ArrayOfTables tables := by
  cases item <;> simp [Item.as_array_of_tables]

/-! ## Paths -/

def item_at : Item → List Text → Option Item
  | item, [] => some item
  | item, key :: path =>
    (item.as_table_like.bind fun items => get items key).bind fun next => item_at next path

/-- What a key path reads as; the tables on the way are no settings of their own. -/
def setting_at (item : Item) (path : List Text) : Option Item :=
  (item_at item path).filter fun found => found.as_table_like.isNone

variable {path q r : List Text}

theorem item_at_table_cons (items : Items) (key : Text) (path : List Text) :
    item_at (.Table items) (key :: path) = (get items key).bind fun next => item_at next path :=
  rfl

theorem item_at_append (item : Item) (path rest : List Text) :
    item_at item (path ++ rest) = (item_at item path).bind fun next => item_at next rest := by
  induction path generalizing item with
  | nil => rfl
  | cons key path ih =>
    rw [List.cons_append, item_at, item_at]
    cases item.as_table_like.bind fun items => get items key with
    | none => rfl
    | some next => exact ih next

theorem item_at_leaf_cons (h : item.as_table_like = none) (key : Text) (path : List Text) :
    item_at item (key :: path) = none := by
  simp [item_at, h]

theorem setting_at_eq_some : setting_at item path = some value ↔
    item_at item path = some value ∧ value.as_table_like = none := by
  unfold setting_at
  rw [Option.filter_eq_some_iff, Option.isNone_iff_eq_none]

end Ecode.toml_edit
