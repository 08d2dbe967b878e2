-- Which settings an edit of `config.toml` keeps: an override loses what is below its own path and
-- what the inline tables and the lists on its way hold.
import Ecode.ConfigEdit

namespace Ecode.config_edit

open toml_edit

variable {doc doc' : Items} {p q r : List Text} {v found : Item}

/-! ## One override -/

/-- An override of `q` leaves alone what is found at `p`: it does not write over it, and the way
that they share goes through standard tables. -/
def Stays (doc : Items) (q p : List Text) : Prop :=
  ¬ q <+: p ∧ ∀ r item, r <+: p → r <+: q → item_at (.Table doc) r = some item → item.is_table

theorem apply_cons (hq : q ≠ []) (seg : Text) :
    apply_toml_edit_override_segments doc (seg :: q) v =
      set doc seg (.Table (apply_toml_edit_override_segments (next_table doc seg) q v)) := by
  cases q with
  | nil => exact absurd rfl hq
  | cons next q => rfl

variable (doc v) in
/-- On its way an override leaves standard tables. -/
theorem item_at_apply_of_prefix (h : r <+: q) (hne : r ≠ q) :
    ∃ items, item_at (.Table (apply_toml_edit_override_segments doc q v)) r =
      some (.Table items) := by
  induction q generalizing doc r with
  | nil => exact absurd (List.prefix_nil.mp h) hne
  | cons seg q ih =>
    cases r with
    | nil => exact ⟨_, rfl⟩
    | cons k r =>
      obtain ⟨rfl, hrest⟩ := List.cons_prefix_cons.mp h
      have hner : r ≠ q := fun he => hne (by rw [he])
      have hq : q ≠ [] := by
        rintro rfl
        exact hner (List.prefix_nil.mp hrest)
      rw [apply_cons hq, item_at_table_cons, get_set_self]
      exact ih _ hrest hner

theorem item_at_apply_self (hq : q ≠ []) :
    item_at (.Table (apply_toml_edit_override_segments doc q v)) q = some v := by
  induction q generalizing doc with
  | nil => exact absurd rfl hq
  | cons seg q ih =>
    by_cases hrest : q = []
    · subst hrest
      rw [item_at_table_cons, apply_toml_edit_override_segments, get_set_self]
      rfl
    · rw [apply_cons hrest, item_at_table_cons, get_set_self]
      exact ih hrest

/-- Below the value that is written nothing is found. -/
theorem item_at_apply_below (hq : q ≠ []) (hv : v.as_table_like = none) (h : q <+: p)
    (hne : q ≠ p) :
    item_at (.Table (apply_toml_edit_override_segments doc q v)) p = none := by
  obtain ⟨rest, rfl⟩ := h
  rw [item_at_append, item_at_apply_self hq]
  cases rest with
  | nil => exact absurd (List.append_nil q).symm hne
  | cons key rest => exact item_at_leaf_cons hv key rest

theorem item_at_empty (hp : p ≠ []) : item_at (.Table []) p = none := by
  cases p with
  | nil => exact absurd rfl hp
  | cons key p => rfl

theorem is_table_iff : found.is_table = true ↔ ∃ items, found = .Table items := by
  cases found <;> simp [Item.is_table]

theorem next_table_of_get {items : Items} {seg : Text} (h : get doc seg = some (.Table items)) :
    next_table doc seg = items := by
  simp [next_table, h]

theorem next_table_of_other {seg : Text}
    (h : ∀ item, get doc seg = some item → item.is_table = false) : next_table doc seg = [] := by
  unfold next_table
  split
  · next items hitems => simpa [Item.is_table] using h _ hitems
  · rfl

variable (doc v) in
theorem apply_eq_set (seg : Text) (q : List Text) :
    ∃ item, apply_toml_edit_override_segments doc (seg :: q) v = set doc seg item := by
  cases q with
  | nil => exact ⟨v, rfl⟩
  | cons next q => exact ⟨_, rfl⟩

theorem stays_empty (h : ¬ q <+: p) : Stays [] q p := by
  refine ⟨h, fun r item _ _ hitem => ?_⟩
  cases r with
  | nil =>
    obtain rfl := Option.some.inj hitem
    rfl
  | cons key r => cases hitem

/-- What stays under a standard table, seen from that table. -/
theorem Stays.tail {items : Items} {k : Text} (h : Stays doc (k :: q) (k :: p))
    (hget : get doc k = some (.Table items)) : Stays items q p := by
  refine ⟨fun hinit => h.1 (List.cons_prefix_cons.mpr ⟨rfl, hinit⟩), ?_⟩
  intro r item hp hq hitem
  apply h.2 (k :: r) item (List.cons_prefix_cons.mpr ⟨rfl, hp⟩)
    (List.cons_prefix_cons.mpr ⟨rfl, hq⟩)
  rw [item_at_table_cons, hget]
  exact hitem

theorem apart_tail {k : Text} (hbeside : ¬ (k :: p) <+: (k :: q))
    (hbelow : ¬ (k :: q) <+: (k :: p)) : ¬ p <+: q ∧ ¬ q <+: p ∧ p ≠ [] ∧ q ≠ [] := by
  have h : ¬ p <+: q ∧ ¬ q <+: p := by
    simpa [List.cons_prefix_cons] using And.intro hbeside hbelow
  refine ⟨h.1, h.2, ?_, ?_⟩
  · rintro rfl
    exact h.1 List.nil_prefix
  · rintro rfl
    exact h.2 List.nil_prefix

/-- Beside the way of an override everything is as before. -/
theorem item_at_apply_of_stays (h : Stays doc q p) (hbeside : ¬ p <+: q) :
    item_at (.Table (apply_toml_edit_override_segments doc q v)) p = item_at (.Table doc) p := by
  induction q generalizing doc p with
  | nil => rfl
  | cons seg q ih =>
    cases p with
    | nil => exact absurd List.nil_prefix hbeside
    | cons k p =>
      by_cases hk : k = seg
      · subst hk
        obtain ⟨hbeside', hbelow', hp, hq⟩ := apart_tail hbeside h.1
        rw [apply_cons hq, item_at_table_cons, item_at_table_cons, get_set_self, Option.bind_some]
        cases hget : get doc k with
        | none =>
          rw [next_table_of_other (by simp [hget]), ih (stays_empty hbelow') hbeside']
          exact item_at_empty hp
        | some next =>
          have hitem : item_at (.Table doc) [k] = some next := by
            rw [item_at_table_cons, hget]
            rfl
          have htable := h.2 [k] next (by simp) (by simp) hitem
          obtain ⟨items, rfl⟩ : ∃ items, next = .Table items := is_table_iff.mp htable
          rw [next_table_of_get hget]
          exact ih (h.tail hget) hbeside'
      · obtain ⟨item, hitem⟩ := apply_eq_set doc v seg q
        rw [hitem, item_at_table_cons, item_at_table_cons, get_set_of_ne hk]

/-- What an override of `q` does not leave alone is not found any more, unless it is on its way. -/
theorem item_at_apply_lost (hbelow : ¬ q <+: p) (hbeside : ¬ p <+: q) (hp : r <+: p) (hq : r <+: q)
    (hfound : item_at (.Table doc) r = some found) (hother : found.is_table = false) :
    item_at (.Table (apply_toml_edit_override_segments doc q v)) p = none := by
  induction q generalizing doc p r with
  | nil => exact absurd List.nil_prefix hbelow
  | cons seg q ih =>
    cases r with
    | nil =>
      obtain rfl := Option.some.inj hfound
      cases hother
    | cons k r =>
      obtain ⟨rfl, hrq⟩ := List.cons_prefix_cons.mp hq
      obtain ⟨p, rfl⟩ : ∃ rest, p = k :: rest := by
        obtain ⟨rest, rfl⟩ := hp
        exact ⟨r ++ rest, rfl⟩
      have hrp := (List.cons_prefix_cons.mp hp).2
      obtain ⟨hbeside', hbelow', hpne, hqne⟩ := apart_tail hbeside hbelow
      rw [item_at_table_cons] at hfound
      obtain ⟨next, hget, hnext⟩ := Option.bind_eq_some_iff.mp hfound
      rw [apply_cons hqne, item_at_table_cons, get_set_self, Option.bind_some]
      by_cases htable : next.is_table = true
      · obtain ⟨items, rfl⟩ := is_table_iff.mp htable
        rw [next_table_of_get hget]
        exact ih hbelow' hbeside' hrp hrq hnext
      · have hempty : next_table doc k = [] := by
          apply next_table_of_other
          intro item hitem
          rw [hget] at hitem
          obtain rfl := Option.some.inj hitem
          simpa using htable
        rw [hempty, item_at_apply_of_stays (stays_empty hbelow') hbeside']
        exact item_at_empty hpne

/-! ## What settings read as -/

variable {setting : Item}

theorem read_table (items : Items) (h : item_at found p = some (.Table items)) :
    setting_at found p = none := by
  simp [setting_at, h, Item.as_table_like]

theorem is_table_of_leaf (h : setting.as_table_like = none) : setting.is_table = false := by
  cases setting <;> first | rfl | cases h

theorem read_apply_of_stays (h : Stays doc q p) (hread : setting_at (.Table doc) p = some setting) :
    setting_at (.Table (apply_toml_edit_override_segments doc q v)) p = some setting := by
  obtain ⟨hfound, hleaf⟩ := setting_at_eq_some.mp hread
  have hbeside : ¬ p <+: q := by
    intro hinit
    have htable := h.2 p setting List.prefix_rfl hinit hfound
    rw [is_table_of_leaf hleaf] at htable
    cases htable
  rw [setting_at, item_at_apply_of_stays h hbeside]
  exact hread

theorem read_apply_of_lost (h : ¬ Stays doc q p) (hne : p ≠ q) (hq : q ≠ [])
    (hv : v.as_table_like = none) :
    setting_at (.Table (apply_toml_edit_override_segments doc q v)) p = none := by
  by_cases hbelow : q <+: p
  · rw [setting_at, item_at_apply_below hq hv hbelow hne.symm]
    rfl
  · by_cases hbeside : p <+: q
    · obtain ⟨items, hitems⟩ := item_at_apply_of_prefix doc v hbeside hne
      exact read_table items hitems
    · obtain ⟨r, item, hp, hrq, hitem, hother⟩ :
          ∃ r item, r <+: p ∧ r <+: q ∧ item_at (.Table doc) r = some item ∧
            item.is_table = false := by
        by_contra hnone
        push Not at hnone
        exact h ⟨hbelow, fun r item hp hrq hitem => by simpa using hnone r item hp hrq hitem⟩
      rw [setting_at, item_at_apply_lost hbelow hbeside hp hrq hitem hother]
      rfl

/-- Nothing is set beside the path of an override. -/
theorem read_of_read_apply (hne : p ≠ q) (hv : v.as_table_like = none)
    (h : setting_at (.Table (apply_toml_edit_override_segments doc q v)) p = some setting) :
    setting_at (.Table doc) p = some setting := by
  by_cases hq : q = []
  · subst hq
    exact h
  · by_cases hstays : Stays doc q p
    · by_cases hbeside : p <+: q
      · obtain ⟨items, hitems⟩ := item_at_apply_of_prefix doc v hbeside hne
        rw [read_table items hitems] at h
        cases h
      · rw [setting_at, item_at_apply_of_stays hstays hbeside] at h
        exact h
    · rw [read_apply_of_lost hstays hne hq hv] at h
      cases h

theorem read_apply_self (hq : q ≠ []) (hv : v.as_table_like = none) :
    setting_at (.Table (apply_toml_edit_override_segments doc q v)) q = some v :=
  setting_at_eq_some.mpr ⟨item_at_apply_self hq, hv⟩

/-! ## The kinds of the items on a way -/

/-- The way to `p` is spelled the same in both documents. -/
def SameWay (doc doc' : Items) (p : List Text) : Prop :=
  ∀ r, r <+: p →
    (item_at (.Table doc) r).map Item.is_table = (item_at (.Table doc') r).map Item.is_table

theorem SameWay.stays_iff (h : SameWay doc doc' p) : Stays doc q p ↔ Stays doc' q p := by
  have hkind : ∀ {doc : Items} {r : List Text},
      (∀ item, item_at (.Table doc) r = some item → item.is_table) ↔
        (item_at (.Table doc) r).map Item.is_table ≠ some false := by
    intro doc r
    cases item_at (.Table doc) r <;> simp
  have hways : ∀ r, r <+: p → ((∀ item, item_at (.Table doc) r = some item → item.is_table) ↔
      ∀ item, item_at (.Table doc') r = some item → item.is_table) := by
    intro r hr
    rw [hkind, hkind, h r hr]
  unfold Stays
  apply and_congr_right
  intro _
  constructor
  · intro hdoc r item hp hq
    exact (hways r hp).mp (fun item => hdoc r item hp hq) item
  · intro hdoc r item hp hq
    exact (hways r hp).mpr (fun item => hdoc r item hp hq) item

theorem found_of_prefix (h : r <+: p) (hfound : item_at (.Table doc) p = some found) :
    ∃ item, item_at (.Table doc) r = some item := by
  obtain ⟨rest, rfl⟩ := h
  rw [item_at_append] at hfound
  obtain ⟨item, hitem, -⟩ := Option.bind_eq_some_iff.mp hfound
  exact ⟨item, hitem⟩

theorem Stays.of_prefix (h : Stays doc q p) (hr : r <+: p) : Stays doc q r :=
  ⟨fun hq => h.1 (hq.trans hr), fun s item hs hq => h.2 s item (hs.trans hr) hq⟩

theorem sameWay_apply (h : Stays doc q p) (hfound : item_at (.Table doc) p = some found) :
    SameWay doc (apply_toml_edit_override_segments doc q v) p := by
  intro r hr
  by_cases hinit : r <+: q
  · have hne : r ≠ q := by
      rintro rfl
      exact h.1 hr
    obtain ⟨items, hitems⟩ := item_at_apply_of_prefix doc v hinit hne
    obtain ⟨item, hitem⟩ := found_of_prefix hr hfound
    have htable := h.2 r item hr hinit hitem
    rw [hitems, hitem, Option.map_some, Option.map_some, htable]
    rfl
  · rw [item_at_apply_of_stays (h.of_prefix hr) hinit]

/-! ## All overrides -/

def apply_all (doc : Items) (overrides : List (List Text × Item)) : Items :=
  overrides.foldl (fun doc o => apply_toml_edit_override_segments doc o.1 o.2) doc

/-- The values that are written are no tables, and every override has a segment. -/
def Plain (overrides : List (List Text × Item)) : Prop :=
  ∀ o ∈ overrides, o.1 ≠ [] ∧ o.2.as_table_like = none

variable {overrides : List (List Text × Item)}

theorem read_of_read_all (hplain : ∀ o ∈ overrides, o.2.as_table_like = none)
    (hother : ∀ o ∈ overrides, p ≠ o.1)
    (h : setting_at (.Table (apply_all doc overrides)) p = some setting) :
    setting_at (.Table doc) p = some setting := by
  induction overrides generalizing doc with
  | nil => exact h
  | cons o overrides ih =>
    have hrest := ih (fun o ho => hplain o (List.mem_cons_of_mem _ ho))
      (fun o ho => hother o (List.mem_cons_of_mem _ ho)) h
    exact read_of_read_apply (hother o List.mem_cons_self) (hplain o List.mem_cons_self) hrest

/-- A setting is still there after all overrides exactly when each of them, in the document as it
was at first, leaves it alone. -/
theorem read_all_iff (hplain : Plain overrides) (hother : ∀ o ∈ overrides, p ≠ o.1)
    (hread : setting_at (.Table doc) p = some setting) :
    setting_at (.Table (apply_all doc overrides)) p = some setting ↔
      ∀ o ∈ overrides, Stays doc o.1 p := by
  induction overrides generalizing doc with
  | nil => simp [apply_all, hread]
  | cons o overrides ih =>
    have hplain' : Plain overrides := fun o ho => hplain o (List.mem_cons_of_mem _ ho)
    have hother' : ∀ o ∈ overrides, p ≠ o.1 := fun o ho => hother o (List.mem_cons_of_mem _ ho)
    obtain ⟨hne, hv⟩ := hplain o List.mem_cons_self
    rw [List.forall_mem_cons]
    by_cases hstays : Stays doc o.1 p
    · have hnext := ih hplain' hother' (read_apply_of_stays (v := o.2) hstays hread)
      have hway := sameWay_apply (v := o.2) hstays (setting_at_eq_some.mp hread).1
      simp only [← hway.stays_iff] at hnext
      exact hnext.trans (and_iff_right hstays).symm
    · refine ⟨fun h => ?_, fun h => absurd h.1 hstays⟩
      have hlost := read_apply_of_lost (v := o.2) hstays (hother o List.mem_cons_self) hne hv
      have hkept := read_of_read_all (fun o ho => (hplain' o ho).2) hother' h
      rw [hlost] at hkept
      cases hkept

/-! ## What was written -/

/-- The value stands at the end of a way of standard tables. -/
def Written (doc : Items) (q : List Text) (v : Item) : Prop :=
  setting_at (.Table doc) q = some v ∧
    ∀ r, r <+: q → r ≠ q → ∃ items, item_at (.Table doc) r = some (.Table items)

variable (doc) in
theorem written_apply_self (hq : q ≠ []) (hv : v.as_table_like = none) :
    Written (apply_toml_edit_override_segments doc q v) q v :=
  ⟨read_apply_self hq hv, fun _ hr hne => item_at_apply_of_prefix doc v hr hne⟩

/-- A later override with another way keeps what was written. -/
theorem Written.apply_other {value : Item} (h : Written doc p value) (hbelow : ¬ q <+: p)
    (hbeside : ¬ p <+: q) :
    Written (apply_toml_edit_override_segments doc q v) p value := by
  have hstays : Stays doc q p := by
    refine ⟨hbelow, fun r item hr hrq hitem => ?_⟩
    have hne : r ≠ p := by
      rintro rfl
      exact hbeside hrq
    obtain ⟨items, hitems⟩ := h.2 r hr hne
    rw [hitems] at hitem
    obtain rfl := Option.some.inj hitem
    rfl
  refine ⟨read_apply_of_stays hstays h.1, fun r hr hne => ?_⟩
  by_cases hrq : r <+: q
  · have hneq : r ≠ q := by
      rintro rfl
      exact hbelow hr
    exact item_at_apply_of_prefix doc v hrq hneq
  · rw [item_at_apply_of_stays (hstays.of_prefix hr) hrq]
    exact h.2 r hr hne

/-- No override writes at or below the path of another one. -/
def Apart (overrides : List (List Text × Item)) : Prop :=
  ∀ o ∈ overrides, ∀ o' ∈ overrides, o.1 <+: o'.1 → o = o'

theorem written_all (hplain : Plain overrides) (hapart : Apart overrides) :
    ∀ o ∈ overrides, Written (apply_all doc overrides) o.1 o.2 := by
  induction overrides using List.reverseRecOn with
  | nil => simp
  | append_singleton overrides last ih =>
    have hlast : last ∈ overrides ++ [last] := by simp
    have hbefore : ∀ o ∈ overrides, o ∈ overrides ++ [last] := fun o ho => by simp [ho]
    have happly : apply_all doc (overrides ++ [last]) =
        apply_toml_edit_override_segments (apply_all doc overrides) last.1 last.2 := by
      simp [apply_all]
    have hself := written_apply_self (apply_all doc overrides) (hplain last hlast).1
      (hplain last hlast).2
    rw [happly]
    intro o ho
    by_cases hsame : o = last
    · rw [hsame]
      exact hself
    · have hold : o ∈ overrides := by simpa [hsame] using ho
      have hkept := ih (fun o ho => hplain o (hbefore o ho))
        (fun o ho o' ho' => hapart o (hbefore o ho) o' (hbefore o' ho')) o hold
      apply hkept.apply_other
      · intro hinit
        exact hsame (hapart last hlast o ho hinit).symm
      · intro hinit
        exact hsame (hapart o ho last hlast hinit)

/-- Every override reads back exactly when each has a segment and none overlaps another. -/
theorem read_back_iff (hleaf : ∀ o ∈ overrides, o.2.as_table_like = none) :
    (∀ o ∈ overrides, setting_at (.Table (apply_all doc overrides)) o.1 = some o.2) ↔
      (∀ o ∈ overrides, o.1 ≠ []) ∧ Apart overrides := by
  constructor
  · intro h
    refine ⟨fun o ho hnil => ?_, fun o ho o' ho' hinit => ?_⟩
    · have hback := h o ho
      rw [hnil, read_table _ rfl] at hback
      cases hback
    · obtain ⟨rest, hrest⟩ := hinit
      have hvalue := setting_at_eq_some.mp (h o ho)
      have hvalue' := setting_at_eq_some.mp (h o' ho')
      cases rest with
      | nil =>
        rw [List.append_nil] at hrest
        rw [← hrest, hvalue.1] at hvalue'
        exact Prod.ext hrest (Option.some.inj hvalue'.1)
      | cons key rest =>
        rw [← hrest, item_at_append, hvalue.1, Option.bind_some,
          item_at_leaf_cons hvalue.2] at hvalue'
        cases hvalue'.1
  · rintro ⟨hne, hapart⟩ o ho
    exact (written_all (fun o ho => ⟨hne o ho, hleaf o ho⟩) hapart o ho).1

/-! ## Persisted overrides -/

/-- The paths and values that the overrides of a call write. -/
def written (doc : Items) (profile : Option Text) (overrides : List (List Text × Text)) :
    List (List Text × Item) :=
  overrides.map fun o => (segments_to_apply (effective_profile doc profile) o.1, item_value o.2)

theorem item_value_leaf (text : Text) : (item_value text).as_table_like = none := by
  unfold item_value
  split_ifs <;> rfl

theorem foldl_apply_override (profile : Option Text) (overrides : List (List Text × Text))
    (doc : Items) (mutated : Bool) :
    (overrides.map fun o => (o.1, some o.2)).foldl (apply_override .Skip profile) (doc, mutated) =
      (apply_all doc (overrides.map fun o => (segments_to_apply profile o.1, item_value o.2)),
        mutated || !overrides.isEmpty) := by
  induction overrides generalizing doc mutated with
  | nil => simp [apply_all]
  | cons o overrides ih =>
    rw [List.map_cons, List.foldl_cons]
    have hturn : apply_override .Skip profile (doc, mutated) (o.1, some o.2) =
        (apply_toml_edit_override_segments doc (segments_to_apply profile o.1) (item_value o.2),
          true) := rfl
    rw [hturn, ih]
    simp [apply_all]

theorem persist_overrides_eq (file : Option Items) (profile : Option Text)
    (overrides : List (List Text × Text)) :
    (persist_overrides file profile overrides).getD [] =
      apply_all (file.getD []) (written (file.getD []) profile overrides) := by
  unfold persist_overrides persist_overrides_with_behavior written
  cases overrides with
  | nil => simp [apply_all]
  | cons o overrides =>
    dsimp only
    rw [foldl_apply_override]
    simp

/-- A scalar at the path or on the way to it that an override puts a table in the place of. -/
def ScalarReplaced (doc : Items) (overrides : List (List Text × Item)) (path : List Text) : Prop :=
  ∃ r item, r <+: path ∧ item_at (.Table doc) r = some item ∧ item.is_scalar ∧
    ∃ o ∈ overrides, r <+: o.1 ∧ r ≠ o.1

/-- The overrides read back, and the other settings read as before. -/
structure KeepsSettings (doc doc' : Items) (overrides : List (List Text × Item)) : Prop where
  read_back : ∀ o ∈ overrides, setting_at (.Table doc') o.1 = some o.2
  others : ∀ path, (∀ o ∈ overrides, path ≠ o.1) → ¬ ScalarReplaced doc overrides path →
    setting_at (.Table doc') path = setting_at (.Table doc) path

/-- The overrides have segments and do not overlap, and no other setting is below one of them or
in an inline table or list on its way. -/
structure OutOfTheWay (doc : Items) (overrides : List (List Text × Item)) : Prop where
  segments : ∀ o ∈ overrides, o.1 ≠ []
  apart : Apart overrides
  settings : ∀ path value, setting_at (.Table doc) path = some value →
    (∀ o ∈ overrides, path ≠ o.1) → ¬ ScalarReplaced doc overrides path →
    ∀ o ∈ overrides, Stays doc o.1 path

theorem keeps_settings_iff (hleaf : ∀ o ∈ overrides, o.2.as_table_like = none) :
    KeepsSettings doc (apply_all doc overrides) overrides ↔ OutOfTheWay doc overrides := by
  constructor
  · intro h
    obtain ⟨hsegments, hapart⟩ := (read_back_iff hleaf).mp h.read_back
    refine ⟨hsegments, hapart, fun path value hvalue hother hscalar => ?_⟩
    apply (read_all_iff (fun o ho => ⟨hsegments o ho, hleaf o ho⟩) hother hvalue).mp
    rw [h.others path hother hscalar]
    exact hvalue
  · intro h
    refine ⟨(read_back_iff hleaf).mpr ⟨h.segments, h.apart⟩, fun path hother hscalar => ?_⟩
    cases hvalue : setting_at (.Table doc) path with
    | none =>
      cases hnew : setting_at (.Table (apply_all doc overrides)) path with
      | none => rfl
      | some value =>
        rw [read_of_read_all hleaf hother hnew] at hvalue
        cases hvalue
    | some value =>
      exact (read_all_iff (fun o ho => ⟨h.segments o ho, hleaf o ho⟩) hother hvalue).mpr
        (h.settings path value hvalue hother hscalar)

/-! ## Lists of entries -/

/-- The tables of a list in either spelling. -/
def entries : Option Item → List Items
  | some (.ArrayOfTables tables) => tables
  | some (.Array values) => values.filterMap Item.as_table_like
  | _ => []

def agents (doc : Items) : List Items := entries (get doc "agents".toList)

def commands_item (doc : Items) : Option Item :=
  ((get doc "subagents".toList).bind Item.as_table_like).bind fun items =>
    get items "commands".toList

def commands (doc : Items) : List Items := entries (commands_item doc)

/-- The entries with another name are the same ones as before. -/
def KeepsEntries (name : Text) (before after : List Items) : Prop :=
  (after.filter fun tbl => !same name tbl) = before.filter fun tbl => !same name tbl

/-- The list is not an array of inline tables, one of them with another name. -/
def ListedAsTables (name : Text) (list : Option Item) : Prop :=
  ∀ values, list = some (.Array values) → ∀ tbl ∈ entries list, same name tbl

/-- A list that is no array of standard tables has no entries to lose but those of an array. -/
theorem listed_iff {name : Text} {list : Option Item}
    (h : list.bind Item.as_array_of_tables = none) :
    (∀ tbl ∈ entries list, same name tbl = true) ↔ ListedAsTables name list := by
  unfold ListedAsTables
  constructor
  · intro hall values _ tbl htbl
    exact hall tbl htbl
  · intro hlisted tbl htbl
    cases list with
    | none => cases htbl
    | some item =>
      cases item with
      | Array values => exact hlisted values rfl tbl htbl
      | ArrayOfTables tables => cases h
      | _ => cases htbl

theorem tables_of_list {arr : List Items} {list : Option Item}
    (h : list.bind Item.as_array_of_tables = some arr) : list = some (.ArrayOfTables arr) := by
  obtain ⟨item, rfl, hitem⟩ := Option.bind_eq_some_iff.mp h
  rw [as_array_of_tables_eq_some.mp hitem]

theorem listed_of_tables {name : Text} {arr : List Items} {list : Option Item}
    (h : list = some (.ArrayOfTables arr)) : ListedAsTables name list := by
  subst h
  intro values hvalues
  cases hvalues

variable {tbl : Items} {key k : Text}

theorem get_set_some (h : k ≠ key) (value : Option Item) :
    get (set_some tbl key value) k = get tbl k := by
  cases value with
  | none => rfl
  | some v => exact get_set_of_ne h

theorem get_set_text (h : k ≠ key) (text : Option Text) :
    get (set_text tbl key text) k = get tbl k := by
  unfold set_text
  cases text with
  | none => rfl
  | some t =>
    dsimp only
    split_ifs
    · exact get_remove_of_ne h
    · exact get_set_of_ne h

theorem get_set_or_remove (h : k ≠ key) (text : Option Text) :
    get (set_or_remove tbl key text) k = get tbl k := by
  cases text with
  | none => exact get_remove_of_ne h
  | some t => exact get_set_of_ne h

theorem get_name_set_agent_fields (tbl : Items) (edit : AgentEdit) :
    get (set_agent_fields tbl edit) "name".toList = get tbl "name".toList := by
  unfold set_agent_fields
  dsimp only
  rw [get_set_text (by decide), get_set_text (by decide), get_set_text (by decide),
    get_set_some (by decide), get_set_some (by decide), get_set_some (by decide),
    get_set_some (by decide)]

theorem get_name_set_command_fields (tbl : Items) (cmd : SubagentCommandConfig) :
    get (set_command_fields tbl cmd) "name".toList = some (.String cmd.name) := by
  unfold set_command_fields
  dsimp only
  rw [get_set_or_remove (by decide), get_set_or_remove (by decide), get_set_of_ne (by decide),
    get_set_of_ne (by decide), get_set_self]

theorem same_of_get (name : Text) (h : get tbl "name".toList = some (.String name)) :
    same name tbl = true := by
  unfold same
  rw [h]
  simp [Item.as_str, Text.eq_ignore_ascii_case]

theorem same_set_agent_fields (name : Text) (tbl : Items) (edit : AgentEdit) :
    same name (set_agent_fields tbl edit) = same name tbl := by
  unfold same
  rw [get_name_set_agent_fields]

/-- Entries of the name change among themselves, and new ones have the name. -/
theorem filter_update {name : Text} {update : Items → Items} (arr new : List Items)
    (hupdate : ∀ tbl, same name tbl = true → same name (update tbl) = true)
    (hnew : ∀ tbl ∈ new, same name tbl = true) :
    KeepsEntries name arr
      ((arr.map fun tbl => if same name tbl then update tbl else tbl) ++ new) := by
  unfold KeepsEntries
  have hnone : (new.filter fun tbl => !same name tbl) = [] := by
    rw [List.filter_eq_nil_iff]
    intro tbl htbl
    simp [hnew tbl htbl]
  rw [List.filter_append, hnone, List.append_nil]
  induction arr with
  | nil => rfl
  | cons tbl arr ih =>
    rw [List.map_cons]
    by_cases hsame : same name tbl = true
    · simp [hsame, hupdate tbl hsame, ih]
    · simp [hsame, ih]

theorem keeps_entries_replaced {name : Text} {before : List Items} {tbl : Items}
    (htbl : same name tbl = true) :
    KeepsEntries name before [tbl] ↔ ∀ tbl ∈ before, same name tbl = true := by
  unfold KeepsEntries
  rw [List.filter_cons, if_neg (by simp [htbl]), List.filter_nil, eq_comm,
    List.filter_eq_nil_iff]
  simp

/-! ## Agents -/

/-- The entry that `append_agent_entry` makes. -/
def new_agent (edit : AgentEdit) : Items :=
  set_agent_fields [("name".toList, .String edit.name)] edit

theorem same_new_agent (edit : AgentEdit) : same edit.name (new_agent edit) = true :=
  same_of_get edit.name (get_name_set_agent_fields _ edit)

theorem agents_append (doc : Items) (edit : AgentEdit) :
    agents (append_agent_entry doc edit) =
      ((get doc "agents".toList).bind Item.as_array_of_tables).getD [] ++ [new_agent edit] := by
  unfold agents append_agent_entry
  rw [get_set_self]
  rfl

/-- A list of standard tables is kept with its other entries. -/
theorem keeps_agents_of_tables {arr : List Items} {edit : AgentEdit}
    (h : get doc "agents".toList = some (.ArrayOfTables arr)) :
    KeepsEntries edit.name (agents doc) (agents (upsert_agent_config doc edit)) := by
  have hbefore : agents doc = arr := by
    unfold agents
    rw [h]
    rfl
  have hname : ∀ tbl, same edit.name tbl = true →
      same edit.name (set_agent_fields tbl edit) = true := by
    intro tbl htbl
    rw [same_set_agent_fields]
    exact htbl
  unfold upsert_agent_config
  rw [h, hbefore]
  simp only [Item.as_array_of_tables]
  split_ifs with hfound
  · have hkept := filter_update arr [] hname (by simp)
    rw [List.append_nil] at hkept
    unfold agents
    rw [get_set_self]
    exact hkept
  · rw [agents_append, get_set_self]
    apply filter_update arr [new_agent edit] hname
    intro tbl htbl
    rw [List.mem_singleton.mp htbl]
    exact same_new_agent edit

/-- Any other list is replaced by one with the new entry only. -/
theorem agents_of_other {edit : AgentEdit}
    (h : (get doc "agents".toList).bind Item.as_array_of_tables = none) :
    agents (upsert_agent_config doc edit) = [new_agent edit] := by
  have happend : upsert_agent_config doc edit = append_agent_entry doc edit := by
    unfold upsert_agent_config
    cases hget : get doc "agents".toList with
    | none => rfl
    | some item =>
      rw [hget] at h
      have hitem : item.as_array_of_tables = none := h
      simp [hitem]
  rw [happend, agents_append, h]
  rfl

theorem keeps_agents_iff (doc : Items) (edit : AgentEdit) :
    KeepsEntries edit.name (agents doc) (agents (upsert_agent_config doc edit)) ↔
      ListedAsTables edit.name (get doc "agents".toList) := by
  cases hlist : (get doc "agents".toList).bind Item.as_array_of_tables with
  | some arr =>
    have hget := tables_of_list hlist
    exact iff_of_true (keeps_agents_of_tables hget) (listed_of_tables hget)
  | none =>
    rw [agents_of_other hlist, keeps_entries_replaced (same_new_agent edit)]
    exact listed_iff hlist

/-! ## Subagent commands -/

theorem commands_item_set {subagents value item : Item}
    (h : set_commands subagents value = some item) :
    commands_item (set doc "subagents".toList item) = some value := by
  unfold commands_item
  rw [get_set_self, Option.bind_some]
  cases subagents with
  | Table items =>
    obtain rfl := Option.some.inj h
    exact get_set_self
  | InlineTable items =>
    obtain rfl := Option.some.inj h
    exact get_set_self
  | _ => cases h

theorem same_set_command_fields (tbl : Items) (cmd : SubagentCommandConfig) :
    same cmd.name (set_command_fields tbl cmd) = true :=
  same_of_get cmd.name (get_name_set_command_fields tbl cmd)

/-- The commands after an edit that does not panic. -/
theorem commands_upsert {cmd : SubagentCommandConfig}
    (h : upsert_subagent_command doc cmd = some doc') :
    commands doc' =
      (((commands_item doc).bind Item.as_array_of_tables).getD []).map
        (fun tbl => if same cmd.name tbl then set_command_fields tbl cmd else tbl) ++
      if (((commands_item doc).bind Item.as_array_of_tables).getD []).any (same cmd.name) then []
      else [set_command_fields [] cmd] := by
  have hitem : (((get doc "subagents".toList).getD (.Table [])).as_table_like.bind fun items =>
      get items "commands".toList) = commands_item doc := by
    unfold commands_item
    cases get doc "subagents".toList <;> rfl
  unfold upsert_subagent_command at h
  dsimp only at h
  rw [hitem] at h
  obtain ⟨item, hset, rfl⟩ := Option.map_eq_some_iff.mp h
  unfold commands
  rw [commands_item_set hset]
  unfold entries
  split_ifs <;> simp

theorem upsert_subagent_command_isSome {list : Item} (h : commands_item doc = some list)
    (cmd : SubagentCommandConfig) : ∃ doc', upsert_subagent_command doc cmd = some doc' := by
  obtain ⟨items, hitems, -⟩ := Option.bind_eq_some_iff.mp h
  obtain ⟨subagents, hget, hlike⟩ := Option.bind_eq_some_iff.mp hitems
  unfold upsert_subagent_command
  rw [hget]
  cases subagents with
  | Table _ => exact ⟨_, rfl⟩
  | InlineTable _ => exact ⟨_, rfl⟩
  | _ => cases hlike

theorem keeps_commands_iff (doc : Items) (cmd : SubagentCommandConfig) :
    (∀ doc', upsert_subagent_command doc cmd = some doc' →
        KeepsEntries cmd.name (commands doc) (commands doc')) ↔
      ListedAsTables cmd.name (commands_item doc) := by
  cases hlist : (commands_item doc).bind Item.as_array_of_tables with
  | some arr =>
    have hget := tables_of_list hlist
    refine iff_of_true (fun doc' hdoc' => ?_) (listed_of_tables hget)
    have hbefore : commands doc = arr := by
      unfold commands
      rw [hget]
      rfl
    rw [commands_upsert hdoc', hlist, hbefore]
    apply filter_update arr _ fun tbl _ => same_set_command_fields tbl cmd
    intro tbl htbl
    split_ifs at htbl
    · cases htbl
    · rw [List.mem_singleton.mp htbl]
      exact same_set_command_fields [] cmd
  | none =>
    have hafter : ∀ doc', upsert_subagent_command doc cmd = some doc' →
        commands doc' = [set_command_fields [] cmd] := by
      intro doc' hdoc'
      rw [commands_upsert hdoc', hlist]
      rfl
    rw [← listed_iff hlist, ← keeps_entries_replaced (same_set_command_fields [] cmd)]
    constructor
    · intro h
      cases hitem : commands_item doc with
      | none =>
        rw [keeps_entries_replaced (same_set_command_fields [] cmd)]
        simp [entries]
      | some list =>
        obtain ⟨doc', hdoc'⟩ := upsert_subagent_command_isSome hitem cmd
        have hkept := h doc' hdoc'
        rw [hafter doc' hdoc', commands, hitem] at hkept
        exact hkept
    · intro h doc' hdoc'
      rw [hafter doc' hdoc']
      exact h

/-- The settings that the edits keep, for every file, profile, list of overrides and entry. -/
theorem settings_kept_iff (file : Option Items) (profile : Option Text)
    (overrides : List (List Text × Text)) (edit : AgentEdit) (cmd : SubagentCommandConfig) :
    (KeepsSettings (file.getD []) ((persist_overrides file profile overrides).getD [])
        (written (file.getD []) profile overrides) ↔
      OutOfTheWay (file.getD []) (written (file.getD []) profile overrides)) ∧
    (KeepsEntries edit.name (agents (file.getD []))
        (agents (upsert_agent_config (file.getD []) edit)) ↔
      ListedAsTables edit.name (get (file.getD []) "agents".toList)) ∧
    ((∀ doc', upsert_subagent_command (file.getD []) cmd = some doc' →
        KeepsEntries cmd.name (commands (file.getD [])) (commands doc')) ↔
      ListedAsTables cmd.name (commands_item (file.getD []))) := by
  refine ⟨?_, keeps_agents_iff _ edit, keeps_commands_iff _ cmd⟩
  rw [persist_overrides_eq]
  apply keeps_settings_iff
  intro o ho
  obtain ⟨o', -, rfl⟩ := List.mem_map.mp ho
  exact item_value_leaf o'.2

/-! A theme in an inline table is lost when a setting beside it is written, and the agents of an
array of inline tables are lost when another one is added. -/

def inline_tui : Items :=
  [("tui".toList, .InlineTable [("theme".toList, .String "dark".toList)])]

def inline_agents : Items :=
  [("agents".toList, .Array [.InlineTable [("name".toList, .String "claude".toList)]])]

def gemini : AgentEdit := ⟨"gemini".toList, some true, none, none, none, none, none, none⟩

theorem inline_settings_are_lost :
    ¬ KeepsSettings inline_tui
        ((persist_overrides (some inline_tui) none
          [(["tui".toList, "notifications".toList], "true".toList)]).getD [])
        (written inline_tui none [(["tui".toList, "notifications".toList], "true".toList)]) ∧
      ¬ KeepsEntries gemini.name (agents inline_agents)
        (agents (upsert_agent_config inline_agents gemini)) := by
  constructor
  · intro h
    have hothers := h.others ["tui".toList, "theme".toList] ?_ ?_
    · cases hothers
    · intro o ho
      obtain rfl := List.mem_singleton.mp ho
      decide
    · rintro ⟨r, item, htheme, hitem, hscalar, o, ho, hway, -⟩
      obtain rfl := List.mem_singleton.mp ho
      rcases List.prefix_cons_iff.mp htheme with rfl | ⟨r, rfl, hrest⟩
      · obtain rfl := Option.some.inj hitem
        cases hscalar
      · have hrest' : r <+: ["notifications".toList] := (List.cons_prefix_cons.mp hway).2
        rcases List.prefix_cons_iff.mp hrest with rfl | ⟨r, rfl, -⟩
        · obtain rfl := Option.some.inj hitem
          cases hscalar
        · simp at hrest'
  · intro h
    have hnames := (keeps_agents_iff inline_agents gemini).mp h _ rfl
      [("name".toList, .String "claude".toList)] List.mem_cons_self
    exact absurd hnames (by decide)

end Ecode.config_edit
