-- Which source a setting of the loaded configuration comes from, and which
-- approval policies a configuration can be loaded with (core/src/config_loader).
import Ecode.ConfigLayers
import Ecode.TextLines

namespace Ecode.config_loader

open entries

variable {V : Type}

/-! ## Layers -/

/-- Whether the value decides what is at the path: it does unless a table has no key of it. -/
def TomlValue.decides : List Text → TomlValue V → Bool
  | [], _ => true
  | _ :: _, .Other _ => true
  | key :: path, .Table entries =>
    match entries.lookup key with
    | some value => value.decides path
    | none => false

/-- A source of settings over those before it. -/
inductive Layer (V : Type) where
  | merged (overlay : TomlValue V)
  | override (segments : List Text) (value : TomlValue V)

namespace Layer

def apply (root : TomlValue V) : Layer V → TomlValue V
  | .merged overlay => merge_toml_values root overlay
  | .override segments value => set_segments value segments root

/-- An override decides what is under its path, and that a table is above it. -/
def decides (path : List Text) : Layer V → Bool
  | .merged overlay => overlay.decides path
  | .override segments _ => segments.isPrefixOf path || path.isPrefixOf segments

def setting (path : List Text) : Layer V → Option V
  | .merged overlay => overlay.setting path
  | .override segments value =>
    if segments.isPrefixOf path then value.setting (path.drop segments.length) else none

end Layer

namespace TomlValue

@[simp] theorem setting_other_cons (v : V) (key : Text) (path : List Text) :
    (Other v).setting (key :: path) = none := rfl

theorem setting_cons (value : TomlValue V) (key : Text) (path : List Text) :
    value.setting (key :: path) = (value.get key).bind (setting path) := by
  have hpath : value.at_path (key :: path) = (value.get key).bind (at_path path) := rfl
  unfold setting
  rw [hpath]
  cases value.get key <;> rfl

theorem setting_table_cons (entries : List (Text × TomlValue V)) (key : Text) (path : List Text) :
    (Table entries).setting (key :: path) = (entries.lookup key).bind (setting path) :=
  setting_cons _ key path

theorem setting_of_undecided {path : List Text} {value : TomlValue V}
    (h : value.decides path = false) : value.setting path = none := by
  induction path generalizing value with
  | nil => exact nomatch h
  | cons key path ih =>
    cases value with
    | Other v => exact nomatch h
    | Table entries =>
      rw [setting_table_cons]
      unfold decides at h
      rcases hlookup : entries.lookup key with _ | v
      · rfl
      · rw [hlookup] at h
        exact ih h

theorem distinct_lookup {entries : List (Text × TomlValue V)} (h : distinct_all entries = true)
    {key : Text} {value : TomlValue V} (hlookup : entries.lookup key = some value) :
    value.distinct = true := by
  induction entries with
  | nil => exact nomatch hlookup
  | cons e entries ih =>
    obtain ⟨k, v⟩ := e
    obtain ⟨hv, hrest⟩ := Bool.and_eq_true_iff.mp h
    rw [List.lookup_cons] at hlookup
    split at hlookup
    · rw [← Option.some.inj hlookup]
      exact hv
    · exact ih hrest hlookup

end TomlValue

/-! ## One layer -/

/-- A key of the merged table is merged, or as in the table that has it. -/
theorem lookup_merge_entries (key : Text) {overlay : List (Text × TomlValue V)}
    (h : (overlay.map Prod.fst).Nodup) (base : List (Text × TomlValue V)) :
    (merge_entries base overlay).lookup key =
      match overlay.lookup key, base.lookup key with
      | some value, some existing => some (merge_toml_values existing value)
      | some value, none => some value
      | none, existing => existing := by
  induction overlay generalizing base with
  | nil => cases hbase : base.lookup key <;> simp [merge_entries, hbase]
  | cons e overlay ih =>
    obtain ⟨k, v⟩ := e
    rw [List.map_cons, List.nodup_cons] at h
    have hmissing : overlay.lookup k = none := by
      rw [List.lookup_eq_none_iff]
      intro e he
      rw [bne_iff_ne]
      intro hk
      have hmem : e.1 ∈ overlay.map Prod.fst := List.mem_map_of_mem he
      rw [← hk] at hmem
      exact h.1 hmem
    have hrest : ∀ merged, (merge_entries (put k merged base) overlay).lookup key =
        if key = k then some merged else
          match overlay.lookup key, base.lookup key with
          | some value, some existing => some (merge_toml_values existing value)
          | some value, none => some value
          | none, existing => existing := by
      intro merged
      rw [ih h.2, lookup_put]
      split_ifs with hkey
      · rw [hkey, hmissing]
      · rfl
    unfold merge_entries
    rw [List.lookup_cons]
    by_cases hkey : key = k
    · subst hkey
      rw [beq_self_eq_true]
      dsimp only
      cases base.lookup key with
      | none => simpa using hrest v
      | some existing => simpa using hrest (merge_toml_values existing v)
    · rw [beq_eq_false_iff_ne.mpr hkey]
      dsimp only
      cases base.lookup k with
      | none => simpa [hkey] using hrest v
      | some existing => simpa [hkey] using hrest (merge_toml_values existing v)

theorem setting_merge (path : List Text) {overlay : TomlValue V} (h : overlay.distinct = true)
    (base : TomlValue V) :
    (merge_toml_values base overlay).setting path =
      if overlay.decides path then overlay.setting path else base.setting path := by
  induction path generalizing base overlay with
  | nil =>
    cases overlay with
    | Other v => rfl
    | Table overlay => cases base <;> rfl
  | cons key path ih =>
    cases overlay with
    | Other v => rfl
    | Table overlay =>
      cases base with
      | Other v =>
        rw [merge_toml_values]
        split_ifs with hdecides
        · rfl
        · exact TomlValue.setting_of_undecided (Bool.eq_false_iff.mpr hdecides)
      | Table base =>
        obtain ⟨hnodup, hall⟩ := Bool.and_eq_true_iff.mp h
        rw [merge_toml_values, TomlValue.setting_table_cons,
          lookup_merge_entries key (of_decide_eq_true hnodup), TomlValue.setting_table_cons,
          TomlValue.setting_table_cons]
        unfold TomlValue.decides
        rcases hoverlay : overlay.lookup key with _ | value
        · rfl
        · rcases hbase : base.lookup key with _ | existing
          · dsimp only [Option.bind_some]
            split_ifs with hdecides
            · rfl
            · exact TomlValue.setting_of_undecided (Bool.eq_false_iff.mpr hdecides)
          · exact ih (TomlValue.distinct_lookup hall hoverlay) existing

/-- The root with a value at its segments, as one layer. -/
theorem setting_set_segments (value : TomlValue V) (path segments : List Text)
    (hne : segments ≠ []) (root : TomlValue V) :
    (set_segments value segments root).setting path =
      if (Layer.override segments value).decides path then
        (Layer.override segments value).setting path
      else root.setting path := by
  induction path generalizing segments root with
  | nil =>
    cases segments with
    | nil => exact absurd rfl hne
    | cons segment rest => cases rest <;> rfl
  | cons key path ih =>
    cases segments with
    | nil => exact absurd rfl hne
    | cons segment rest =>
      have hroot : (TomlValue.Table root.entries).setting (key :: path) =
          root.setting (key :: path) := by
        cases root <;> rfl
      cases rest with
      | nil =>
        unfold set_segments
        rw [TomlValue.setting_table_cons, lookup_put]
        unfold Layer.decides Layer.setting
        by_cases hkey : key = segment
        · subst hkey
          simp
        · rw [if_neg hkey, ← TomlValue.setting_table_cons, hroot]
          simp [List.isPrefixOf, Ne.symm hkey, hkey]
      | cons next rest =>
        unfold set_segments
        dsimp only
        rw [TomlValue.setting_table_cons, lookup_put]
        by_cases hkey : key = segment
        · subst hkey
          have hnext := ih (next :: rest) (List.cons_ne_nil _ _) ((root.get key).getD (.Table []))
          rw [if_pos rfl, Option.bind_some, hnext]
          have hbelow : ((root.get key).getD (.Table [])).setting path =
              root.setting (key :: path) := by
            rw [TomlValue.setting_cons]
            cases root.get key with
            | none => cases path <;> rfl
            | some value => rfl
          rw [hbelow]
          simp [Layer.decides, Layer.setting, List.isPrefixOf]
        · rw [if_neg hkey, ← TomlValue.setting_table_cons, hroot]
          simp [Layer.decides, List.isPrefixOf, Ne.symm hkey, hkey]

/-! ## All layers -/

/-- What `load_root` puts over the base, in order. -/
def ConfigSources.over_base (sources : ConfigSources V) : List (Layer V) :=
  sources.legacy.map .merged ++
    sources.cli_overrides.map fun o => .override (Text.split '.' o.1) o.2

theorem load_root_eq (sources : ConfigSources V) :
    load_root sources.layers sources.cli_overrides =
      sources.over_base.foldl Layer.apply sources.layers.base := by
  unfold load_root apply_managed_layers ConfigSources.over_base ConfigSources.legacy
  simp only [List.map_append, List.foldl_append, List.foldl_map]
  rfl

theorem Layer.setting_apply (layer : Layer V) (path : List Text) (root : TomlValue V)
    (hmerged : ∀ overlay, layer = .merged overlay → overlay.distinct = true)
    (hoverride : ∀ segments value, layer = .override segments value → segments ≠ []) :
    (layer.apply root).setting path =
      if layer.decides path then layer.setting path else root.setting path := by
  cases layer with
  | merged overlay => exact setting_merge path (hmerged overlay rfl) root
  | override segments value =>
    exact setting_set_segments value path segments (hoverride segments value rfl) root

/-- Whatever the user's file, the managed layers and the overrides of the command line hold: a setting
of the configuration is that of the last of them that decides its path. -/
theorem setting_of_last_layer (sources : ConfigSources V)
    (hdistinct : ∀ overlay ∈ sources.legacy, overlay.distinct = true) (path : List Text) :
    (load_root sources.layers sources.cli_overrides).setting path =
      match sources.over_base.reverse.find? (Layer.decides path) with
      | some layer => layer.setting path
      | none => sources.layers.base.setting path := by
  rw [load_root_eq]
  have hlayers : ∀ layer ∈ sources.over_base,
      (∀ overlay, layer = .merged overlay → overlay.distinct = true) ∧
        ∀ segments value, layer = .override segments value → segments ≠ [] := by
    intro layer hlayer
    rcases List.mem_append.mp hlayer with hlayer | hlayer
    · obtain ⟨overlay, hoverlay, rfl⟩ := List.mem_map.mp hlayer
      refine ⟨fun o ho => ?_, fun _ _ => (nomatch ·)⟩
      rw [← Layer.merged.inj ho]
      exact hdistinct overlay hoverlay
    · obtain ⟨o, -, rfl⟩ := List.mem_map.mp hlayer
      refine ⟨fun _ => (nomatch ·), fun segments value h => ?_⟩
      rw [← (Layer.override.inj h).1]
      exact Text.split_ne_nil _ _
  generalize sources.over_base = layers at hlayers
  induction layers using List.reverseRecOn with
  | nil => rfl
  | append_singleton layers layer ih =>
    obtain ⟨hearlier, hlast⟩ := List.forall_mem_append.mp hlayers
    obtain ⟨hmerged, hoverride⟩ := hlast layer List.mem_cons_self
    rw [List.foldl_append, List.foldl_cons, List.foldl_nil,
      layer.setting_apply path _ hmerged hoverride, List.reverse_append, List.reverse_singleton,
      List.singleton_append, List.find?_cons]
    cases layer.decides path with
    | true => rfl
    | false => exact ih hearlier

/-- A user's theme, which a managed file sets, and an override of another setting. -/
def themed : ConfigSources Nat where
  layers := {
    base := .Table [("tui".toList, .Table [("theme".toList, .Other 1)])]
    managed_config := some (.Table [("tui".toList, .Table [("theme".toList, .Other 2)])])
    managed_preferences := none }
  cli_overrides := [("tui.width".toList, .Other 3)]
  requirements_toml := none

theorem themed_by_managed :
    (load_root themed.layers themed.cli_overrides).setting ["tui".toList, "theme".toList] =
      some 2 :=
  (setting_of_last_layer themed (by decide) _).trans (by decide)

/-! ## The approval policy -/

namespace Constrained

variable {T : Type}

theorem new_ok {initial_value : T} {validator : T → Except (ConstraintError T) Unit}
    {c : Constrained T} (h : new initial_value validator = .ok c) : c.validator = validator := by
  unfold new at h
  split at h
  · rw [← Except.ok.inj h]
  · exact nomatch h

theorem new_of_valid {initial_value : T} {validator : T → Except (ConstraintError T) Unit}
    (h : validator initial_value = .ok ()) :
    new initial_value validator = .ok ⟨initial_value, validator, h⟩ := by
  unfold new
  split
  · rfl
  · next e he => exact nomatch (h.symm.trans he)

theorem set_ok_iff (c : Constrained T) (value v : T) :
    ((∃ c', c.set value = .ok c' ∧ c'.value = v)) ↔ value = v ∧ c.can_set value = .ok () := by
  unfold set can_set
  constructor
  · rintro ⟨c', h, rfl⟩
    split at h
    · next hvalid =>
      rw [← Except.ok.inj h]
      exact ⟨rfl, hvalid⟩
    · exact nomatch h
  · rintro ⟨rfl, hvalid⟩
    split
    · exact ⟨_, rfl, rfl⟩
    · next e he => exact nomatch (hvalid.symm.trans he)

end Constrained

/-- The policies that the requirements file allows. -/
def Allowed (requirements_toml : Option ConfigRequirementsToml) (policy : AskForApproval) : Prop :=
  ∀ toml policies, requirements_toml = some toml → toml.allowed_approval_policies = some policies →
    policy ∈ policies

theorem allow_values_ok {initial_value : AskForApproval} {allowed : List AskForApproval}
    {c : Constrained AskForApproval} (h : Constrained.allow_values initial_value allowed = .ok c)
    (policy : AskForApproval) : c.can_set policy = .ok () ↔ policy ∈ allowed := by
  unfold Constrained.can_set
  rw [Constrained.new_ok h]
  by_cases hmem : policy ∈ allowed <;> simp [hmem]

theorem allow_values_of_mem {initial_value : AskForApproval} {allowed : List AskForApproval}
    (h : initial_value ∈ allowed) : ∃ c, Constrained.allow_values initial_value allowed = .ok c := by
  let validator : AskForApproval → Except (ConstraintError AskForApproval) Unit := fun candidate =>
    if candidate ∈ allowed then .ok () else .error (.invalid_value_of candidate allowed)
  have hvalid : validator initial_value = .ok () := if_pos h
  exact ⟨_, Constrained.new_of_valid hvalid⟩

/-- The requirements of a file are there unless its list is empty, and they allow what it lists. -/
theorem try_from_spec (toml : ConfigRequirementsToml) :
    (toml.allowed_approval_policies = some [] ∨
      ∃ requirements, ConfigRequirements.try_from toml = .ok requirements) ∧
    ∀ requirements, ConfigRequirements.try_from toml = .ok requirements → ∀ policy,
      requirements.approval_policy.can_set policy = .ok () ↔ Allowed (some toml) policy := by
  unfold ConfigRequirements.try_from Allowed
  rcases hlist : toml.allowed_approval_policies with _ | policies
  · refine ⟨.inr ⟨_, rfl⟩, fun requirements h policy => ?_⟩
    obtain rfl := Except.ok.inj h
    refine iff_of_true rfl fun t ps ht hps => ?_
    obtain rfl := Option.some.inj ht
    rw [hlist] at hps
    exact nomatch hps
  · have hallowed : ∀ policy, policy ∈ policies ↔ ∀ t ps, some toml = some t →
        t.allowed_approval_policies = some ps → policy ∈ ps := by
      intro policy
      constructor
      · intro h t ps ht hps
        obtain rfl := Option.some.inj ht
        rw [hlist] at hps
        rw [← Option.some.inj hps]
        exact h
      · exact fun h => h toml policies rfl hlist
    have hvalues : ∀ initial_value requirements,
        (Constrained.allow_values initial_value policies).map ConfigRequirements.mk =
          .ok requirements → ∀ policy,
        (requirements.approval_policy.can_set policy = .ok () ↔ policy ∈ policies) := by
      intro initial_value requirements h policy
      rcases hc : Constrained.allow_values initial_value policies with e | c
      · rw [hc] at h
        exact nomatch h
      · rw [hc] at h
        obtain rfl := Except.ok.inj h
        exact allow_values_ok hc policy
    dsimp only
    split_ifs with hdefault
    · obtain ⟨c, hc⟩ := allow_values_of_mem hdefault
      exact ⟨.inr ⟨⟨c⟩, by rw [hc]; rfl⟩, fun requirements h policy =>
        (hvalues _ _ h policy).trans (hallowed policy)⟩
    · cases policies with
      | nil => exact ⟨.inl rfl, fun requirements h => nomatch h⟩
      | cons first rest =>
        obtain ⟨c, hc⟩ := allow_values_of_mem (List.mem_cons_self (a := first) (l := rest))
        exact ⟨.inr ⟨⟨c⟩, by dsimp only; rw [hc]; rfl⟩, fun requirements h policy =>
          (hvalues _ _ h policy).trans (hallowed policy)⟩

variable {E : Type}

/-- The policy that a managed layer asks for, if one does. -/
def Managed (read_legacy : TomlValue V → Except E (Option AskForApproval))
    (legacy : List (TomlValue V)) (policy : AskForApproval) : Prop :=
  ∃ managed, legacy_approval_policy read_legacy legacy = .ok managed ∧
    ∀ m, managed = some m → policy = m

/-- A policy can be set where the requirements allow it and no managed layer asks for another. -/
theorem load_config_requirements_spec
    (read_legacy : TomlValue V → Except E (Option AskForApproval))
    (requirements_toml : Option ConfigRequirementsToml) (legacy : List (TomlValue V))
    (policy : AskForApproval) :
    (∃ requirements, load_config_requirements read_legacy requirements_toml legacy =
        .ok requirements ∧ requirements.approval_policy.can_set policy = .ok ()) ↔
      Allowed requirements_toml policy ∧ Managed read_legacy legacy policy := by
  have hlegacy : ∀ requirements,
      (∀ p, requirements.approval_policy.can_set p = .ok () ↔ Allowed requirements_toml p) →
      ((∃ r, apply_legacy read_legacy legacy requirements = .ok r ∧
        r.approval_policy.can_set policy = .ok ()) ↔
        Allowed requirements_toml policy ∧ Managed read_legacy legacy policy) := by
    intro requirements hrequirements
    unfold apply_legacy Managed
    rcases legacy_approval_policy read_legacy legacy with e | _ | managed
    · simp
    · simpa using hrequirements policy
    · dsimp only
      have honly : (Constrained.allow_only managed).can_set policy = .ok () ↔ policy = managed := by
        unfold Constrained.can_set Constrained.allow_only
        by_cases hp : policy = managed <;> simp [hp]
      have hmanaged := hrequirements managed
      rcases hcan : requirements.approval_policy.can_set managed with e | _
      · rw [hcan] at hmanaged
        have hnot : ¬Allowed requirements_toml managed := fun h => nomatch hmanaged.mpr h
        constructor
        · rintro ⟨r, hr, -⟩
          exact nomatch hr
        · rintro ⟨hallowed, _, hm, hp⟩
          obtain rfl := Except.ok.inj hm
          rw [hp managed rfl] at hallowed
          exact absurd hallowed hnot
      · have hallowed := hmanaged.mp hcan
        constructor
        · rintro ⟨r, hr, hset⟩
          obtain rfl := Except.ok.inj hr
          have hp := honly.mp hset
          refine ⟨hp ▸ hallowed, some managed, rfl, fun m hm => ?_⟩
          rw [← Option.some.inj hm]
          exact hp
        · rintro ⟨-, _, hm, hp⟩
          obtain rfl := Except.ok.inj hm
          exact ⟨_, rfl, honly.mpr (hp managed rfl)⟩
  unfold load_config_requirements
  cases requirements_toml with
  | none =>
    refine hlegacy .default fun p => ?_
    exact iff_of_true rfl fun _ _ h => nomatch h
  | some toml =>
    obtain ⟨hexists, hspec⟩ := try_from_spec toml
    dsimp only
    rcases htry : ConfigRequirements.try_from toml with e | requirements
    · constructor
      · rintro ⟨r, hr, -⟩
        exact nomatch hr
      · rintro ⟨hallowed, -⟩
        rcases hexists with hempty | ⟨r, hr⟩
        · exact absurd (hallowed toml [] rfl hempty) List.not_mem_nil
        · exact nomatch (htry.symm.trans hr)
    · exact hlegacy requirements (hspec requirements htry)

theorem is_ok_iff {ε : Type} (x : Except ε Unit) : is_ok x = true ↔ x = .ok () := by
  cases x <;> simp [is_ok]

/-- The policies that are offered are those of the four that can be set. -/
theorem mem_allowed_approval_policies (requirements : ConfigRequirements) {policy : AskForApproval}
    (hpolicy : policy ∈ candidates) :
    policy ∈ (allowed_approval_policies requirements).getD candidates ↔
      requirements.approval_policy.can_set policy = .ok () := by
  have hfilter : policy ∈ (candidates.filter fun candidate =>
      is_ok (requirements.approval_policy.can_set candidate)) ↔
      requirements.approval_policy.can_set policy = .ok () := by
    rw [List.mem_filter, is_ok_iff]
    exact and_iff_right hpolicy
  unfold allowed_approval_policies
  dsimp only
  split_ifs with hfour
  · have hsame := (List.filter_sublist (p := fun candidate =>
      is_ok (requirements.approval_policy.can_set candidate)) (l := candidates)).eq_of_length hfour
    rw [hsame] at hfilter
    exact hfilter
  · exact hfilter

theorem load_ok_iff (read_legacy : TomlValue V → Except E (Option AskForApproval))
    (approval_policy : TomlValue V → Except E AskForApproval) (sources : ConfigSources V)
    (policy : AskForApproval) :
    load read_legacy approval_policy sources = .ok policy ↔
      approval_policy (load_root sources.layers sources.cli_overrides) = .ok policy ∧
        Allowed sources.requirements_toml policy ∧
          Managed read_legacy sources.legacy policy := by
  rw [← load_config_requirements_spec]
  unfold load
  rcases approval_policy (load_root sources.layers sources.cli_overrides) with e | p
  · simp [Except.mapError, bind, Except.bind]
  · rcases load_config_requirements read_legacy sources.requirements_toml sources.legacy
      with e | requirements
    · simp [Except.mapError, bind, Except.bind]
    · have hset := requirements.approval_policy.set_ok_iff p policy
      rcases hc : requirements.approval_policy.set p with e | constrained
      · rw [hc] at hset
        have hnot : ¬(p = policy ∧ requirements.approval_policy.can_set p = .ok ()) := by
          intro h
          obtain ⟨c, hc', -⟩ := hset.mpr h
          exact nomatch hc'
        constructor
        · intro h
          simp [Except.mapError, bind, Except.bind, hc] at h
        · rintro ⟨hp, r, hr, hcan⟩
          obtain rfl := Except.ok.inj hp
          obtain rfl := Except.ok.inj hr
          exact absurd ⟨rfl, hcan⟩ hnot
      · rw [hc] at hset
        have hvalue : constrained.value = policy ↔
            p = policy ∧ requirements.approval_policy.can_set p = .ok () := by
          rw [← hset]
          exact ⟨fun h => ⟨constrained, rfl, h⟩, fun ⟨c, hc', h⟩ => Except.ok.inj hc' ▸ h⟩
        have hload : (Except.ok constrained.value : Except (LoadError E) AskForApproval) =
            .ok policy ↔ constrained.value = policy := ⟨Except.ok.inj, congrArg _⟩
        simp only [Except.mapError, bind, Except.bind, hc]
        rw [hload, hvalue]
        constructor
        · rintro ⟨rfl, hcan⟩
          exact ⟨rfl, requirements, rfl, hcan⟩
        · rintro ⟨hp, r, hr, hcan⟩
          obtain rfl := Except.ok.inj hp
          obtain rfl := Except.ok.inj hr
          exact ⟨rfl, hcan⟩

end Ecode.config_loader
