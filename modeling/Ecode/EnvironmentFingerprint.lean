-- The fingerprint of a snapshot (core/src/environment_context.rs): which of its fields the
-- hashed text tells apart.
import Ecode.EnvironmentDelta
import Ecode.JsonText

namespace Ecode.environment

open json Json

/-! ## Texts joined -/

theorem join_eq_intercalate (sep : Text) (ts : List Text) :
    Text.join sep ts = sep.intercalate ts := by
  induction ts with
  | nil => rfl
  | cons t ts ih =>
    cases ts with
    | nil => exact (List.intercalate_singleton).symm
    | cons u ts =>
      rw [List.intercalate_cons_cons, ← ih]
      rfl

/-- Texts without the separator are found again in their join. -/
theorem join_inj {sep : Char} {ts us : List Text} (hts : ∀ t ∈ ts, sep ∉ t)
    (hus : ∀ u ∈ us, sep ∉ u) (ht : ts ≠ []) (hu : us ≠ [])
    (h : Text.join [sep] ts = Text.join [sep] us) : ts = us := by
  have hsplit := congrArg (List.splitOn sep) h
  rw [join_eq_intercalate, join_eq_intercalate] at hsplit
  rwa [List.splitOn_intercalate sep hts ht, List.splitOn_intercalate sep hus hu] at hsplit

namespace EnvironmentContextSnapshot

/-! ## The hashed entries -/

/-- The entries of the fields that are there. -/
def present (keys : List String) (values : List (Option Text)) : List (Text × Text) :=
  (List.zipWith hashed keys values).flatten

theorem present_cons (key : String) (keys : List String) (value : Option Text)
    (values : List (Option Text)) :
    present (key :: keys) (value :: values) = hashed key value ++ present keys values := rfl

theorem key_of_present {keys : List String} {values : List (Option Text)} {e : Text × Text}
    (h : e ∈ present keys values) : ∃ key ∈ keys, e.1 = key.toList := by
  induction keys generalizing values with
  | nil => simp [present] at h
  | cons key keys ih =>
    cases values with
    | nil => simp [present] at h
    | cons value values =>
      rw [present_cons, List.mem_append] at h
      rcases h with h | h
      · unfold hashed at h
        obtain ⟨t, -, rfl⟩ := Option.map_eq_some_iff.mp (Option.mem_toList.mp h)
        exact ⟨key, List.mem_cons_self, rfl⟩
      · obtain ⟨key', hmem, hkey⟩ := ih h
        exact ⟨key', List.mem_cons_of_mem _ hmem, hkey⟩

/-- Under distinct keys the entries tell the values. -/
theorem present_inj {keys : List String} {vs ws : List (Option Text)} (hkeys : keys.Nodup)
    (hvs : vs.length = keys.length) (hws : ws.length = keys.length)
    (h : present keys vs = present keys ws) : vs = ws := by
  induction keys generalizing vs ws with
  | nil => rw [List.length_eq_zero_iff.mp hvs, List.length_eq_zero_iff.mp hws]
  | cons key keys ih =>
    obtain ⟨v, vs, rfl⟩ := List.exists_cons_of_length_eq_add_one hvs
    obtain ⟨w, ws, rfl⟩ := List.exists_cons_of_length_eq_add_one hws
    rw [List.nodup_cons] at hkeys
    -- no later entry has this key
    have hlater : ∀ (us : List (Option Text)) (t : Text),
        (key.toList, t) ∉ present keys us := by
      intro us t hmem
      obtain ⟨key', hkey', heq⟩ := key_of_present hmem
      exact hkeys.1 (String.toList_inj.mp heq ▸ hkey')
    have hrest : v = w → present keys vs = present keys ws → v :: vs = w :: ws := by
      intro hvw hpresent
      rw [hvw, ih hkeys.2 (Nat.succ.inj hvs) (Nat.succ.inj hws) hpresent]
    rw [present_cons, present_cons] at h
    cases v with
    | none =>
      cases w with
      | none => exact hrest rfl h
      | some t =>
        refine absurd ?_ (hlater vs t)
        rw [show present keys vs = _ from h]
        exact List.mem_cons_self
    | some t =>
      cases w with
      | none =>
        refine absurd ?_ (hlater ws t)
        rw [show present keys ws = _ from h.symm]
        exact List.mem_cons_self
      | some u =>
        obtain ⟨heq, htail⟩ := List.cons.inj h
        exact hrest (congrArg some (Prod.mk.inj heq).2) htail

/-- The values that are hashed, in the order of their keys. -/
def hashed_values (s : EnvironmentContextSnapshot) : List (Option Text) :=
  [s.approval_policy.map approval_name, s.cwd, s.git_branch,
    s.network_access.map network_access_name, s.reasoning_effort,
    s.sandbox_mode.map sandbox_mode_name,
    if s.writable_roots = [] then none else some (Text.join ['|'] s.writable_roots)]

/-- The text that is hashed. -/
def hashed_text (s : EnvironmentContextSnapshot) : Text :=
  encode_map (present ["approval_policy", "cwd", "git_branch", "network_access",
    "reasoning_effort", "sandbox_mode", "writable_roots"] s.hashed_values)

theorem fingerprint_eq (sha1_hex : Text → Text) (s : EnvironmentContextSnapshot) :
    s.fingerprint sha1_hex = sha1_hex s.hashed_text := by
  unfold fingerprint hashed_text present hashed_values
  simp

theorem hashed_text_eq_iff (a b : EnvironmentContextSnapshot) :
    a.hashed_text = b.hashed_text ↔ a.hashed_values = b.hashed_values := by
  constructor
  · intro h
    exact present_inj (by decide) rfl rfl (encode_map_injective h)
  · intro h
    unfold hashed_text
    rw [h]

/-! ## Equal fingerprints -/

theorem sandbox_mode_name_injective : Function.Injective sandbox_mode_name := by
  intro a b h
  cases a <;> cases b <;> first | rfl | exact absurd h (by decide)

theorem network_access_name_injective : Function.Injective network_access_name := by
  intro a b h
  cases a <;> cases b <;> first | rfl | exact absurd h (by decide)

/-- Roots without a bar are told apart, none from an empty one too. -/
theorem roots_eq_iff {rs qs : List Text} (hrs : ∀ r ∈ rs, '|' ∉ r) (hqs : ∀ q ∈ qs, '|' ∉ q) :
    (if rs = [] then none else some (Text.join ['|'] rs)) =
      (if qs = [] then none else some (Text.join ['|'] qs)) ↔ rs = qs := by
  constructor
  · intro h
    by_cases hr : rs = []
    · by_cases hq : qs = []
      · rw [hr, hq]
      · rw [if_pos hr, if_neg hq] at h
        exact absurd h.symm (Option.some_ne_none _)
    · by_cases hq : qs = []
      · rw [if_neg hr, if_pos hq] at h
        exact absurd h (Option.some_ne_none _)
      · rw [if_neg hr, if_neg hq] at h
        exact join_inj hrs hqs hr hq (Option.some.inj h)
  · rintro rfl
    rfl

/-- When the hash does not confuse the two texts, and no root has a bar in it, the fingerprints
are equal exactly when these fields are. The system, the shell and the tools do not count, and the
policy counts as it is displayed. -/
theorem fingerprint_eq_iff (sha1_hex : Text → Text) (a b : EnvironmentContextSnapshot)
    (hsha : sha1_hex a.hashed_text = sha1_hex b.hashed_text → a.hashed_text = b.hashed_text)
    (ha : ∀ root ∈ a.writable_roots, '|' ∉ root) (hb : ∀ root ∈ b.writable_roots, '|' ∉ root) :
    a.fingerprint sha1_hex = b.fingerprint sha1_hex ↔
      a.cwd = b.cwd ∧
      a.approval_policy.map approval_name = b.approval_policy.map approval_name ∧
      a.sandbox_mode = b.sandbox_mode ∧ a.network_access = b.network_access ∧
      a.writable_roots = b.writable_roots ∧ a.git_branch = b.git_branch ∧
      a.reasoning_effort = b.reasoning_effort := by
  have htext : a.fingerprint sha1_hex = b.fingerprint sha1_hex ↔ a.hashed_text = b.hashed_text := by
    rw [fingerprint_eq, fingerprint_eq]
    exact ⟨hsha, congrArg sha1_hex⟩
  rw [htext, hashed_text_eq_iff]
  unfold hashed_values
  simp only [List.cons.injEq, and_true, roots_eq_iff ha hb,
    (Option.map_injective sandbox_mode_name_injective).eq_iff,
    (Option.map_injective network_access_name_injective).eq_iff]
  tauto

/-- Two roots, and one whose name is a part of theirs, for a hash that keeps its text. -/
theorem roots_are_told_apart :
    { empty with writable_roots := [['/', 'a'], ['/', 'b']] }.fingerprint id ≠
      { empty with writable_roots := [['/', 'a']] }.fingerprint id := by
  intro h
  have hfields := (fingerprint_eq_iff id { empty with writable_roots := [['/', 'a'], ['/', 'b']] }
    { empty with writable_roots := [['/', 'a']] } id (by decide) (by decide)).mp h
  exact absurd hfields (by decide)

/-- A shell that is detected later does not change the fingerprint. -/
theorem shell_is_not_hashed :
    ¬ ∀ (sha1_hex : Text → Text) (a b : EnvironmentContextSnapshot),
      (sha1_hex a.hashed_text = sha1_hex b.hashed_text → a.hashed_text = b.hashed_text) →
        (a.fingerprint sha1_hex = b.fingerprint sha1_hex ↔
          a.cwd = b.cwd ∧ a.approval_policy = b.approval_policy ∧
          a.sandbox_mode = b.sandbox_mode ∧ a.network_access = b.network_access ∧
          a.writable_roots = b.writable_roots ∧ a.operating_system = b.operating_system ∧
          a.shell = b.shell ∧ a.git_branch = b.git_branch ∧
          a.reasoning_effort = b.reasoning_effort) := by
  intro h
  have hequal := (h id empty { empty with shell := some .Unknown } id).mp rfl
  exact absurd hequal (by decide)

end EnvironmentContextSnapshot

end Ecode.environment
