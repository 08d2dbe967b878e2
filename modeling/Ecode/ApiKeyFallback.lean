-- The fallback to an API key (core/src/account_switching.rs): which accounts it takes for
-- limited, from the switch state and from the usage files that the two recorders of
-- core/src/account_usage.rs write.
import Ecode.AccountSwitching
import Ecode.UsageFile

open Ecode.account_usage Ecode.auth Ecode.calendar

namespace Ecode.account_switching

/-! ## The usage files -/

/-- The record of a usage file. -/
abbrev UsageRecord := AccountUsageData F64

/-- What `list_rate_limit_snapshots` tells the choice of an account about a record. -/
def stored_snapshot (data : UsageRecord) : StoredRateLimitSnapshot :=
  let rate := data.rate_limit.getD {}
  { account_id := data.account_id
    snapshot := rate.snapshot.map (fun s => ⟨s.primary_used_percent, s.secondary_used_percent⟩)
    primary_next_reset_at := rate.primary_next_reset_at
    secondary_next_reset_at := rate.secondary_next_reset_at.or rate.primary_next_reset_at }

/-- `list_rate_limit_snapshots`, for the records of the files that can be read, in the order of
the directory. There are none where the directory cannot be read. -/
def list_rate_limit_snapshots (records : List UsageRecord) : List StoredRateLimitSnapshot :=
  records.map stored_snapshot

/-- The record of an account, as `snapshot_map` finds its snapshot. -/
def record_of (records : List UsageRecord) (account_id : Text) : Option UsageRecord :=
  records.reverse.find? (fun data => data.account_id == account_id)

/-- The record has a reset in the future. -/
def awaits_reset (now : DateTime) (data : UsageRecord) : Bool :=
  is_blocked now (usage_reset_blocked_until (stored_snapshot data))

/-- No snapshot was recorded since the last usage limit. -/
def hit_is_news (data : UsageRecord) : Bool :=
  let info := data.rate_limit.getD {}
  match info.last_usage_limit_hit_at, info.observed_at with
  | none, _ => false
  | some _, none => true
  | some hit, some observed => observed ≤ hit

/-- The account has hit its usage limit, and the reset is in the future. -/
def limit_hit (now : DateTime) (data : UsageRecord) : Bool :=
  hit_is_news data && awaits_reset now data

/-! ## The choice -/

/-- The account whose id `select_next_account_id` returns. -/
def select_next_account (data : AccountsFile) (snapshots : List StoredRateLimitSnapshot)
    (state : RateLimitSwitchState) (allow_api_key_fallback : Bool) (now : DateTime)
    (current_account_id : Option Text) : Option StoredAccount :=
  let current := current_account_id.or data.active_account_id
  let chatgpt_accounts := sort_by_id (data.accounts.filter
    (fun acc => acc.mode.is_chatgpt && account_has_credentials acc))
  let api_key_accounts := sort_by_id (data.accounts.filter
    (fun acc => acc.mode == .ApiKey && account_has_credentials acc))
  match chatgpt_accounts.foldl (consider state snapshots now current) none with
  | some (account, _) => some account
  | none =>
    if !allow_api_key_fallback then none
    else if !chatgpt_accounts.isEmpty &&
        !chatgpt_accounts.all (unavailable state snapshots now) then none
    else api_key_accounts.find? (fun account => !passed_over state current account)

theorem select_next_account_id_eq (data : AccountsFile) (snapshots : List StoredRateLimitSnapshot)
    (state : RateLimitSwitchState) (allow : Bool) (now : DateTime) (current : Option Text) :
    select_next_account_id data snapshots state allow now current =
      (select_next_account data snapshots state allow now current).map StoredAccount.id := by
  unfold select_next_account_id select_next_account
  dsimp only
  generalize List.foldl (consider state snapshots now (current.or data.active_account_id)) none
    (sort_by_id (data.accounts.filter
      (fun acc => acc.mode.is_chatgpt && account_has_credentials acc))) = best
  rcases best with _ | ⟨account, score⟩
  · dsimp only
    split_ifs
    · rfl
    · rfl
    · rfl
  · rfl

section fallback

variable (records : List UsageRecord) (state : RateLimitSwitchState) (now : DateTime)

/-- The account was tried and marked as limited, or is known to have hit its usage limit and to
wait for the reset: `mark_limited` put the reset in the switch state, or the usage file has it. -/
def known_limited (account : StoredAccount) : Bool :=
  (state.has_tried account.id && state.limited_chatgpt_accounts.contains account.id) ||
    is_blocked now (state.blocked_until account.id) ||
      (record_of records account.id).any (limit_hit now)

/-- The account is only held back by the window of a snapshot, which every snapshot has. -/
def held_by_snapshot (account : StoredAccount) : Bool :=
  (record_of records account.id).any (awaits_reset now) &&
    !known_limited records state now account

/-- An API key is the last resort: where one is chosen, every ChatGPT account is limited. -/
def LastResort (data : AccountsFile) (allow : Bool) (current : Option Text) : Prop :=
  ∀ chosen, select_next_account data (list_rate_limit_snapshots records) state allow now current =
      some chosen → chosen.mode = .ApiKey →
    ∀ account ∈ data.accounts, account.mode.is_chatgpt = true →
      account_has_credentials account = true → known_limited records state now account = true

/-- The fallback is off, or a ChatGPT account is available, or there is no API key to turn to, or no
ChatGPT account is only held back by the window of a snapshot. -/
def NoneHeldBySnapshot (data : AccountsFile) (allow : Bool) (current : Option Text) : Prop :=
  allow = false ∨
  (∃ account ∈ data.accounts, account.mode.is_chatgpt = true ∧
    account_has_credentials account = true ∧
    unavailable state (list_rate_limit_snapshots records) now account = false) ∨
  (∀ account ∈ data.accounts, account.mode = .ApiKey → account_has_credentials account = true →
    passed_over state (current.or data.active_account_id) account = true) ∨
  ∀ account ∈ data.accounts, account.mode.is_chatgpt = true →
    account_has_credentials account = true → held_by_snapshot records state now account = false

end fallback

/-! ## What is blocked -/

theorem is_blocked_latest (now : DateTime) (a b : Option DateTime) :
    is_blocked now (RateLimitSwitchState.latest a b) = (is_blocked now a || is_blocked now b) := by
  cases a with
  | none => cases b <;> simp [RateLimitSwitchState.latest, is_blocked]
  | some a =>
    cases b with
    | none => simp [RateLimitSwitchState.latest, is_blocked]
    | some b =>
      rw [Bool.eq_iff_iff]
      unfold RateLimitSwitchState.latest is_blocked
      simp only [Bool.or_eq_true, decide_eq_true_eq]
      split_ifs with hle
      · exact ⟨.inr, fun h => h.elim (fun ha => lt_of_lt_of_le ha hle) id⟩
      · exact ⟨.inl, fun h => h.elim id (fun hb => hb.trans (lt_of_not_ge hle))⟩

theorem snapshot_map_list (records : List UsageRecord) (account_id : Text) :
    snapshot_map (list_rate_limit_snapshots records) account_id =
      (record_of records account_id).map stored_snapshot := by
  unfold snapshot_map list_rate_limit_snapshots record_of
  rw [← List.map_reverse, List.find?_map]
  rfl

/-- An account is blocked by the switch state or by the resets of its record. -/
theorem blocked_eq (records : List UsageRecord) (state : RateLimitSwitchState) (now : DateTime)
    (account : StoredAccount) :
    blocked state (list_rate_limit_snapshots records) now account =
      (is_blocked now (state.blocked_until account.id) ||
        (record_of records account.id).any (awaits_reset now)) := by
  unfold blocked
  rw [is_blocked_latest, snapshot_map_list]
  cases record_of records account.id <;> rfl

/-- What the code takes for unavailable is limited, or held back by a snapshot. -/
theorem unavailable_eq (records : List UsageRecord) (state : RateLimitSwitchState) (now : DateTime)
    (account : StoredAccount) :
    unavailable state (list_rate_limit_snapshots records) now account =
      (known_limited records state now account || held_by_snapshot records state now account) := by
  have hhit : (record_of records account.id).any (limit_hit now) = true →
      (record_of records account.id).any (awaits_reset now) = true := by
    cases record_of records account.id with
    | none => simp
    | some data =>
      simp only [Option.any_some, limit_hit, Bool.and_eq_true]
      exact And.right
  have hsplit : ∀ marked until_ reset hit : Bool, (hit = true → reset = true) →
      ((until_ || reset) || marked) =
        ((marked || until_ || hit) || (reset && !(marked || until_ || hit))) := by decide
  unfold unavailable held_by_snapshot known_limited
  rw [blocked_eq]
  exact hsplit _ _ _ _ hhit

/-! ## When an API key is chosen -/

section choice

variable {snapshots : List StoredRateLimitSnapshot} {state : RateLimitSwitchState} {now : DateTime}
  {current : Option Text}

/-- Where no ChatGPT account is available, the loop passes over all of them. -/
theorem consider_none {accounts : List StoredAccount}
    (h : ∀ account ∈ accounts, unavailable state snapshots now account = true) :
    accounts.foldl (consider state snapshots now current) none = none := by
  induction accounts with
  | nil => rfl
  | cons account accounts ih =>
    have hskip : consider state snapshots now current none account = none := by
      have hun := h account List.mem_cons_self
      unfold consider
      by_cases hpassed : passed_over state current account = true
      · rw [if_pos hpassed]
      · have htried : state.has_tried account.id = false := by
          unfold passed_over at hpassed
          simp only [Bool.or_eq_true, not_or] at hpassed
          simpa using hpassed.2
        have hblocked : blocked state snapshots now account = true := by
          simpa [unavailable, htried] using hun
        rw [if_neg hpassed, if_pos hblocked]
    rw [List.foldl_cons, hskip]
    exact ih (fun a ha => h a (List.mem_cons_of_mem account ha))

theorem consider_mem {accounts : List StoredAccount} {a : StoredAccount} {score : F64}
    (h : accounts.foldl (consider state snapshots now current) none = some (a, score)) :
    a ∈ accounts := by
  rcases consider_best h with habs | ⟨hmem, -⟩
  · cases habs
  · exact hmem

theorem api_key_not_chatgpt {mode : AuthMode} (h : mode = .ApiKey) : mode.is_chatgpt = false := by
  rw [h]
  rfl

theorem mem_sorted_filter {accounts : List StoredAccount} {p : StoredAccount → Bool}
    {a : StoredAccount} : a ∈ sort_by_id (accounts.filter p) ↔ a ∈ accounts ∧ p a = true := by
  rw [mem_sort_by_id, List.mem_filter]

/-- Where an API key is chosen, the fallback is on, no ChatGPT account is available, and the key was
left. -/
theorem api_key_chosen {data : AccountsFile} {allow : Bool} {chosen : StoredAccount}
    (h : select_next_account data snapshots state allow now current = some chosen)
    (hmode : chosen.mode = .ApiKey) :
    allow = true ∧
      (∀ account ∈ data.accounts, account.mode.is_chatgpt = true →
        account_has_credentials account = true →
          unavailable state snapshots now account = true) ∧
      chosen ∈ data.accounts ∧ account_has_credentials chosen = true ∧
        passed_over state (current.or data.active_account_id) chosen = false := by
  unfold select_next_account at h
  dsimp only at h
  split at h
  · rename_i a score hbest
    obtain rfl := Option.some.inj h
    have hmem := mem_sorted_filter.mp (consider_mem hbest)
    rw [api_key_not_chatgpt hmode, Bool.false_and] at hmem
    cases hmem.2
  · split_ifs at h with hallow hall
    have hfound := mem_sorted_filter.mp (List.mem_of_find?_eq_some h)
    have hpassed := List.find?_some h
    refine ⟨by simpa using hallow, ?_, hfound.1, ?_, by simpa using hpassed⟩
    · intro a ha hchat hcred
      have hmem : a ∈ sort_by_id (data.accounts.filter
          (fun acc => acc.mode.is_chatgpt && account_has_credentials acc)) :=
        mem_sorted_filter.mpr ⟨ha, by rw [hchat, hcred, Bool.true_and]⟩
      rw [List.isEmpty_eq_false_iff.mpr (List.ne_nil_of_mem hmem)] at hall
      simp only [Bool.not_false, Bool.true_and, Bool.not_eq_true', Bool.not_eq_false] at hall
      exact List.all_eq_true.mp hall a hmem
    · have hkey := hfound.2
      rw [Bool.and_eq_true] at hkey
      exact hkey.2

/-- An API key is chosen just if the fallback is on, no ChatGPT account is available, and an API key
is left. -/
theorem api_key_chosen_iff (data : AccountsFile) (allow : Bool) :
    (∃ chosen, select_next_account data snapshots state allow now current = some chosen ∧
        chosen.mode = .ApiKey) ↔
      allow = true ∧
      (∀ account ∈ data.accounts, account.mode.is_chatgpt = true →
        account_has_credentials account = true →
          unavailable state snapshots now account = true) ∧
      ∃ account ∈ data.accounts, account.mode = .ApiKey ∧ account_has_credentials account = true ∧
        passed_over state (current.or data.active_account_id) account = false := by
  constructor
  · rintro ⟨chosen, hchosen, hmode⟩
    obtain ⟨hallow, hun, hmem, hcred, hpassed⟩ := api_key_chosen hchosen hmode
    exact ⟨hallow, hun, chosen, hmem, hmode, hcred, hpassed⟩
  · rintro ⟨rfl, hun, key, hkey, hmode, hcred, hpassed⟩
    have hall : ∀ a ∈ sort_by_id (data.accounts.filter
        (fun acc => acc.mode.is_chatgpt && account_has_credentials acc)),
        unavailable state snapshots now a = true := by
      intro a ha
      obtain ⟨hstored, hchat⟩ := mem_sorted_filter.mp ha
      rw [Bool.and_eq_true] at hchat
      exact hun a hstored hchat.1 hchat.2
    unfold select_next_account
    dsimp only
    rw [consider_none hall, List.all_eq_true.mpr hall]
    simp only [Bool.not_true, Bool.and_false, Bool.false_eq_true, if_false]
    have hleft : ((sort_by_id (data.accounts.filter
        (fun acc => acc.mode == .ApiKey && account_has_credentials acc))).find? (fun account =>
          !passed_over state (current.or data.active_account_id) account)).isSome := by
      rw [List.find?_isSome]
      exact ⟨key, mem_sorted_filter.mpr ⟨hkey, by simp [hmode, hcred]⟩, by simp [hpassed]⟩
    obtain ⟨chosen, hchosen⟩ := Option.isSome_iff_exists.mp hleft
    have hfound := (mem_sorted_filter.mp (List.mem_of_find?_eq_some hchosen)).2
    rw [Bool.and_eq_true] at hfound
    exact ⟨chosen, hchosen, eq_of_beq hfound.1⟩

end choice

/-! ## What is written -/

/-- A call of `mark_limited`. -/
structure Mark where
  account_id : Text
  mode : AuthMode
  blocked_until : Option DateTime

def Mark.apply (state : RateLimitSwitchState) (m : Mark) : RateLimitSwitchState :=
  state.mark_limited m.account_id m.mode m.blocked_until

theorem mark_keeps_reset (state : RateLimitSwitchState) {m : Mark} {id : Text}
    (hid : id ≠ m.account_id) : (m.apply state).blocked_until id = state.blocked_until id := by
  unfold Mark.apply RateLimitSwitchState.mark_limited
  cases m.blocked_until with
  | none => rfl
  | some until_ => exact Function.update_of_ne hid _ _

/-- A reset in the switch state is that of an account that hit its limit in the turn. -/
theorem reset_is_of_a_marked_account (marks : List Mark) {id : Text} {reset : DateTime}
    (h : (marks.foldl Mark.apply .fresh).blocked_until id = some reset) :
    id ∈ (marks.foldl Mark.apply .fresh).tried_accounts := by
  induction marks using List.reverseRecOn with
  | nil => simp [RateLimitSwitchState.fresh] at h
  | append_singleton marks m ih =>
    rw [List.foldl_append, List.foldl_cons, List.foldl_nil] at h ⊢
    apply mem_tried_mark.mpr
    by_cases hid : id = m.account_id
    · exact .inl hid
    · rw [mark_keeps_reset _ hid] at h
      exact .inr (ih h)

theorem awaits_reset_iff {now : DateTime} {data : UsageRecord} :
    awaits_reset now data = true ↔
      ∃ reset, now < reset ∧ ((data.rate_limit.getD {}).primary_next_reset_at = some reset ∨
        (data.rate_limit.getD {}).secondary_next_reset_at = some reset) := by
  unfold awaits_reset usage_reset_blocked_until stored_snapshot
  rw [is_blocked_latest]
  dsimp only
  cases (data.rate_limit.getD {}).primary_next_reset_at with
  | none => cases (data.rate_limit.getD {}).secondary_next_reset_at <;> simp [is_blocked]
  | some p =>
    cases (data.rate_limit.getD {}).secondary_next_reset_at with
    | none => simp [is_blocked]
    | some s => simp [is_blocked, and_or_left, exists_or]

/-- A hint with a reset limits the account until then, as long as no snapshot is newer. -/
theorem hint_limits (data : UsageRecord) (plan : Option Text) (seconds : Nat)
    {observed_at now : DateTime}
    (hobserved : ∀ t, (data.rate_limit.getD {}).observed_at = some t → t ≤ observed_at) :
    limit_hit now ((record_usage_limit_hint_call plan (some seconds) observed_at).update data) =
      decide (now < account_usage.after_seconds observed_at seconds) := by
  rw [Bool.eq_iff_iff]
  unfold limit_hit
  rw [Bool.and_eq_true, awaits_reset_iff, decide_eq_true_eq]
  simp only [record_usage_limit_hint_call, hit_is_news, Option.getD_some, Option.some.injEq,
    or_self, exists_eq_right']
  apply and_iff_right
  cases hold : (data.rate_limit.getD {}).observed_at with
  | none => rfl
  | some t => exact decide_eq_true (hobserved t hold)

/-- A snapshot that is newer than the last usage limit does not limit the account, whatever its
window. -/
theorem snapshot_limits_nothing (data : UsageRecord) (plan : Option Text)
    (snapshot : account_usage.RateLimitSnapshotEvent F64) {observed_at : DateTime} (now : DateTime)
    (hhit : ∀ t, (data.rate_limit.getD {}).last_usage_limit_hit_at = some t → t < observed_at) :
    limit_hit now ((record_rate_limit_snapshot_call plan snapshot observed_at).update data) =
      false := by
  have hnews : hit_is_news
      ((record_rate_limit_snapshot_call plan snapshot observed_at).update data) = false := by
    simp only [record_rate_limit_snapshot_call, hit_is_news, Option.getD_some]
    cases hold : (data.rate_limit.getD {}).last_usage_limit_hit_at with
    | none => rfl
    | some t => exact decide_eq_false (not_le_of_gt (hhit t hold))
  rw [limit_hit, hnews, Bool.false_and]

/-! ## The last resort -/

/-- An API key is the last resort just where no ChatGPT account that is only held back by the window
of a snapshot lets the fallback through. -/
theorem api_key_last_resort_iff (data : AccountsFile) (records : List UsageRecord)
    (state : RateLimitSwitchState) (allow : Bool) (now : DateTime) (current : Option Text) :
    LastResort records state now data allow current ↔
      NoneHeldBySnapshot records state now data allow current := by
  have hchosen :=
    @api_key_chosen_iff (list_rate_limit_snapshots records) state now current data allow
  unfold LastResort NoneHeldBySnapshot
  constructor
  · intro hlast
    by_cases hallow : allow = true
    · right
      by_cases hun : ∀ account ∈ data.accounts, account.mode.is_chatgpt = true →
          account_has_credentials account = true →
            unavailable state (list_rate_limit_snapshots records) now account = true
      · right
        by_cases hkey : ∃ account ∈ data.accounts, account.mode = .ApiKey ∧
            account_has_credentials account = true ∧
              passed_over state (current.or data.active_account_id) account = false
        · right
          obtain ⟨chosen, hsel, hmode⟩ := hchosen.mpr ⟨hallow, hun, hkey⟩
          intro account hmem hchat hcred
          unfold held_by_snapshot
          rw [hlast chosen hsel hmode account hmem hchat hcred, Bool.not_true, Bool.and_false]
        · left
          intro account hmem hmode hcred
          by_contra hpassed
          exact hkey ⟨account, hmem, hmode, hcred, by simpa using hpassed⟩
      · left
        push Not at hun
        obtain ⟨account, hmem, hchat, hcred, havailable⟩ := hun
        exact ⟨account, hmem, hchat, hcred, by simpa using havailable⟩
    · left
      simpa using hallow
  · intro hcondition chosen hsel hmode account hmem hchat hcred
    obtain ⟨hallow, hun, key, hkey, hkey_mode, hkey_cred, hpassed⟩ :=
      hchosen.mp ⟨chosen, hsel, hmode⟩
    rcases hcondition with hoff | ⟨other, hother, hother_chat, hother_cred, hopen⟩ | hkeys | hheld
    · rw [hallow] at hoff
      cases hoff
    · rw [hun other hother hother_chat hother_cred] at hopen
      cases hopen
    · rw [hkeys key hkey hkey_mode hkey_cred] at hpassed
      cases hpassed
    · have hblocked := hun account hmem hchat hcred
      rw [unavailable_eq, hheld account hmem hchat hcred, Bool.or_false] at hblocked
      exact hblocked

/-- A ChatGPT account under the id of its tokens. -/
def subscription (id : Text) : StoredAccount where
  id := id
  mode := .Chatgpt
  openai_api_key := none
  tokens := some (Turn.chatgpt_tokens id)

/-- Two subscriptions and an API key, where the first subscription is active. -/
def two_subscriptions_and_a_key : AccountsFile where
  active_account_id := some ['a']
  accounts := [subscription ['a'], subscription ['b'], ⟨['k'], .ApiKey, some ['s', 'k'], none⟩]

/-- The record of the second subscription after a snapshot with a tenth of the window used. -/
def tenth_used : UsageRecord :=
  (record_rate_limit_snapshot_call none
    ⟨.Finite 10, .Finite 10, .Finite 100, 300, 10080, some 3600, some 3600⟩ 0).apply
      (.new ['b'] 0)

/-- The first subscription is limited and the second has used a tenth of its window, and the API key
is chosen. -/
theorem api_key_is_chosen_over_a_subscription :
    ¬ ∀ (data : AccountsFile) (records : List UsageRecord) (state : RateLimitSwitchState)
      (allow : Bool) (now : DateTime) (current : Option Text),
      LastResort records state now data allow current := by
  intro hall
  have hlast := hall two_subscriptions_and_a_key [tenth_used]
    (RateLimitSwitchState.fresh.mark_limited ['a'] .Chatgpt none) true (60 * SECOND) (some ['a'])
    ⟨['k'], .ApiKey, some ['s', 'k'], none⟩ (by decide +kernel) rfl (subscription ['b'])
    (by decide +kernel) (by decide +kernel) (by decide +kernel)
  revert hlast
  decide +kernel

end Ecode.account_switching
