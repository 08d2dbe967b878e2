-- Switching accounts on a usage limit (core/src/account_switching.rs, and the
-- usage limit branch of `run_turn` in core/src/codex/streaming.rs): the choice
-- of the next account, the accounts that a turn has tried, and the turn over any
-- number of usage limit errors.
import Ecode.Calendar
import Ecode.Runs
import Ecode.StoredAccounts

open Ecode.auth Ecode.calendar Ecode.runs

namespace Ecode.account_switching

/-! ## Percentages -/

/-- An `f64` that is only compared: no two values are added or rounded here. -/
inductive F64 where
  | NaN
  | NegInf
  | Finite (q : ℚ)
  | Inf
  deriving DecidableEq, Repr

namespace F64

def lt : F64 → F64 → Bool
  | .NaN, _ | _, .NaN => false
  | .NegInf, .NegInf => false
  | .NegInf, _ => true
  | _, .NegInf => false
  | .Inf, _ => false
  | _, .Inf => true
  | .Finite p, .Finite q => p < q

/-- `f64::max`: the other value when one is not a number. -/
def max : F64 → F64 → F64
  | .NaN, b => b
  | a, .NaN => a
  | a, b => if lt a b then b else a

def is_finite : F64 → Bool
  | .Finite _ => true
  | _ => false

end F64

/-! ## What a turn knows of the limits -/

structure RateLimitSwitchState where
  tried_accounts : List Text
  limited_chatgpt_accounts : List Text
  blocked_until : Text → Option DateTime

namespace RateLimitSwitchState

/-- `RateLimitSwitchState::default`. -/
def fresh : RateLimitSwitchState where
  tried_accounts := []
  limited_chatgpt_accounts := []
  blocked_until := fun _ => none

/-- `a.into_iter().chain(b).max()`. -/
def latest : Option DateTime → Option DateTime → Option DateTime
  | some a, some b => some (if a ≤ b then b else a)
  | some a, none => some a
  | none, b => b

def mark_limited (s : RateLimitSwitchState) (account_id : Text) (mode : AuthMode)
    (blocked_until : Option DateTime) : RateLimitSwitchState where
  tried_accounts := s.tried_accounts.insert account_id
  limited_chatgpt_accounts :=
    if mode.is_chatgpt then s.limited_chatgpt_accounts.insert account_id
    else s.limited_chatgpt_accounts
  blocked_until :=
    match blocked_until with
    | none => s.blocked_until
    | some until_ =>
      Function.update s.blocked_until account_id
        (some (match s.blocked_until account_id with
          | none => until_
          | some existing => if existing < until_ then until_ else existing))

def has_tried (s : RateLimitSwitchState) (account_id : Text) : Bool :=
  s.tried_accounts.contains account_id

end RateLimitSwitchState

structure RateLimitSnapshotEvent where
  primary_used_percent : F64
  secondary_used_percent : F64
  deriving DecidableEq, Repr

structure StoredRateLimitSnapshot where
  account_id : Text
  snapshot : Option RateLimitSnapshotEvent
  primary_next_reset_at : Option DateTime
  secondary_next_reset_at : Option DateTime
  deriving DecidableEq, Repr

def usage_reset_blocked_until (snapshot : StoredRateLimitSnapshot) : Option DateTime :=
  RateLimitSwitchState.latest snapshot.primary_next_reset_at snapshot.secondary_next_reset_at

def usage_used_percent (snapshot : StoredRateLimitSnapshot) : Option F64 :=
  snapshot.snapshot.bind (fun s =>
    let used := F64.max s.primary_used_percent s.secondary_used_percent
    if used.is_finite then some used else none)

def is_blocked (now : DateTime) (blocked_until : Option DateTime) : Bool :=
  match blocked_until with
  | none => false
  | some until_ => now < until_

/-! ## The next account -/

def account_has_credentials (account : StoredAccount) : Bool :=
  match account.mode with
  | .Chatgpt | .ChatgptAuthTokens => account.tokens.isSome
  | .ApiKey => account.openai_api_key.isSome
  | .Headers => false

/-- The snapshot of an account: of two for one account the map keeps the later. -/
def snapshot_map (snapshots : List StoredRateLimitSnapshot) (account_id : Text) :
    Option StoredRateLimitSnapshot :=
  snapshots.reverse.find? (fun snap => snap.account_id == account_id)

/-- Accounts in the order of their ids. -/
def sort_by_id (accounts : List StoredAccount) : List StoredAccount :=
  accounts.insertionSort (fun a b => a.id ≤ b.id)

section select

variable (state : RateLimitSwitchState) (snapshots : List StoredRateLimitSnapshot)
  (now : DateTime) (current : Option Text)

/-- The account is the current one, or was tried. -/
def passed_over (account : StoredAccount) : Bool :=
  current == some account.id || state.has_tried account.id

/-- The account waits for a reset. -/
def blocked (account : StoredAccount) : Bool :=
  is_blocked now (RateLimitSwitchState.latest (state.blocked_until account.id)
    ((snapshot_map snapshots account.id).bind usage_reset_blocked_until))

def used_percent (account : StoredAccount) : F64 :=
  ((snapshot_map snapshots account.id).bind usage_used_percent).getD (.Finite 0)

/-- One turn of the loop over the ChatGPT accounts. -/
def consider (best : Option (StoredAccount × F64)) (account : StoredAccount) :
    Option (StoredAccount × F64) :=
  if passed_over state current account then best
  else if blocked state snapshots now account then best
  else
    let score := used_percent snapshots account
    match best with
    | none => some (account, score)
    | some (best_account, best_score) =>
      if score.lt best_score then some (account, score) else some (best_account, best_score)

/-- `all_chatgpt_unavailable`, of one account. -/
def unavailable (account : StoredAccount) : Bool :=
  blocked state snapshots now account ||
    (state.has_tried account.id && state.limited_chatgpt_accounts.contains account.id)

end select

def select_next_account_id (data : AccountsFile) (snapshots : List StoredRateLimitSnapshot)
    (state : RateLimitSwitchState) (allow_api_key_fallback : Bool) (now : DateTime)
    (current_account_id : Option Text) : Option Text :=
  let current := current_account_id.or data.active_account_id
  let chatgpt_accounts := sort_by_id (data.accounts.filter
    (fun acc => acc.mode.is_chatgpt && account_has_credentials acc))
  let api_key_accounts := sort_by_id (data.accounts.filter
    (fun acc => acc.mode == .ApiKey && account_has_credentials acc))
  match chatgpt_accounts.foldl (consider state snapshots now current) none with
  | some (account, _) => some account.id
  | none =>
    if !allow_api_key_fallback then none
    else if !chatgpt_accounts.isEmpty &&
        !chatgpt_accounts.all (unavailable state snapshots now) then none
    else (api_key_accounts.find? (fun account => !passed_over state current account)).map
      StoredAccount.id

/-- The file operations of one usage limit error that the operating system lets through. -/
structure TurnDisk where
  get_active_account_id : Bool
  list_accounts : Bool
  activate : Disk
  load_auth : Bool
  deriving DecidableEq, Repr

def switch_active_account_on_rate_limit (home : CodeHome)
    (snapshots : List StoredRateLimitSnapshot) (disk : TurnDisk) (state : RateLimitSwitchState)
    (allow_api_key_fallback : Bool) (now : DateTime) (current_account_id : Text)
    (current_mode : AuthMode) (blocked_until : Option DateTime) :
    CodeHome × RateLimitSwitchState × Except IoError (Option Text) :=
  let state := state.mark_limited current_account_id current_mode blocked_until
  if disk.list_accounts then
    match select_next_account_id home.accounts snapshots state allow_api_key_fallback now
        (some current_account_id) with
    | none => (home, state, .ok none)
    | some next_account_id =>
      match activate_account home disk.activate next_account_id with
      | (home, .ok ()) => (home, state, .ok (some next_account_id))
      | (home, .error e) => (home, state, .error e)
  else (home, state, .error .Os)

/-! ## The turn -/

/-- The settings of the session that the usage limit branch reads. -/
structure Settings where
  auto_switch_accounts_on_rate_limit : Bool
  api_key_fallback_on_all_accounts_limited : Bool
  has_auth_manager : Bool
  preferred_auth_mode : AuthMode
  code_api_key_env : Option Text
  openai_api_key_env : Option Text
  deriving DecidableEq, Repr

/-- A switch: the id of the account that was active when the error arrived, and the id of the one
that was activated. -/
structure Switch where
  left : Option Text
  activated : Text
  deriving DecidableEq, Repr

structure Turn where
  home : CodeHome
  /-- The credentials in the auth manager. -/
  auth : Option CodexAuth
  rate_limit_switch_state : RateLimitSwitchState
  /-- The switches of the turn so far. -/
  switches : List Switch

/-- A usage limit error, with what the branch finds on the disk at that time. -/
structure UsageLimit where
  now : DateTime
  resets_in_seconds : Option Nat
  snapshots : List StoredRateLimitSnapshot
  disk : TurnDisk

/-- `n as i64` for a `u64`. -/
def as_i64 (n : Nat) : Int := if n < 2 ^ 63 then n else (n : Int) - 2 ^ 64

/-- `now + Duration::seconds(seconds)`. There is none where the duration or the sum leaves the
range of its type: there the call panics. -/
def after_seconds (now : DateTime) (seconds : Int) : Option DateTime :=
  if seconds.natAbs ≤ 9223372036854775 ∧ DAY * from_ymd ⟨-262143, 1, 1⟩ ≤ now + seconds * SECOND ∧
      now + seconds * SECOND < DAY * from_ymd ⟨262143, 1, 1⟩ then
    some (now + seconds * SECOND)
  else none

/-- `blocked_until` of the branch, where it does not panic. -/
def UsageLimit.blocked_until (e : UsageLimit) : Option (Option DateTime) :=
  match e.resets_in_seconds with
  | none => some none
  | some seconds => (after_seconds e.now (as_i64 seconds)).map some

namespace Turn

/-- The account id inside the token data of the cached credentials. -/
def token_account_id (t : Turn) : Option Text := t.auth.bind CodexAuth.get_account_id

/-- The id that `run_turn` takes for the current account. -/
def current_account_id (t : Turn) (disk : TurnDisk) : Option Text :=
  t.token_account_id.or
    (if disk.get_active_account_id then t.home.accounts.active_account_id else none)

/-- `AuthManager::reload`, without an API key of the program in the environment. -/
def reload (cfg : Settings) (disk : TurnDisk) (home : CodeHome) : Option CodexAuth :=
  if disk.load_auth then
    match load_auth home.auth_json cfg.openai_api_key_env cfg.preferred_auth_mode with
    | .ok auth => auth
    | .error _ => none
  else none

/-- The usage limit branch of `run_turn`. There is no turn after a panic. -/
def on_usage_limit (cfg : Settings) (t : Turn) (e : UsageLimit) : Option Turn :=
  if cfg.auto_switch_accounts_on_rate_limit && cfg.code_api_key_env.isNone &&
      cfg.has_auth_manager then
    match t.current_account_id e.disk with
    | none => some t
    | some current_account_id =>
      e.blocked_until.map (fun blocked_until =>
        match switch_active_account_on_rate_limit t.home e.snapshots e.disk
            t.rate_limit_switch_state cfg.api_key_fallback_on_all_accounts_limited e.now
            current_account_id ((t.auth.map CodexAuth.mode).getD .ApiKey) blocked_until with
        | (home, state, .ok (some next_account_id)) =>
          { home := home, auth := reload cfg e.disk home, rate_limit_switch_state := state
            switches := t.switches ++
              [{ left := t.home.accounts.active_account_id, activated := next_account_id }] }
        | (home, state, _) => { t with home := home, rate_limit_switch_state := state })
  else some t

end Turn

/-! ## What is selected -/

section select

variable {state : RateLimitSwitchState} {snapshots : List StoredRateLimitSnapshot}
  {now : DateTime} {current : Option Text}

theorem mem_sort_by_id {accounts : List StoredAccount} {a : StoredAccount} :
    a ∈ sort_by_id accounts ↔ a ∈ accounts := by
  unfold sort_by_id
  exact List.mem_insertionSort _

/-- The best account is one that the loop has seen and not passed over. -/
theorem consider_best {accounts : List StoredAccount} {best : Option (StoredAccount × F64)}
    {a : StoredAccount} {score : F64}
    (h : accounts.foldl (consider state snapshots now current) best = some (a, score)) :
    best = some (a, score) ∨ (a ∈ accounts ∧ passed_over state current a = false) := by
  induction accounts generalizing best with
  | nil => exact .inl h
  | cons account accounts ih =>
    rw [List.foldl_cons] at h
    rcases ih h with hbest | ⟨hmem, hpassed⟩
    · unfold consider at hbest
      by_cases hp : passed_over state current account
      · simp only [hp, if_true] at hbest
        exact .inl hbest
      · rw [if_neg hp] at hbest
        by_cases hb : blocked state snapshots now account
        · rw [if_pos hb] at hbest
          exact .inl hbest
        · rw [if_neg hb] at hbest
          -- the account of this turn is the best, or the best stays
          have hnew : a = account →
              a ∈ account :: accounts ∧ passed_over state current a = false := by
            rintro rfl
            exact ⟨List.mem_cons_self, by simpa using hp⟩
          cases best with
          | none =>
            simp only [Option.some.injEq, Prod.mk.injEq] at hbest
            exact .inr (hnew hbest.1.symm)
          | some b =>
            dsimp only at hbest
            split at hbest
            · simp only [Option.some.injEq, Prod.mk.injEq] at hbest
              exact .inr (hnew hbest.1.symm)
            · exact .inl hbest
    · exact .inr ⟨List.mem_cons_of_mem _ hmem, hpassed⟩

/-- What is selected is the id of a stored account that is not passed over. -/
theorem select_account {data : AccountsFile} {allow : Bool} {id next : Text}
    (h : select_next_account_id data snapshots state allow now (some id) = some next) :
    ∃ a ∈ data.accounts, a.id = next ∧ passed_over state (some id) a = false := by
  unfold select_next_account_id at h
  simp only [Option.some_or] at h
  split at h
  · rename_i a score hbest
    obtain rfl : a.id = next := by simpa using h
    rcases consider_best hbest with habs | ⟨hmem, hpassed⟩
    · simp at habs
    · rw [mem_sort_by_id] at hmem
      exact ⟨a, List.mem_of_mem_filter hmem, rfl, hpassed⟩
  · split at h
    · simp at h
    · split at h
      · simp at h
      · obtain ⟨a, hfind, rfl⟩ := Option.map_eq_some_iff.mp h
        have hmem := List.mem_of_find?_eq_some hfind
        rw [mem_sort_by_id] at hmem
        have hpassed := List.find?_some hfind
        exact ⟨a, List.mem_of_mem_filter hmem, rfl, by simpa using hpassed⟩

/-- What is selected is not the current account and was not tried. -/
theorem select_spec {data : AccountsFile} {allow : Bool} {id next : Text}
    (h : select_next_account_id data snapshots state allow now (some id) = some next) :
    next ≠ id ∧ next ∉ state.tried_accounts := by
  obtain ⟨a, -, rfl, hpassed⟩ := select_account h
  simp only [passed_over, RateLimitSwitchState.has_tried, Bool.or_eq_false_iff, beq_eq_false_iff_ne,
    ne_eq, Option.some.injEq, List.contains_eq_mem, decide_eq_false_iff_not] at hpassed
  exact ⟨fun h => hpassed.1 h.symm, hpassed.2⟩

end select

theorem mem_tried_mark {s : RateLimitSwitchState} {id id' : Text} {mode : AuthMode}
    {until_ : Option DateTime} :
    id' ∈ (s.mark_limited id mode until_).tried_accounts ↔ id' = id ∨ id' ∈ s.tried_accounts := by
  simp [RateLimitSwitchState.mark_limited]

/-! ## What one error does -/

/-- What a switch answers: the account is marked, and an account that is stored and not tried is
activated, or the active account stays. -/
structure Switched (home : CodeHome) (marked : RateLimitSwitchState) (home' : CodeHome)
    (state' : RateLimitSwitchState) (answer : Except IoError (Option Text)) : Prop where
  accounts : home'.accounts.accounts = home.accounts.accounts
  state : state' = marked
  outcome :
    (∃ next, answer = .ok (some next) ∧ next ∉ marked.tried_accounts ∧
      home'.accounts.active_account_id = some next ∧
      ∃ a ∈ home.accounts.accounts, a.id = next ∧ ∃ json, auth_of_account a = .ok json ∧
        home'.auth_json = some json) ∨
    ((∀ next, answer ≠ .ok (some next)) ∧
      home'.accounts.active_account_id = home.accounts.active_account_id)

theorem switch_spec {home home' : CodeHome} {snapshots : List StoredRateLimitSnapshot}
    {disk : TurnDisk} {state state' : RateLimitSwitchState} {allow : Bool} {now : DateTime}
    {current : Text} {mode : AuthMode} {blocked_until : Option DateTime}
    {answer : Except IoError (Option Text)}
    (h : switch_active_account_on_rate_limit home snapshots disk state allow now current mode
      blocked_until = (home', state', answer)) :
    Switched home (state.mark_limited current mode blocked_until) home' state' answer := by
  unfold switch_active_account_on_rate_limit at h
  dsimp only at h
  split at h
  · split at h
    · simp only [Prod.mk.injEq] at h
      obtain ⟨rfl, rfl, rfl⟩ := h
      exact ⟨rfl, rfl, .inr ⟨by simp, rfl⟩⟩
    · rename_i id hselect
      obtain ⟨-, hfresh⟩ := select_spec hselect
      have haccounts := activate_accounts home disk.activate id
      have hactive := activate_active home disk.activate id
      split at h
      · rename_i activated hactivate
        rw [hactivate] at haccounts hactive
        simp only [Prod.mk.injEq] at h
        obtain ⟨rfl, rfl, rfl⟩ := h
        rcases hactive with ⟨-, hnow, hjson⟩ | ⟨habs, -⟩
        · exact ⟨haccounts, rfl, .inl ⟨id, rfl, hfresh, hnow, hjson⟩⟩
        · exact absurd rfl habs
      · rename_i failed error hactivate
        rw [hactivate] at haccounts hactive
        simp only [Prod.mk.injEq] at h
        obtain ⟨rfl, rfl, rfl⟩ := h
        rcases hactive with ⟨habs, -⟩ | ⟨-, hkept⟩
        · simp at habs
        · exact ⟨haccounts, rfl, .inr ⟨by simp, hkept⟩⟩
  · simp only [Prod.mk.injEq] at h
    obtain ⟨rfl, rfl, rfl⟩ := h
    exact ⟨rfl, rfl, .inr ⟨by simp, rfl⟩⟩

namespace Turn

def active (t : Turn) : Option Text := t.home.accounts.active_account_id

def tried (t : Turn) : List Text := t.rate_limit_switch_state.tried_accounts

/-- The tokens of the cached credentials. -/
def tokens (t : Turn) : Option TokenData := t.auth.bind CodexAuth.get_current_token_data

theorem token_account_id_eq (t : Turn) :
    t.token_account_id = t.tokens.bind (fun tokens => tokens.account_id) := by
  unfold token_account_id tokens CodexAuth.get_account_id
  cases t.auth <;> simp

/-- What a handled error does to the turn, where the account was `current`: the account is marked,
and a stored account that was not tried is active and its tokens are cached, or the active account
and the cached credentials stay. -/
structure Handled (current : Text) (t t' : Turn) : Prop where
  accounts : t'.home.accounts.accounts = t.home.accounts.accounts
  marked : ∀ id, id ∈ t'.tried ↔ id = current ∨ id ∈ t.tried
  outcome :
    (∃ a ∈ t.home.accounts.accounts,
      t'.switches = t.switches ++ [{ left := t.active, activated := a.id }] ∧
      a.id ∉ t'.tried ∧ t'.active = some a.id ∧ ∀ tokens ∈ t'.tokens, a.tokens = some tokens) ∨
    (t'.switches = t.switches ∧ t'.active = t.active ∧ t'.auth = t.auth)

/-- The tokens that a reload finds are those of the account that `auth.json` is for. -/
theorem reload_tokens {cfg : Settings} {disk : TurnDisk} {home : CodeHome} {a : StoredAccount}
    {json : AuthDotJson} {tokens : TokenData} (hauth : auth_of_account a = .ok json)
    (hjson : home.auth_json = some json)
    (h : (reload cfg disk home).bind CodexAuth.get_current_token_data = some tokens) :
    a.tokens = some tokens := by
  unfold reload at h
  rw [hjson] at h
  split at h
  · split at h
    · rename_i loaded hload
      obtain ⟨auth, rfl, htokens⟩ := Option.bind_eq_some_iff.mp h
      exact load_activated hauth hload htokens
    · simp at h
  · simp at h

/-- An error leaves the turn as it was, or is handled with the account that `run_turn` takes for
the current one. -/
theorem on_usage_limit_cases {cfg : Settings} {t t' : Turn} {e : UsageLimit}
    (h : on_usage_limit cfg t e = some t') :
    t' = t ∨ ∃ current, t.current_account_id e.disk = some current ∧ Handled current t t' := by
  unfold on_usage_limit at h
  split at h
  · split at h
    · exact .inl (by simpa using h.symm)
    · rename_i current hcurrent
      obtain ⟨blocked_until, -, rfl⟩ := Option.map_eq_some_iff.mp h
      refine .inr ⟨current, hcurrent, ?_⟩
      split
      · rename_i home state next hswitch
        obtain ⟨haccounts, rfl, houtcome⟩ := switch_spec hswitch
        refine ⟨haccounts, fun _ => mem_tried_mark, ?_⟩
        rcases houtcome with ⟨id, hid, hfresh, hactive, haccount⟩ | ⟨habs, -⟩
        · obtain ⟨a, hmem, rfl, json, hauth, hjson⟩ := haccount
          obtain rfl : next = a.id := by simpa using hid
          exact .inl ⟨a, hmem, rfl, hfresh, hactive, fun _ h => reload_tokens hauth hjson h⟩
        · exact absurd rfl (habs next)
      · rename_i home state answer hnone hswitch
        obtain ⟨haccounts, rfl, houtcome⟩ := switch_spec hswitch
        refine ⟨haccounts, fun _ => mem_tried_mark, ?_⟩
        rcases houtcome with ⟨id, rfl, -⟩ | ⟨-, hkept⟩
        · exact absurd rfl (hnone _)
        · exact .inr ⟨rfl, hkept, rfl⟩
  · exact .inl (by simpa using h.symm)

/-! ## No account comes back -/

/-- The account id in the cached tokens is the id under which the active account is stored, where
there are both. -/
def IdsAgree (t : Turn) : Prop :=
  ∀ id ∈ t.token_account_id, ∀ a ∈ t.active, id = a

/-- Every switch goes to a stored account other than the one that was active and than all that
were left before, and there are no more switches than stored accounts. -/
structure NeverReturns (accounts : List StoredAccount) (t : Turn) : Prop where
  stored : ∀ s ∈ t.switches, s.activated ∈ accounts.map StoredAccount.id
  away : ∀ s ∈ t.switches, s.left ≠ some s.activated
  onward : t.switches.Pairwise (fun earlier later => earlier.left ≠ some later.activated)
  bounded : t.switches.length ≤ accounts.length

/-- The invariant: what was left is tried, and what was activated is tried or active. -/
structure TriedOut (accounts : List StoredAccount) (t : Turn) : Prop where
  kept : t.home.accounts.accounts = accounts
  stored : ∀ s ∈ t.switches, s.activated ∈ accounts.map StoredAccount.id
  away : ∀ s ∈ t.switches, s.left ≠ some s.activated
  onward : t.switches.Pairwise (fun earlier later => earlier.left ≠ some later.activated)
  left_tried : ∀ s ∈ t.switches, ∀ id, s.left = some id → id ∈ t.tried
  activated_tried : ∀ s ∈ t.switches, s.activated ∈ t.tried ∨ t.active = some s.activated
  distinct : (t.switches.map Switch.activated).Nodup

section run

variable {accounts : List StoredAccount} {cfg : Settings} {home : CodeHome}
  {auth : Option CodexAuth} {t t' : Turn}

/-- Where the ids agree, the current account of `run_turn` is the active one. -/
theorem current_is_active {disk : TurnDisk} {current a : Text} (hids : IdsAgree t)
    (hcurrent : t.current_account_id disk = some current) (hactive : t.active = some a) :
    current = a := by
  unfold current_account_id at hcurrent
  cases htoken : t.token_account_id with
  | some id =>
    rw [htoken, Option.some_or, Option.some.injEq] at hcurrent
    rw [← hcurrent]
    exact hids id htoken a hactive
  | none =>
    rw [htoken, Option.none_or] at hcurrent
    unfold active at hactive
    rw [hactive] at hcurrent
    split at hcurrent
    · simpa using hcurrent.symm
    · simp at hcurrent

/-- An error keeps the invariant where the current account is the active one. -/
theorem tried_out_step {current : Text} (hinv : TriedOut accounts t)
    (hcurrent : ∀ a, t.active = some a → current = a) (h : Handled current t t') :
    TriedOut accounts t' := by
  have hgrow : ∀ id, id ∈ t.tried → id ∈ t'.tried := fun id hid => (h.marked id).mpr (.inr hid)
  have hactive : ∀ a, t.active = some a → a ∈ t'.tried := fun a ha =>
    (h.marked a).mpr (.inl (hcurrent a ha).symm)
  have hleft : ∀ s ∈ t.switches, ∀ id, s.left = some id → id ∈ t'.tried :=
    fun s hs id hid => hgrow id (hinv.left_tried s hs id hid)
  -- an account that was activated before is tried now
  have hbefore : ∀ s ∈ t.switches, s.activated ∈ t'.tried := by
    intro s hs
    rcases hinv.activated_tried s hs with htried | hact
    · exact hgrow _ htried
    · exact hactive _ hact
  have haccounts := h.accounts.trans hinv.kept
  rcases h.outcome with ⟨a, hmem, hswitches, hfresh, hnow, -⟩ | ⟨hswitches, hkept, -⟩
  · rw [hinv.kept] at hmem
    have hcases : ∀ s ∈ t'.switches, s ∈ t.switches ∨ s = ⟨t.active, a.id⟩ := by
      intro s hs
      simpa [hswitches] using hs
    refine ⟨haccounts, ?_, ?_, ?_, ?_, ?_, ?_⟩
    · intro s hs
      rcases hcases s hs with hs | rfl
      · exact hinv.stored s hs
      · exact List.mem_map_of_mem hmem
    · intro s hs
      rcases hcases s hs with hs | rfl
      · exact hinv.away s hs
      · intro habs
        exact hfresh (hactive a.id habs)
    · rw [hswitches, List.pairwise_append]
      refine ⟨hinv.onward, List.pairwise_singleton _ _, ?_⟩
      intro s hs s' hs' habs
      rw [List.mem_singleton] at hs'
      subst hs'
      exact hfresh (hleft s hs _ habs)
    · intro s hs id hid
      rcases hcases s hs with hs | rfl
      · exact hleft s hs id hid
      · exact hactive id hid
    · intro s hs
      rcases hcases s hs with hs | rfl
      · exact .inl (hbefore s hs)
      · exact .inr hnow
    · rw [hswitches, List.map_append, List.map_singleton, ← List.concat_eq_append]
      apply hinv.distinct.concat
      intro hin
      obtain ⟨s, hs, hnext⟩ := List.mem_map.mp hin
      have hsame : s.activated = a.id := hnext
      apply hfresh
      rw [← hsame]
      exact hbefore s hs
  · refine ⟨haccounts, ?_, ?_, ?_, ?_, ?_, ?_⟩
    all_goals rw [hswitches]
    · exact hinv.stored
    · exact hinv.away
    · exact hinv.onward
    · exact hleft
    · exact fun s hs => .inl (hbefore s hs)
    · exact hinv.distinct

theorem TriedOut.never_returns (h : TriedOut accounts t) : NeverReturns accounts t where
  stored := h.stored
  away := h.away
  onward := h.onward
  bounded := by
    -- the accounts that were activated are distinct and stored
    have hsub : t.switches.map Switch.activated ⊆ accounts.map StoredAccount.id := by
      intro id hid
      obtain ⟨s, hs, rfl⟩ := List.mem_map.mp hid
      exact h.stored s hs
    have hlen := (h.distinct.subperm hsub).length_le
    simpa using hlen

/-- The turn before its first error. -/
def begin_turn (home : CodeHome) (auth : Option CodexAuth) : Turn where
  home := home
  auth := auth
  rate_limit_switch_state := .fresh
  switches := []

theorem begin_tried_out : TriedOut home.accounts.accounts (begin_turn home auth) := by
  refine ⟨rfl, ?_, ?_, ?_, ?_, ?_, ?_⟩
  all_goals simp [begin_turn]

/-- For all stored accounts, cached credentials and settings, and for any number of usage limit
errors: where the ids agree at each error, the turn returns to no account, and it makes no more
switches than there are accounts. -/
theorem switches_never_return_when_ids_agree (cfg : Settings) (home : CodeHome)
    (auth : Option CodexAuth) (t : Turn)
    (h : Reached (on_usage_limit cfg) (begin_turn home auth) (fun t _ => IdsAgree t) t) :
    NeverReturns home.accounts.accounts t := by
  apply TriedOut.never_returns
  refine Reached.invariant begin_tried_out ?_ h
  intro t e t' hinv hids hstep
  rcases on_usage_limit_cases hstep with rfl | ⟨current, hcurrent, hhandled⟩
  · exact hinv
  · exact tried_out_step hinv (fun a ha => current_is_active hids hcurrent ha) hhandled

/-- Settings that switch accounts, with no API key in the environment. -/
def switching : Settings where
  auto_switch_accounts_on_rate_limit := true
  api_key_fallback_on_all_accounts_limited := false
  has_auth_manager := true
  preferred_auth_mode := .Chatgpt
  code_api_key_env := none
  openai_api_key_env := none

/-- A usage limit error that names no reset, on a disk without faults and without snapshots. -/
def limit_without_reset : UsageLimit where
  now := 0
  resets_in_seconds := none
  snapshots := []
  disk := ⟨true, true, ⟨true, true, true⟩, true⟩

/-- The tokens of a ChatGPT account. -/
def chatgpt_tokens (account_id : Text) : TokenData where
  email := some account_id
  chatgpt_plan_type := some (.Known .Pro)
  account_id := some account_id

/-- The home after a login with each of the accounts `a` and `b`, that got the ids `u` and `v`. -/
def two_logins (a u b v : Text) : CodeHome where
  accounts := upsert_chatgpt_account
    (upsert_chatgpt_account ⟨none, []⟩ u (chatgpt_tokens a) true) v (chatgpt_tokens b) true
  auth_json := some
    { auth_mode := some .Chatgpt, openai_api_key := none, tokens := some (chatgpt_tokens b) }

/-- The turn that begins with the credentials of the home. -/
def begin_with (home : CodeHome) : Turn :=
  begin_turn home (reload switching limit_without_reset.disk home)

instance (t : Turn) : Decidable (IdsAgree t) :=
  match h : t.token_account_id, h' : t.active with
  | some id, some a =>
    decidable_of_iff (id = a) (by simp [IdsAgree, h, h'])
  | none, _ => isTrue (by simp [IdsAgree, h])
  | some _, none => isTrue (by simp [IdsAgree, h'])

/-- Two accounts under their own ids: the turn goes from the second to the first and stays. -/
theorem two_limits_switch_once :
    ∃ t, Reached (on_usage_limit switching)
      (begin_with (two_logins ['a'] ['a'] ['b'] ['b'])) (fun t _ => IdsAgree t) t ∧
      t.switches = [⟨some ['b'], ['a']⟩] ∧
      NeverReturns (two_logins ['a'] ['a'] ['b'] ['b']).accounts.accounts t := by
  have hrun : ([limit_without_reset, limit_without_reset].foldlM
      (fun t e => if IdsAgree t then on_usage_limit switching t e else none)
      (begin_with (two_logins ['a'] ['a'] ['b'] ['b']))).map Turn.switches =
        some [⟨some ['b'], ['a']⟩] := by decide +kernel
  obtain ⟨t, hreached, hswitches⟩ := Reached.of_run hrun
  exact ⟨t, hreached, hswitches, switches_never_return_when_ids_agree _ _ _ t hreached⟩

/-- Two accounts under ids that were drawn for them: the turn goes to the first and then, at every
further error, from it to itself. -/
theorem switches_go_round_under_drawn_ids :
    ∃ t, Reached (on_usage_limit switching)
      (begin_with (two_logins ['a'] ['u'] ['b'] ['v'])) (fun _ _ => True) t ∧
      t.switches = [⟨some ['v'], ['u']⟩, ⟨some ['u'], ['u']⟩, ⟨some ['u'], ['u']⟩] ∧
      ¬ NeverReturns (two_logins ['a'] ['u'] ['b'] ['v']).accounts.accounts t := by
  have hrun : ([limit_without_reset, limit_without_reset, limit_without_reset].foldlM
      (fun t e => if True then on_usage_limit switching t e else none)
      (begin_with (two_logins ['a'] ['u'] ['b'] ['v']))).map Turn.switches =
        some [⟨some ['v'], ['u']⟩, ⟨some ['u'], ['u']⟩, ⟨some ['u'], ['u']⟩] := by decide +kernel
  obtain ⟨t, hreached, hswitches⟩ := Reached.of_run hrun
  refine ⟨t, hreached, hswitches, ?_⟩
  intro hnever
  have hbound := hnever.bounded
  rw [hswitches] at hbound
  revert hbound
  decide +kernel

/-! ## When the ids agree -/

/-- Every account with a token account id is stored under it. -/
def StoredUnderOwnIds (accounts : List StoredAccount) : Prop :=
  ∀ a ∈ accounts, ∀ tokens ∈ a.tokens, ∀ id ∈ tokens.account_id, id = a.id

/-- Where every account is stored under its own id, the ids agree through every turn in which they
agree at its first error. -/
theorem ids_agree_through (hown : StoredUnderOwnIds home.accounts.accounts)
    (hbegin : IdsAgree (begin_turn home auth))
    (h : Reached (on_usage_limit cfg) (begin_turn home auth) (fun _ _ => True) t) :
    IdsAgree t := by
  have hinv : t.home.accounts.accounts = home.accounts.accounts ∧ IdsAgree t := by
    refine Reached.invariant
      (I := fun t => t.home.accounts.accounts = home.accounts.accounts ∧ IdsAgree t)
      ⟨rfl, hbegin⟩ ?_ h
    intro t e t' ⟨haccounts, hids⟩ _ hstep
    rcases on_usage_limit_cases hstep with rfl | ⟨current, -, hhandled⟩
    · exact ⟨haccounts, hids⟩
    · refine ⟨hhandled.accounts.trans haccounts, ?_⟩
      rcases hhandled.outcome with ⟨a, hmem, -, -, hactive, htokens⟩ | ⟨-, hactive, hauth⟩
      · intro id hid b hb
        rw [token_account_id_eq] at hid
        obtain ⟨tokens, htok, hid⟩ := Option.bind_eq_some_iff.mp hid
        rw [haccounts] at hmem
        obtain rfl : a.id = b := by simpa [hactive] using hb
        exact hown a hmem tokens (htokens tokens htok) id hid
      · unfold IdsAgree token_account_id at hids ⊢
        rw [hactive, hauth]
        exact hids
  exact hinv.2

/-- A login with tokens that no account has yet, once they are loaded, leaves ids that disagree:
the account is active under the id that was drawn for it, and not under the one in its tokens. -/
theorem login_disagrees {data : AccountsFile} {next_id id : Text} {tokens : TokenData}
    (hnew : ∀ acc ∈ data.accounts, match_chatgpt_account acc tokens = false)
    (hid : tokens.account_id = some id) (hne : next_id ≠ id)
    (hhome : home.accounts = upsert_chatgpt_account data next_id tokens true)
    (hauth : t.tokens = some tokens) (ht : t.home = home) : ¬ IdsAgree t := by
  intro hids
  apply hne
  have hactive : t.active = some next_id := by
    unfold active
    rw [ht, hhome]
    exact login_active hnew
  have htoken : t.token_account_id = some id := by
    rw [token_account_id_eq, hauth]
    exact hid
  exact (hids id htoken next_id hactive).symm

end run

end Turn

end Ecode.account_switching
