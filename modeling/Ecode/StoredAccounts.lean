-- The stored accounts (core/src/auth_accounts.rs) and the credentials in use
-- (core/src/auth.rs): `auth_accounts.json`, `auth.json`, the login that fills
-- both, and the activation and the load that read them back.
import Ecode.Text

namespace Ecode.auth

/-! ## Accounts and credentials -/

inductive AuthMode where
  | ApiKey
  | Chatgpt
  | ChatgptAuthTokens
  | Headers
  deriving DecidableEq, Repr

def AuthMode.is_chatgpt : AuthMode → Bool
  | .Chatgpt | .ChatgptAuthTokens | .Headers => true
  | .ApiKey => false

inductive KnownPlan where
  | Free
  | Go
  | Plus
  | Pro
  | ProLite
  | Team
  | SelfServeBusinessProLite
  | SelfServeBusinessUsageBased
  | Business
  | Ent26
  | EnterpriseCbpAutomation
  | EnterpriseCbpUsageBased
  | Enterprise
  | Edu
  deriving DecidableEq, Repr

inductive PlanType where
  | Known (plan : KnownPlan)
  | Unknown (plan : Text)
  deriving DecidableEq, Repr

/-- The token data, with the email and the plan of its id token. The tokens themselves are sent to
the provider and not read here. -/
structure TokenData where
  email : Option Text
  chatgpt_plan_type : Option PlanType
  account_id : Option Text
  deriving DecidableEq, Repr

structure StoredAccount where
  id : Text
  mode : AuthMode
  openai_api_key : Option Text
  tokens : Option TokenData
  deriving DecidableEq, Repr

/-- `auth_accounts.json`. -/
structure AccountsFile where
  active_account_id : Option Text
  accounts : List StoredAccount
  deriving DecidableEq, Repr

/-- `auth.json`. -/
structure AuthDotJson where
  auth_mode : Option AuthMode
  openai_api_key : Option Text
  tokens : Option TokenData
  deriving DecidableEq, Repr

/-- The two files in the home directory. -/
structure CodeHome where
  accounts : AccountsFile
  auth_json : Option AuthDotJson
  deriving DecidableEq, Repr

structure CodexAuth where
  api_key : Option Text
  mode : AuthMode
  auth_dot_json : Option AuthDotJson
  deriving DecidableEq, Repr

/-- An error of the operating system, or one with a message of the program. -/
inductive IoError where
  | Os
  | Other (message : Text)
  deriving DecidableEq, Repr

namespace CodexAuth

def from_api_key (api_key : Text) : CodexAuth where
  api_key := some api_key
  mode := .ApiKey
  auth_dot_json := none

def get_current_token_data (auth : CodexAuth) : Option TokenData :=
  auth.auth_dot_json.bind (fun json => json.tokens)

def get_account_id (auth : CodexAuth) : Option Text :=
  auth.get_current_token_data.bind (fun t => t.account_id)

end CodexAuth

/-! ## Storing an account -/

def normalize_email (email : Text) : Text := Text.to_ascii_lowercase (Text.trim email)

/-- Both are there and they are equal. -/
def both_equal (a b : Option Text) : Bool :=
  match a, b with
  | some a, some b => a == b
  | _, _ => false

def match_chatgpt_account (existing : StoredAccount) (tokens : TokenData) : Bool :=
  existing.mode.is_chatgpt &&
    match existing.tokens with
    | none => false
    | some existing_tokens =>
      both_equal existing_tokens.account_id tokens.account_id &&
        both_equal (existing_tokens.email.map normalize_email) (tokens.email.map normalize_email)

def match_api_key_account (existing : StoredAccount) (api_key : Text) : Bool :=
  existing.mode == .ApiKey && existing.openai_api_key == some api_key

/-- The place of the stored account that a login is for. -/
def existing_idx (accounts : List StoredAccount) (new_account : StoredAccount) : Option Nat :=
  match new_account.mode with
  | .Chatgpt | .ChatgptAuthTokens =>
    new_account.tokens.bind (fun tokens =>
      accounts.findIdx? (fun acc => match_chatgpt_account acc tokens))
  | .ApiKey =>
    new_account.openai_api_key.bind (fun api_key =>
      accounts.findIdx? (fun acc => match_api_key_account acc api_key))
  | .Headers => none

/-- The stored account with the credentials of a new login. -/
def StoredAccount.merge (account new_account : StoredAccount) : StoredAccount :=
  { account with
    tokens := new_account.tokens.or account.tokens
    openai_api_key := new_account.openai_api_key.or account.openai_api_key }

/-- The file after `upsert_account`, and the account as it is stored. -/
def upsert_account (data : AccountsFile) (new_account : StoredAccount) :
    AccountsFile × StoredAccount :=
  match (existing_idx data.accounts new_account).bind (fun idx =>
    (data.accounts[idx]?).map (fun account => (idx, account.merge new_account))) with
  | some (idx, account) => ({ data with accounts := data.accounts.set idx account }, account)
  | none => ({ data with accounts := data.accounts ++ [new_account] }, new_account)

/-- The part that `upsert_api_key_account` and `upsert_chatgpt_account` share. -/
def upsert_active (data : AccountsFile) (new_account : StoredAccount) (make_active : Bool) :
    AccountsFile :=
  let (data, stored) := upsert_account data new_account
  if make_active then { data with active_account_id := some stored.id } else data

/-- `upsert_chatgpt_account`, with the id that `next_id` draws. -/
def upsert_chatgpt_account (data : AccountsFile) (next_id : Text) (tokens : TokenData)
    (make_active : Bool) : AccountsFile :=
  upsert_active data
    { id := next_id, mode := .Chatgpt, openai_api_key := none, tokens := some tokens } make_active

/-- `upsert_api_key_account`, with the id that `next_id` draws. -/
def upsert_api_key_account (data : AccountsFile) (next_id : Text) (api_key : Text)
    (make_active : Bool) : AccountsFile :=
  upsert_active data
    { id := next_id, mode := .ApiKey, openai_api_key := some api_key, tokens := none } make_active

/-! ## Activating an account -/

def find_account (data : AccountsFile) (account_id : Text) : Option StoredAccount :=
  data.accounts.find? (fun acc => acc.id == account_id)

/-- The file operations of one activation that the operating system lets through. -/
structure Disk where
  find_account : Bool
  write_auth_json : Bool
  set_active_account_id : Bool
  deriving DecidableEq, Repr

/-- What `activate_account` writes to `auth.json` for an account. -/
def auth_of_account (account : StoredAccount) : Except IoError AuthDotJson :=
  match account.mode with
  | .ApiKey =>
    match account.openai_api_key with
    | none => .error (.Other "stored API key account is missing the key value".toList)
    | some api_key =>
      .ok { auth_mode := some .ApiKey, openai_api_key := some api_key, tokens := none }
  | .Chatgpt | .ChatgptAuthTokens =>
    match account.tokens with
    | none => .error (.Other "stored ChatGPT account is missing token data".toList)
    | some tokens =>
      .ok { auth_mode := some account.mode, openai_api_key := none, tokens := some tokens }
  | .Headers =>
    .error (.Other "externally provided auth cannot be selected as a stored account".toList)

/-- `activate_account`: `auth.json` first, then the active id. When the second write fails the
first stays. -/
def activate_account (home : CodeHome) (disk : Disk) (account_id : Text) :
    CodeHome × Except IoError Unit :=
  if disk.find_account then
    match find_account home.accounts account_id with
    | none =>
      (home, .error (.Other ("account with id ".toList ++ account_id ++ " was not found".toList)))
    | some account =>
      match auth_of_account account with
      | .error e => (home, .error e)
      | .ok auth =>
        if disk.write_auth_json then
          let home := { home with auth_json := some auth }
          if disk.set_active_account_id then
            ({ home with
              accounts := { home.accounts with active_account_id := some account.id } }, .ok ())
          else (home, .error .Os)
        else (home, .error .Os)
  else (home, .error .Os)

/-! ## Loading the credentials -/

/-- `load_auth`, with the API key that the environment offers when there is no `auth.json`. -/
def load_auth (auth_json : Option AuthDotJson) (env_api_key : Option Text)
    (preferred : AuthMode) : Except IoError (Option CodexAuth) :=
  match auth_json with
  | none => .ok (env_api_key.map CodexAuth.from_api_key)
  | some json =>
    let chatgpt : CodexAuth :=
      { api_key := none, mode := .Chatgpt
        auth_dot_json := some
          { auth_mode := some .Chatgpt, openai_api_key := none, tokens := json.tokens } }
    let decide_by_key (effective_preference : AuthMode) : Option CodexAuth :=
      match json.openai_api_key with
      | none => some chatgpt
      | some api_key =>
        if json.tokens.bind (fun t => t.chatgpt_plan_type) = some (.Known .Enterprise) then
          some (CodexAuth.from_api_key api_key)
        else if json.tokens.isSome then
          if effective_preference = .ApiKey then some (CodexAuth.from_api_key api_key)
          else some chatgpt
        else some (CodexAuth.from_api_key api_key)
    match json.auth_mode with
    | none => .ok (decide_by_key preferred)
    | some .Chatgpt => .ok (decide_by_key .Chatgpt)
    | some .ApiKey =>
      match json.openai_api_key with
      | none =>
        .error (.Other "auth.json requests API key auth but no API key is stored".toList)
      | some api_key => .ok (some (CodexAuth.from_api_key api_key))
    | some .ChatgptAuthTokens =>
      match json.tokens with
      | none =>
        .error (.Other
          "auth.json requests ChatGPT auth tokens but token data is missing".toList)
      | some tokens =>
        .ok (some
          { api_key := none, mode := .ChatgptAuthTokens
            auth_dot_json := some
              { auth_mode := some .ChatgptAuthTokens, openai_api_key := none
                tokens := some tokens } })
    | some .Headers =>
      .error (.Other "externally provided auth cannot be loaded from auth storage".toList)

/-! ## What an activation does -/

/-- An activation never changes which accounts are stored. -/
theorem activate_accounts (home : CodeHome) (disk : Disk) (account_id : Text) :
    (activate_account home disk account_id).1.accounts.accounts = home.accounts.accounts := by
  unfold activate_account
  split
  · split
    · rfl
    · split
      · rfl
      · split
        · dsimp only
          split
          · rfl
          · rfl
        · rfl
  · rfl

/-- What an activation leaves: the id it was given is active and `auth.json` is that account's when
it succeeds, and the active id is the one of before when it fails. -/
theorem activate_active (home : CodeHome) (disk : Disk) (account_id : Text) :
    ((activate_account home disk account_id).2 = .ok () ∧
      (activate_account home disk account_id).1.accounts.active_account_id = some account_id ∧
      ∃ a ∈ home.accounts.accounts, a.id = account_id ∧ ∃ json, auth_of_account a = .ok json ∧
        (activate_account home disk account_id).1.auth_json = some json) ∨
    ((activate_account home disk account_id).2 ≠ .ok () ∧
      (activate_account home disk account_id).1.accounts.active_account_id =
        home.accounts.active_account_id) := by
  unfold activate_account
  split
  · split
    · exact .inr ⟨by simp, rfl⟩
    · rename_i account hfind
      have hid : account.id = account_id := by
        simpa using List.find?_some hfind
      have hmem : account ∈ home.accounts.accounts := List.mem_of_find?_eq_some hfind
      split
      · exact .inr ⟨by simp, rfl⟩
      · rename_i json hauth
        split
        · dsimp only
          split
          · exact .inl ⟨rfl, by rw [hid], account, hmem, hid, json, hauth, rfl⟩
          · exact .inr ⟨by simp, rfl⟩
        · exact .inr ⟨by simp, rfl⟩
  · exact .inr ⟨by simp, rfl⟩

/-- What is loaded from the `auth.json` of a ChatGPT account holds its tokens. -/
theorem load_tokens {mode : AuthMode} {stored : TokenData} {env : Option Text}
    {preferred : AuthMode} {auth : CodexAuth} (hmode : mode = .Chatgpt ∨ mode = .ChatgptAuthTokens)
    (hload : load_auth
      (some { auth_mode := some mode, openai_api_key := none, tokens := some stored }) env
        preferred = .ok (some auth)) : auth.get_current_token_data = some stored := by
  rcases hmode with rfl | rfl
  all_goals
    simp only [load_auth, Except.ok.injEq, Option.some.injEq] at hload
    subst hload
    rfl

/-- The tokens that are loaded after an activation are those of the account. -/
theorem load_activated {account : StoredAccount} {json : AuthDotJson} {env : Option Text}
    {preferred : AuthMode} {auth : CodexAuth} {tokens : TokenData}
    (h : auth_of_account account = .ok json)
    (hload : load_auth (some json) env preferred = .ok (some auth))
    (htokens : auth.get_current_token_data = some tokens) : account.tokens = some tokens := by
  cases hmode : account.mode with
  | ApiKey =>
    cases hkey : account.openai_api_key with
    | none => simp [auth_of_account, hmode, hkey] at h
    | some key =>
      simp only [auth_of_account, hmode, hkey, Except.ok.injEq] at h
      subst h
      -- an API key has no tokens
      simp only [load_auth, Except.ok.injEq, Option.some.injEq] at hload
      subst hload
      simp [CodexAuth.get_current_token_data, CodexAuth.from_api_key] at htokens
  | Headers => simp [auth_of_account, hmode] at h
  | Chatgpt =>
    cases hstored : account.tokens with
    | none => simp [auth_of_account, hmode, hstored] at h
    | some stored =>
      simp only [auth_of_account, hmode, hstored, Except.ok.injEq] at h
      subst h
      rw [← load_tokens (.inl rfl) hload, htokens]
  | ChatgptAuthTokens =>
    cases hstored : account.tokens with
    | none => simp [auth_of_account, hmode, hstored] at h
    | some stored =>
      simp only [auth_of_account, hmode, hstored, Except.ok.injEq] at h
      subst h
      rw [← load_tokens (.inr rfl) hload, htokens]

/-! ## What a login leaves -/

/-- A login with tokens that no stored account has makes the new account active, under the id that
was drawn for it. -/
theorem login_active {data : AccountsFile} {next_id : Text} {tokens : TokenData}
    (h : ∀ acc ∈ data.accounts, match_chatgpt_account acc tokens = false) :
    (upsert_chatgpt_account data next_id tokens true).active_account_id = some next_id := by
  have hidx : data.accounts.findIdx? (fun acc => match_chatgpt_account acc tokens) = none :=
    List.findIdx?_eq_none_iff.mpr h
  simp [upsert_chatgpt_account, upsert_active, upsert_account, existing_idx, hidx]

end Ecode.auth
