-- Logins, activations and removals of stored accounts in any order
-- (core/src/auth_accounts.rs): a login with known credentials finds its account again.
import Mathlib.Data.List.Nodup
import Ecode.StoredAccounts

namespace Ecode.auth

/-! ## The calls -/

/-- What a login stores. -/
inductive Credentials where
  | ApiKey (api_key : Text)
  | Chatgpt (tokens : TokenData)
  deriving DecidableEq, Repr

namespace Credentials

/-- The account of a first login, under the id that `next_id` draws. -/
def new_account (next_id : Text) : Credentials → StoredAccount
  | .ApiKey api_key =>
    { id := next_id, mode := .ApiKey, openai_api_key := some api_key, tokens := none }
  | .Chatgpt tokens =>
    { id := next_id, mode := .Chatgpt, openai_api_key := none, tokens := some tokens }

/-- A stored account is matched by these credentials. -/
def found_in (account : StoredAccount) : Credentials → Bool
  | .ApiKey api_key => match_api_key_account account api_key
  | .Chatgpt tokens => match_chatgpt_account account tokens

/-- The credentials say whose they are: an API key does, and token data with both an account id and
an email. -/
def identified : Credentials → Bool
  | .ApiKey _ => true
  | .Chatgpt tokens => tokens.account_id.isSome && tokens.email.isSome

/-- `upsert_api_key_account` or `upsert_chatgpt_account`. -/
def upsert (data : AccountsFile) (next_id : Text) (make_active : Bool) :
    Credentials → AccountsFile
  | .ApiKey api_key => upsert_api_key_account data next_id api_key make_active
  | .Chatgpt tokens => upsert_chatgpt_account data next_id tokens make_active

/-- The account that the call returns. -/
def upserted (data : AccountsFile) (next_id : Text) (make_active : Bool) (c : Credentials) :
    StoredAccount :=
  let stored := upsert_account data (c.new_account next_id)
  if make_active then (find_account stored.1 stored.2.id).getD stored.2 else stored.2

end Credentials

/-- `set_active_account_id`, and the account that it returns. -/
def set_active_account_id (data : AccountsFile) (account_id : Option Text) :
    AccountsFile × Option StoredAccount :=
  ({ data with active_account_id := account_id }, account_id.bind (find_account data))

/-- `remove_account`, and the account that it returns. -/
def remove_account (data : AccountsFile) (account_id : Text) :
    AccountsFile × Option StoredAccount :=
  ({ active_account_id :=
      if data.active_account_id = some account_id then none else data.active_account_id
     accounts := data.accounts.eraseP (fun acc => acc.id == account_id) },
    find_account data account_id)

/-- A call that succeeds. One that fails leaves the file as it was. -/
inductive AccountCall where
  | upsert (credentials : Credentials) (next_id : Text) (make_active : Bool)
  | set_active (account_id : Option Text)
  | remove (account_id : Text)
  deriving DecidableEq, Repr

namespace AccountCall

def apply (data : AccountsFile) : AccountCall → AccountsFile
  | .upsert c next_id make_active => c.upsert data next_id make_active
  | .set_active account_id => (set_active_account_id data account_id).1
  | .remove account_id => (remove_account data account_id).1

/-- The id that the call draws. -/
def drawn : AccountCall → Option Text
  | .upsert _ next_id _ => some next_id
  | _ => none

end AccountCall

def ids (data : AccountsFile) : List Text := data.accounts.map StoredAccount.id

def run (data : AccountsFile) (calls : List AccountCall) : AccountsFile :=
  calls.foldl AccountCall.apply data

/-! ## What credentials match -/

section matching

variable {c c' : Credentials} {account : StoredAccount} {next_id : Text}

theorem both_equal_eq_true_iff {a b : Option Text} :
    both_equal a b = true ↔ a = b ∧ a.isSome = true := by
  cases a with
  | none => simp [both_equal]
  | some a =>
    cases b with
    | none => simp [both_equal]
    | some b => simp [both_equal]

theorem new_account_id : (c.new_account next_id).id = next_id := by
  cases c with
  | ApiKey key => rfl
  | Chatgpt tokens => rfl

theorem found_in_new_account : c.found_in (c.new_account next_id) = c.identified := by
  cases c with
  | ApiKey key => simp [Credentials.found_in, Credentials.new_account, Credentials.identified,
      match_api_key_account]
  | Chatgpt tokens =>
    rw [Bool.eq_iff_iff]
    simp [Credentials.found_in, Credentials.new_account, Credentials.identified,
      match_chatgpt_account, AuthMode.is_chatgpt, both_equal_eq_true_iff]

/-- Credentials that do not say whose they are match no account. -/
theorem identified_of_found (h : c.found_in account = true) : c.identified = true := by
  cases c with
  | ApiKey key => rfl
  | Chatgpt tokens =>
    simp only [Credentials.found_in, match_chatgpt_account, Bool.and_eq_true] at h
    split at h
    · simp at h
    · simp only [Bool.and_eq_true, both_equal_eq_true_iff] at h
      obtain ⟨-, ⟨hid, hsome⟩, hemail, hsome'⟩ := h
      rw [hid] at hsome
      rw [hemail, Option.isSome_map] at hsome'
      simp [Credentials.identified, hsome, hsome']

/-- A matched account takes the credentials, and everything that matched it before still does. -/
theorem found_in_merge (h : c.found_in account = true) :
    c'.found_in (account.merge (c.new_account next_id)) = c'.found_in account := by
  cases c with
  | ApiKey key =>
    simp only [Credentials.found_in, match_api_key_account, Bool.and_eq_true, beq_iff_eq] at h
    have hsame : account.merge ((Credentials.ApiKey key).new_account next_id) = account := by
      cases account
      simp_all [StoredAccount.merge, Credentials.new_account]
    rw [hsame]
  | Chatgpt tokens =>
    cases htokens : account.tokens with
    | none => simp [Credentials.found_in, match_chatgpt_account, htokens] at h
    | some old =>
      -- the new tokens are for the same account id and the same normalised email
      simp only [Credentials.found_in, match_chatgpt_account, htokens, Bool.and_eq_true,
        both_equal_eq_true_iff] at h
      obtain ⟨-, ⟨hid, -⟩, hemail, -⟩ := h
      cases c' with
      | ApiKey key' => simp [Credentials.found_in, match_api_key_account, StoredAccount.merge,
          Credentials.new_account]
      | Chatgpt tokens' =>
        simp [Credentials.found_in, match_chatgpt_account, StoredAccount.merge,
          Credentials.new_account, htokens, hid, hemail]

/-- What a login does: the first account that its credentials match takes them, or the new account
goes to the end. -/
theorem upsert_account_spec (data : AccountsFile) (c : Credentials) (next_id : Text) :
    (∃ before account after, data.accounts = before ++ account :: after ∧
      (∀ a ∈ before, c.found_in a = false) ∧ c.found_in account = true ∧
      upsert_account data (c.new_account next_id) =
        ({ data with accounts := before ++ account.merge (c.new_account next_id) :: after },
          account.merge (c.new_account next_id))) ∨
    ((∀ a ∈ data.accounts, c.found_in a = false) ∧
      upsert_account data (c.new_account next_id) =
        ({ data with accounts := data.accounts ++ [c.new_account next_id] },
          c.new_account next_id)) := by
  have hidx : existing_idx data.accounts (c.new_account next_id) =
      data.accounts.findIdx? (fun a => c.found_in a) := by
    cases c with
    | ApiKey key => rfl
    | Chatgpt tokens => rfl
  unfold upsert_account
  rw [hidx]
  cases hfind : data.accounts.findIdx? (fun a => c.found_in a) with
  | none =>
    rw [List.findIdx?_eq_none_iff] at hfind
    exact .inr ⟨hfind, rfl⟩
  | some idx =>
    obtain ⟨hlt, hfound, hfirst⟩ := List.findIdx?_eq_some_iff_getElem.mp hfind
    refine .inl ⟨data.accounts.take idx, data.accounts[idx], data.accounts.drop (idx + 1), ?_, ?_,
      hfound, ?_⟩
    · rw [List.getElem_cons_drop, List.take_append_drop]
    · intro a ha
      obtain ⟨j, hj, rfl⟩ := List.mem_take_iff_getElem.mp ha
      simpa using hfirst j (by omega)
    · simp [List.set_eq_take_append_cons_drop, hlt]

end matching

/-! ## What a call leaves -/

/-- The id of the account that the credentials find. -/
def known (data : AccountsFile) (c : Credentials) : Option Text :=
  (data.accounts.find? (fun a => c.found_in a)).map StoredAccount.id

section calls

variable {data : AccountsFile} {c c' : Credentials} {next_id i : Text} {make_active : Bool}

theorem upsert_accounts : (c.upsert data next_id make_active).accounts =
    (upsert_account data (c.new_account next_id)).1.accounts := by
  cases c
  all_goals
    unfold Credentials.upsert
    dsimp only [upsert_api_key_account, upsert_chatgpt_account, upsert_active,
      Credentials.new_account]
    split
    · rfl
    · rfl

theorem upserted_id : (c.upserted data next_id make_active).id =
    (upsert_account data (c.new_account next_id)).2.id := by
  unfold Credentials.upserted
  dsimp only
  split
  · unfold find_account
    cases hfind : (upsert_account data (c.new_account next_id)).1.accounts.find?
        (fun acc => acc.id == (upsert_account data (c.new_account next_id)).2.id) with
    | none => rfl
    | some account => simpa using List.find?_some hfind
  · rfl

theorem upsert_active_id : (c.upsert data next_id make_active).active_account_id =
    if make_active then some (c.upserted data next_id make_active).id
    else data.active_account_id := by
  have hkeep : (upsert_account data (c.new_account next_id)).1.active_account_id =
      data.active_account_id := by
    rcases upsert_account_spec data c next_id with ⟨_, _, _, -, -, -, heq⟩ | ⟨-, heq⟩
    · rw [heq]
    · rw [heq]
  rw [upserted_id, ← hkeep]
  cases c
  all_goals
    cases make_active
    · rfl
    · rfl

/-- The accounts that are stored keep their ids, and a new one has the id that was drawn. -/
theorem upsert_ids (data : AccountsFile) (c : Credentials) (next_id : Text)
    (make_active : Bool) : ids (c.upsert data next_id make_active) = ids data ∨
    ids (c.upsert data next_id make_active) = ids data ++ [next_id] := by
  unfold ids
  rw [upsert_accounts]
  rcases upsert_account_spec data c next_id with ⟨before, account, after, hsplit, -, -, heq⟩ |
    ⟨-, heq⟩
  · apply Or.inl
    rw [heq, hsplit]
    simp [StoredAccount.merge]
  · apply Or.inr
    rw [heq, List.map_append, List.map_singleton, new_account_id]

theorem upserted_mem : (c.upserted data next_id make_active).id ∈
    ids (c.upsert data next_id make_active) := by
  unfold ids
  rw [upserted_id, upsert_accounts]
  apply List.mem_map_of_mem
  rcases upsert_account_spec data c next_id with ⟨before, account, after, -, -, -, heq⟩ | ⟨-, heq⟩
  · rw [heq]
    simp
  · rw [heq]
    simp

/-- A login leaves what other credentials find. -/
theorem known_upsert (h : known data c' = some i) :
    known (c.upsert data next_id make_active) c' = some i := by
  unfold known at h ⊢
  rw [upsert_accounts]
  rcases upsert_account_spec data c next_id with ⟨before, account, after, hsplit, -, hfound, heq⟩ |
    ⟨-, heq⟩
  · rw [hsplit] at h
    rw [heq, ← h]
    dsimp only
    rw [List.find?_append, List.find?_append, List.find?_cons, List.find?_cons,
      found_in_merge hfound]
    cases before.find? (fun a => c'.found_in a) with
    | some a => rfl
    | none =>
      cases c'.found_in account with
      | true => rfl
      | false => rfl
  · obtain ⟨a, hfind, hid⟩ := Option.map_eq_some_iff.mp h
    rw [heq]
    dsimp only
    rw [List.find?_append, hfind]
    exact congrArg some hid

/-- After a login with credentials that say whose they are, these find the account. -/
theorem known_upserted (h : c.identified = true) :
    known (c.upsert data next_id make_active) c =
      some (c.upserted data next_id make_active).id := by
  unfold known
  rw [upsert_accounts, upserted_id]
  rcases upsert_account_spec data c next_id with
    ⟨before, account, after, -, hbefore, hfound, heq⟩ | ⟨hnone, heq⟩
  · have hnone : before.find? (fun a => c.found_in a) = none := by
      rw [List.find?_eq_none]
      intro a ha
      simp [hbefore a ha]
    rw [heq]
    dsimp only
    rw [List.find?_append, hnone, Option.none_or, List.find?_cons, found_in_merge hfound, hfound]
    rfl
  · have hfind : data.accounts.find? (fun a => c.found_in a) = none := by
      rw [List.find?_eq_none]
      intro a ha
      simp [hnone a ha]
    rw [heq]
    dsimp only
    rw [List.find?_append, hfind, Option.none_or, List.find?_cons, found_in_new_account, h]
    rfl

/-- A login with credentials that find an account stores nothing new. -/
theorem upsert_known (h : known data c = some i) :
    (c.upserted data next_id make_active).id = i ∧
      (c.upsert data next_id make_active).accounts.length = data.accounts.length := by
  unfold known at h
  rw [upserted_id, upsert_accounts]
  rcases upsert_account_spec data c next_id with
    ⟨before, account, after, hsplit, hbefore, hfound, heq⟩ | ⟨hnone, -⟩
  · have hfind : before.find? (fun a => c.found_in a) = none := by
      rw [List.find?_eq_none]
      intro a ha
      simp [hbefore a ha]
    rw [hsplit, List.find?_append, hfind, Option.none_or, List.find?_cons, hfound] at h
    rw [heq, hsplit]
    refine ⟨?_, by simp⟩
    exact Option.some.inj h
  · obtain ⟨a, hfind, -⟩ := Option.map_eq_some_iff.mp h
    have hfound := List.find?_some hfind
    rw [hnone a (List.mem_of_find?_eq_some hfind)] at hfound
    cases hfound

/-- A removal leaves what credentials find, where it removes another account. -/
theorem known_remove {account_id : Text} (h : known data c = some i) (hne : account_id ≠ i) :
    known (remove_account data account_id).1 c = some i := by
  unfold known remove_account at *
  dsimp only
  generalize data.accounts = accounts at h
  induction accounts with
  | nil => cases h
  | cons account accounts ih =>
    rw [List.find?_cons] at h
    rw [List.eraseP_cons]
    cases hfound : c.found_in account with
    | true =>
      -- the account that is found is not the one to remove
      rw [hfound] at h
      have hid : account.id = i := by simpa using h
      have hkeep : (account.id == account_id) = false := by
        simp [hid, Ne.symm hne]
      rw [hkeep, cond_false, List.find?_cons, hfound]
      exact h
    | false =>
      rw [hfound] at h
      cases (account.id == account_id) with
      | true => exact h
      | false =>
        rw [cond_false, List.find?_cons, hfound]
        exact ih h

end calls

/-! ## Sequences of calls -/

/-- The active id, when there is one, is that of a stored account. -/
def ActiveStored (data : AccountsFile) : Prop :=
  ∀ active ∈ data.active_account_id, ∃ account ∈ data.accounts, account.id = active

section sequences

variable {data : AccountsFile} {calls : List AccountCall}

theorem run_known {c : Credentials} {i : Text} (h : known data c = some i)
    (hremove : .remove i ∉ calls) : known (run data calls) c = some i := by
  unfold run
  induction calls generalizing data with
  | nil => exact h
  | cons call calls ih =>
    rw [List.mem_cons, not_or] at hremove
    rw [List.foldl_cons]
    apply ih _ hremove.2
    cases call with
    | upsert c' next_id make_active => exact known_upsert h
    | set_active account_id => exact h
    | remove account_id =>
      apply known_remove h
      rintro rfl
      exact hremove.1 rfl

/-- No id is stored twice, where every id that is drawn is new. -/
theorem run_ids_nodup (h : (ids data ++ calls.filterMap AccountCall.drawn).Nodup) :
    (ids (run data calls)).Nodup := by
  unfold run
  induction calls generalizing data with
  | nil => simpa using h
  | cons call calls ih =>
    rw [List.foldl_cons]
    apply ih
    cases call with
    | upsert c next_id make_active =>
      have hdrawn : (.upsert c next_id make_active :: calls).filterMap AccountCall.drawn =
          next_id :: calls.filterMap AccountCall.drawn := rfl
      rw [hdrawn] at h
      change (ids (c.upsert data next_id make_active) ++ _).Nodup
      rcases upsert_ids data c next_id make_active with hids | hids
      · rw [hids]
        exact h.sublist ((List.sublist_cons_self _ _).append_left _)
      · rw [hids, List.append_assoc]
        exact h
    | set_active account_id => exact h
    | remove account_id =>
      have hids : (ids (remove_account data account_id).1).Sublist (ids data) :=
        List.eraseP_sublist.map StoredAccount.id
      exact h.sublist (hids.append (List.Sublist.refl _))

theorem upsert_active_stored {c : Credentials} {next_id : Text} {make_active : Bool}
    (h : make_active = true ∨ ActiveStored data) :
    ActiveStored (c.upsert data next_id make_active) := by
  intro active hactive
  have hmem : active ∈ ids (c.upsert data next_id make_active) := by
    rw [upsert_active_id] at hactive
    cases make_active with
    | true =>
      obtain rfl := Option.some.inj hactive
      exact upserted_mem
    | false =>
      obtain ⟨account, haccount, rfl⟩ := (h.resolve_left (by simp)) active hactive
      have hold : account.id ∈ ids data := List.mem_map_of_mem haccount
      rcases upsert_ids data c next_id false with hids | hids
      · rw [hids]
        exact hold
      · rw [hids]
        exact List.mem_append_left _ hold
  exact List.mem_map.mp hmem

theorem remove_active_stored {account_id : Text} (h : ActiveStored data) :
    ActiveStored (remove_account data account_id).1 := by
  intro active hactive
  unfold remove_account at *
  dsimp only at hactive ⊢
  split at hactive
  · cases hactive
  · next hne =>
    obtain ⟨account, haccount, hid⟩ := h active hactive
    refine ⟨account, ?_, hid⟩
    -- the active account is not the one that is removed
    apply (List.mem_eraseP_of_neg _).mpr haccount
    rw [hid, beq_iff_eq]
    rintro rfl
    exact hne hactive

theorem run_active_stored (h : ActiveStored data)
    (hset : ∀ account_id, .set_active account_id ∉ calls) : ActiveStored (run data calls) := by
  unfold run
  induction calls generalizing data with
  | nil => exact h
  | cons call calls ih =>
    rw [List.foldl_cons]
    apply ih
    · cases call with
      | upsert c next_id make_active => exact upsert_active_stored (.inr h)
      | set_active account_id => exact absurd List.mem_cons_self (hset account_id)
      | remove account_id => exact remove_active_stored h
    · intro account_id hmem
      exact hset account_id (List.mem_cons_of_mem _ hmem)

end sequences

/-! ## Logging in again -/

/-- After any calls, credentials that were stored before, and whose account was not removed since,
find that account again, if they say whose they are; all other credentials store a new account. No
id is stored twice, and an active id that a login has set is that of a stored account. -/
theorem login_again_finds_account (start : AccountsFile) (calls : List AccountCall)
    (hids : (ids start ++ calls.filterMap AccountCall.drawn).Nodup) :
    (ids (run start calls)).Nodup ∧
    (∀ before c first_id first_active between,
      calls = before ++ .upsert c first_id first_active :: between →
      let first := c.upserted (run start before) first_id first_active
      .remove first.id ∉ between → c.identified = true → ∀ next_id make_active,
        (c.upserted (run start calls) next_id make_active).id = first.id ∧
        (c.upsert (run start calls) next_id make_active).accounts.length =
          (run start calls).accounts.length) ∧
    (∀ c : Credentials, c.identified = false → ∀ next_id make_active,
      (c.upserted (run start calls) next_id make_active).id = next_id ∧
      (c.upsert (run start calls) next_id make_active).accounts.length =
        (run start calls).accounts.length + 1) ∧
    ∀ before c next_id between, calls = before ++ .upsert c next_id true :: between →
      (∀ account_id, .set_active account_id ∉ between) →
      ∀ active ∈ (run start calls).active_account_id,
        ∃ account ∈ (run start calls).accounts, account.id = active := by
  refine ⟨run_ids_nodup hids, ?_, ?_, ?_⟩
  · intro before c first_id first_active between hcalls first hremove hidentified next_id
      make_active
    have hfirst : known (c.upsert (run start before) first_id first_active) c = some first.id :=
      known_upserted hidentified
    have hnow : known (run start calls) c = some first.id := by
      rw [hcalls]
      unfold run
      rw [List.foldl_append, List.foldl_cons]
      exact run_known hfirst hremove
    exact upsert_known hnow
  · intro c hidentified next_id make_active
    rw [upserted_id, upsert_accounts]
    rcases upsert_account_spec (run start calls) c next_id with
      ⟨_, account, _, -, -, hfound, -⟩ | ⟨-, heq⟩
    · rw [identified_of_found hfound] at hidentified
      cases hidentified
    · rw [heq]
      exact ⟨new_account_id, List.length_append⟩
  · intro before c next_id between hcalls hset
    have hfirst : ActiveStored (c.upsert (run start before) next_id true) :=
      upsert_active_stored (.inl rfl)
    have hnow : ActiveStored (run start calls) := by
      rw [hcalls]
      unfold run
      rw [List.foldl_append, List.foldl_cons]
      exact run_active_stored hfirst hset
    exact hnow

/-- Two logins, one of them under the account's email in another spelling, a removal of another
account, and a key. -/
def logins : List AccountCall :=
  [.upsert (.Chatgpt ⟨some "user@example.com".toList, none, some "acct-1".toList⟩) "a".toList true,
    .upsert (.ApiKey "sk-1".toList) "b".toList false,
    .upsert (.Chatgpt ⟨some " User@Example.com".toList, none, some "acct-1".toList⟩) "c".toList
      false,
    .remove "b".toList]

theorem login_again_after_logins :
    (ids (run ⟨none, []⟩ logins)).Nodup ∧
      ((Credentials.Chatgpt ⟨some "user@example.com".toList, none, some "acct-1".toList⟩).upserted
        (run ⟨none, []⟩ logins) "d".toList false).id = "a".toList :=
  have h := login_again_finds_account ⟨none, []⟩ logins (by decide +kernel)
  ⟨h.1, ((h.2.1 [] _ _ _ _ rfl) (by decide +kernel) rfl "d".toList false).1⟩

/-- Token data without an account id, which is stored twice. -/
theorem login_again_without_account_id :
    let tokens : Credentials := .Chatgpt ⟨some "user@example.com".toList, none, none⟩
    let data := run ⟨none, []⟩ [.upsert tokens "a".toList true]
    (tokens.upserted ⟨none, []⟩ "a".toList true).id = "a".toList ∧
      (tokens.upserted data "b".toList true).id = "b".toList ∧
      ids (tokens.upsert data "b".toList true) = ["a".toList, "b".toList] := by
  decide +kernel

end Ecode.auth
