-- Which rate limit warnings are logged again (`record_threshold_log` and
-- `record_rate_limit_warning` in core/src/account_usage.rs): once a window, with rules for a
-- reset that passes, moves or is not known.
import Ecode.RefreshAttempts
import Ecode.Runs

open Ecode.calendar Ecode.runs

namespace Ecode.account_usage

def UNKNOWN_RESET_RELOG_INTERVAL : Int := 24 * HOUR

variable {F : Type}

/-- The entry that was found may be logged again. -/
def should_clear (existing : RateLimitWarningRecord F) (reset_at : Option DateTime)
    (observed_at : DateTime) : Bool :=
  let reset_moved_earlier :=
    match existing.reset_at, reset_at with
    | some prev, some next => decide (next + RESET_PASSED_TOLERANCE < prev)
    | _, _ => false
  let logged_after_prev_reset :=
    match existing.logged_at, existing.reset_at with
    | some logged, some prev => decide (logged ≥ prev)
    | _, _ => false
  let prev_reset_elapsed :=
    match existing.reset_at with
    | some prev => decide (observed_at + RESET_PASSED_TOLERANCE ≥ prev)
    | none => false
  let unknown_reset_elapsed :=
    (existing.reset_at.isNone || reset_at.isNone) &&
      existing.logged_at.any (fun logged => observed_at - logged ≥ UNKNOWN_RESET_RELOG_INTERVAL)
  reset_moved_earlier || (prev_reset_elapsed && !logged_after_prev_reset) || unknown_reset_elapsed

/-- What `record_threshold_log` makes of the entry that it has found. -/
def relog (existing : RateLimitWarningRecord F) (reset_at : Option DateTime)
    (observed_at : DateTime) : RateLimitWarningRecord F × Bool :=
  match if should_clear existing reset_at observed_at then none else existing.logged_at with
  | none => ({ existing with reset_at := reset_at, logged_at := some observed_at }, true)
  | some logged => ({ existing with reset_at := reset_at, logged_at := some logged }, false)

section logs

-- `near a b` is `(a - b).abs() < f64::EPSILON`
variable (near : F → F → Bool) (threshold : F)

/-- The logs after the call, and whether the warning is to be logged. -/
def record_threshold_log (reset_at : Option DateTime) (observed_at : DateTime) :
    List (RateLimitWarningRecord F) → List (RateLimitWarningRecord F) × Bool
  | [] => ([⟨threshold, reset_at, some observed_at⟩], true)
  | entry :: logs =>
    if near entry.threshold threshold then
      let relogged := relog entry reset_at observed_at
      (relogged.1 :: logs, relogged.2)
    else
      let recorded := record_threshold_log reset_at observed_at logs
      (entry :: recorded.1, recorded.2)

end logs

inductive RateLimitWarningScope where
  | Primary
  | Secondary
  deriving DecidableEq, Repr

def logs_of (info : RateLimitInfo F) : RateLimitWarningScope → List (RateLimitWarningRecord F)
  | .Primary => info.primary_threshold_logs
  | .Secondary => info.secondary_threshold_logs

def set_logs (info : RateLimitInfo F) (logs : List (RateLimitWarningRecord F)) :
    RateLimitWarningScope → RateLimitInfo F
  | .Primary => { info with primary_threshold_logs := logs }
  | .Secondary => { info with secondary_threshold_logs := logs }

/-- The record after the call, and whether the warning is to be logged. -/
def record_rate_limit_warning (near : F → F → Bool) (plan : Option Text)
    (scope : RateLimitWarningScope) (threshold : F) (reset_at : Option DateTime)
    (observed_at : DateTime) (data : AccountUsageData F) : AccountUsageData F × Bool :=
  let data := data.apply_plan plan
  let info := data.rate_limit.getD {}
  let recorded := record_threshold_log near threshold reset_at observed_at (logs_of info scope)
  ({ data with
      last_updated := observed_at
      rate_limit := some (set_logs info recorded.1 scope) },
    recorded.2)

/-- A warning is recorded in the logs of its scope, and those of the other scope stay. -/
theorem record_rate_limit_warning_spec (near : F → F → Bool) (plan : Option Text)
    (scope : RateLimitWarningScope) (threshold : F) (reset_at : Option DateTime)
    (observed_at : DateTime) (data : AccountUsageData F) (other : RateLimitWarningScope) :
    (record_rate_limit_warning near plan scope threshold reset_at observed_at data).2 =
        (record_threshold_log near threshold reset_at observed_at
          (logs_of (info_of data) scope)).2 ∧
      logs_of (info_of (record_rate_limit_warning near plan scope threshold reset_at observed_at
        data).1) other =
        if other = scope then
          (record_threshold_log near threshold reset_at observed_at
            (logs_of (info_of data) scope)).1
        else logs_of (info_of data) other := by
  unfold record_rate_limit_warning info_of
  dsimp only
  rw [apply_plan_rate_limit]
  refine ⟨rfl, ?_⟩
  cases scope with
  | Primary =>
    cases other with
    | Primary => rfl
    | Secondary => rfl
  | Secondary =>
    cases other with
    | Primary => rfl
    | Secondary => rfl

/-! ## One entry -/

/-- Why an entry that was logged is logged again. -/
def Relogs (entry : RateLimitWarningRecord F) (logged : DateTime) (reset_at : Option DateTime)
    (observed_at : DateTime) : Prop :=
  (∃ prev ∈ entry.reset_at, ∃ next ∈ reset_at, next + RESET_PASSED_TOLERANCE < prev) ∨
  (∃ prev ∈ entry.reset_at, prev ≤ observed_at + RESET_PASSED_TOLERANCE ∧ logged < prev) ∨
  ((entry.reset_at = none ∨ reset_at = none) ∧ UNKNOWN_RESET_RELOG_INTERVAL ≤ observed_at - logged)

section relog

variable {entry : RateLimitWarningRecord F} {logged observed_at : DateTime}
  {reset_at : Option DateTime}

theorem should_clear_iff (h : entry.logged_at = some logged) :
    should_clear entry reset_at observed_at = true ↔ Relogs entry logged reset_at observed_at := by
  unfold should_clear Relogs
  rw [h]
  cases entry.reset_at with
  | none => simp
  | some prev =>
    cases reset_at with
    | none => simp
    | some next => simp

/-- An entry that was logged keeps the reported reset, and when it is logged again the time of
that. -/
theorem relog_spec (reset_at : Option DateTime) (observed_at : DateTime)
    (h : entry.logged_at = some logged) :
    ((relog entry reset_at observed_at).2 = true ↔ Relogs entry logged reset_at observed_at) ∧
      (relog entry reset_at observed_at).1 =
        { threshold := entry.threshold, reset_at := reset_at
          logged_at := some (if (relog entry reset_at observed_at).2 then observed_at
            else logged) } := by
  rw [← should_clear_iff h]
  unfold relog
  rw [h]
  cases should_clear entry reset_at observed_at with
  | true => exact ⟨Iff.rfl, rfl⟩
  | false => exact ⟨Iff.rfl, rfl⟩

end relog

/-! ## The entry of a threshold -/

section entries

variable (near : F → F → Bool) (threshold : F)

/-- The entry that a call for the threshold finds. -/
def entry_for (logs : List (RateLimitWarningRecord F)) : Option (RateLimitWarningRecord F) :=
  logs.find? (fun entry => near entry.threshold threshold)

/-- The entry that a call leaves: the one it has found, or a new one. -/
def entry_left (logs : List (RateLimitWarningRecord F)) (reset_at : Option DateTime)
    (observed_at : DateTime) : RateLimitWarningRecord F :=
  match entry_for near threshold logs with
  | some entry => (relog entry reset_at observed_at).1
  | none => ⟨threshold, reset_at, some observed_at⟩

end entries

section record

variable {near : F → F → Bool} {threshold : F} {logs : List (RateLimitWarningRecord F)}
  {reset_at : Option DateTime} {observed_at : DateTime}

theorem relog_threshold (entry : RateLimitWarningRecord F) (reset_at : Option DateTime)
    (observed_at : DateTime) :
    (relog entry reset_at observed_at).1.threshold = entry.threshold := by
  unfold relog
  split
  · rfl
  · rfl

theorem relog_logged (entry : RateLimitWarningRecord F) (reset_at : Option DateTime)
    (observed_at : DateTime) :
    ∃ logged, (relog entry reset_at observed_at).1.logged_at = some logged := by
  unfold relog
  split
  · exact ⟨_, rfl⟩
  · exact ⟨_, rfl⟩

/-- A call logs the warning when it finds no entry, and else as the entry says. -/
theorem record_result :
    (record_threshold_log near threshold reset_at observed_at logs).2 =
      match entry_for near threshold logs with
      | some entry => (relog entry reset_at observed_at).2
      | none => true := by
  unfold entry_for
  induction logs with
  | nil => rfl
  | cons entry logs ih =>
    unfold record_threshold_log
    rw [List.find?_cons]
    cases near entry.threshold threshold with
    | true => rfl
    | false => exact ih

/-- The next call finds the entry that this one leaves, if the threshold is near to its own. -/
theorem entry_for_record (near : F → F → Bool) (threshold : F)
    (logs : List (RateLimitWarningRecord F)) (reset_at : Option DateTime)
    (observed_at : DateTime) :
    entry_for near threshold (record_threshold_log near threshold reset_at observed_at logs).1 =
      if near (entry_left near threshold logs reset_at observed_at).threshold threshold then
        some (entry_left near threshold logs reset_at observed_at)
      else none := by
  unfold entry_left entry_for
  induction logs with
  | nil =>
    by_cases hnear : near threshold threshold = true
    · simp [record_threshold_log, hnear]
    · simp [record_threshold_log, hnear]
  | cons entry logs ih =>
    unfold record_threshold_log
    rw [List.find?_cons]
    cases hnear : near entry.threshold threshold with
    | true =>
      dsimp only
      rw [if_pos rfl, relog_threshold, hnear, if_pos rfl, List.find?_cons, relog_threshold, hnear]
    | false =>
      dsimp only at ih ⊢
      rw [if_neg Bool.false_ne_true, List.find?_cons, hnear]
      exact ih

theorem entry_left_logged :
    ∃ logged, (entry_left near threshold logs reset_at observed_at).logged_at = some logged := by
  unfold entry_left
  split
  · exact relog_logged _ _ _
  · exact ⟨_, rfl⟩

end record

/-! ## Polls -/

/-- A call of `record_threshold_log` for a threshold. -/
structure LogCall where
  reset_at : Option DateTime
  observed_at : DateTime
  deriving DecidableEq, Repr

/-- The logs, the entry that the last call left, and whether a call has logged the warning. -/
structure Polled (F : Type) where
  logs : List (RateLimitWarningRecord F)
  left : Option (RateLimitWarningRecord F) := none
  logged : Bool := false

section polls

variable (near : F → F → Bool) (threshold : F)

/-- What the calls return. -/
def results : List (RateLimitWarningRecord F) → List LogCall → List Bool
  | _, [] => []
  | logs, call :: calls =>
    let recorded := record_threshold_log near threshold call.reset_at call.observed_at logs
    recorded.2 :: results recorded.1 calls

def poll (s : Polled F) (call : LogCall) : Option (Polled F) :=
  let recorded := record_threshold_log near threshold call.reset_at call.observed_at s.logs
  some
    { logs := recorded.1
      left := some (entry_left near threshold s.logs call.reset_at call.observed_at)
      logged := s.logged || recorded.2 }

/-- The warning may be logged once more: the call is not observed before the reset that is stored,
the reported reset moved earlier, or the reset was unknown for the fallback interval. -/
def MayRelog (left : RateLimitWarningRecord F) (call : LogCall) : Prop :=
  (∀ reset ∈ left.reset_at, reset ≤ call.observed_at) ∨
  (∃ reset ∈ left.reset_at, ∃ next ∈ call.reset_at, next < reset) ∨
  ((left.reset_at = none ∨ call.reset_at = none) ∧
    ∃ logged ∈ left.logged_at, UNKNOWN_RESET_RELOG_INTERVAL ≤ call.observed_at - logged)

/-- Once a call has logged the warning, this one logs it only if it may. -/
def Silent (s : Polled F) (call : LogCall) : Prop :=
  s.logged = true → ∀ left ∈ s.left,
    (record_threshold_log near threshold call.reset_at call.observed_at s.logs).2 = true →
      MayRelog left call

/-- Once a call has logged the warning, this one may log it, or its threshold is near to that of the
entry, as every finite one is to itself, and it is observed before the tolerance of the stored
reset begins, or the warning was logged at that reset or after it. -/
def NotLate (s : Polled F) (call : LogCall) : Prop :=
  s.logged = true → ∀ left ∈ s.left, MayRelog left call ∨
    (near left.threshold threshold = true ∧
      ∀ reset ∈ left.reset_at, call.observed_at + RESET_PASSED_TOLERANCE < reset ∨
        ∃ logged ∈ left.logged_at, reset ≤ logged)

end polls

section runs

variable {near : F → F → Bool} {threshold : F} {s t : Polled F} {call : LogCall}

/-- The entry that the last call left was logged, and the next call finds it if it can. -/
def Tracked (near : F → F → Bool) (threshold : F) (s : Polled F) : Prop :=
  ∀ left ∈ s.left, (∃ logged, left.logged_at = some logged) ∧
    entry_for near threshold s.logs =
      if near left.threshold threshold then some left else none

theorem poll_tracked (h : poll near threshold s call = some t) : Tracked near threshold t := by
  obtain rfl := Option.some.inj h
  rintro left ⟨⟩
  exact ⟨entry_left_logged, entry_for_record _ _ _ _ _⟩

/-- An entry that is logged again although it may not be is one of which the tolerance before the
stored reset has begun. -/
theorem relogs_iff {left : RateLimitWarningRecord F} {logged : DateTime}
    (hlogged : left.logged_at = some logged) :
    (Relogs left logged call.reset_at call.observed_at → MayRelog left call) ↔
      MayRelog left call ∨ ∀ reset ∈ left.reset_at,
        call.observed_at + RESET_PASSED_TOLERANCE < reset ∨ ∃ l ∈ left.logged_at, reset ≤ l := by
  constructor
  · intro h
    by_cases hmay : MayRelog left call
    · exact .inl hmay
    · apply Or.inr
      intro reset hreset
      by_contra hlate
      rw [not_or, not_lt] at hlate
      apply hmay
      apply h
      refine .inr (.inl ⟨reset, hreset, hlate.1, ?_⟩)
      by_contra hle
      exact hlate.2 ⟨logged, hlogged, not_lt.mp hle⟩
  · rintro (hmay | hnot) hrelogs
    · exact hmay
    · rcases hrelogs with ⟨prev, hprev, next, hnext, hlt⟩ | ⟨prev, hprev, hlate, hlt⟩ |
        ⟨hnone, hlong⟩
      · refine .inr (.inl ⟨prev, hprev, next, hnext, ?_⟩)
        unfold RESET_PASSED_TOLERANCE SECOND at hlt
        linarith
      · exfalso
        rcases hnot prev hprev with hbefore | ⟨l, hl, hle⟩
        · exact absurd hlate (not_le.mpr hbefore)
        · rw [hlogged] at hl
          obtain rfl := Option.some.inj hl
          exact absurd hlt (not_lt.mpr hle)
      · exact .inr (.inr ⟨hnone, logged, hlogged, hlong⟩)

theorem silent_iff (htracked : Tracked near threshold s) :
    Silent near threshold s call ↔ NotLate near threshold s call := by
  unfold Silent NotLate
  apply imp_congr_right
  intro _
  apply forall_congr'
  intro left
  apply imp_congr_right
  intro hleft
  obtain ⟨⟨logged, hlogged⟩, hfind⟩ := htracked left hleft
  rw [record_result, hfind]
  by_cases hnear : near left.threshold threshold = true
  · rw [if_pos hnear]
    dsimp only
    rw [(relog_spec _ _ hlogged).1, relogs_iff hlogged]
    simp [hnear]
  · rw [if_neg hnear]
    simp [hnear]

end runs

/-! ## One window -/

section window

variable {near : F → F → Bool} {threshold : F} {logs : List (RateLimitWarningRecord F)}
  {reset logged : DateTime} {entry : RateLimitWarningRecord F}

/-- Calls that all report the same reset. -/
def same_window (reset : DateTime) (times : List DateTime) : List LogCall :=
  times.map fun observed_at => ⟨some reset, observed_at⟩

/-- An entry of the window is logged again when the tolerance before its reset has begun. -/
theorem relogs_in_window {observed_at : DateTime} (hreset : entry.reset_at = some reset)
    (hlogged : logged < reset) :
    Relogs entry logged (some reset) observed_at ↔
      reset ≤ observed_at + RESET_PASSED_TOLERANCE := by
  unfold Relogs
  rw [hreset]
  constructor
  · rintro (⟨_, ⟨⟩, _, ⟨⟩, hlt⟩ | ⟨_, ⟨⟩, hle, -⟩ | ⟨hnone, -⟩)
    · unfold RESET_PASSED_TOLERANCE SECOND at hlt
      linarith
    · exact hle
    · simp at hnone
  · intro hle
    exact .inr (.inl ⟨reset, rfl, hle, hlogged⟩)

/-- After the warning was logged in a window, the polls are silent exactly while they come before
the tolerance of its reset. -/
theorem window_silent_iff (times : List DateTime)
    (hentry : entry_for near threshold logs = some entry) (hreset : entry.reset_at = some reset)
    (hlogged : entry.logged_at = some logged) (hlt : logged < reset) :
    results near threshold logs (same_window reset times) = List.replicate times.length false ↔
      ∀ t ∈ times, t + RESET_PASSED_TOLERANCE < reset := by
  induction times generalizing logs entry with
  | nil => simp [same_window, results]
  | cons t times ih =>
    have hnear : near entry.threshold threshold = true := by
      unfold entry_for at hentry
      simpa using List.find?_some hentry
    obtain ⟨hresult, hrecord⟩ := relog_spec (some reset) t hlogged
    rw [relogs_in_window hreset hlt] at hresult
    have hnext := entry_for_record near threshold logs (some reset) t
    have hleft : entry_left near threshold logs (some reset) t =
        (relog entry (some reset) t).1 := by
      unfold entry_left
      rw [hentry]
    rw [hleft, relog_threshold, if_pos hnear] at hnext
    have hresults : results near threshold logs (same_window reset (t :: times)) =
        (relog entry (some reset) t).2 ::
          results near threshold (record_threshold_log near threshold (some reset) t logs).1
            (same_window reset times) := by
      rw [same_window, List.map_cons, results, record_result, hentry]
      rfl
    rw [hresults, List.length_cons, List.replicate_succ, List.cons.injEq, List.forall_mem_cons]
    cases hcase : (relog entry (some reset) t).2 with
    | true =>
      rw [hcase] at hresult
      have hlate := hresult.mp rfl
      refine iff_of_false (fun h => Bool.noConfusion h.1) ?_
      rintro ⟨hbefore, -⟩
      exact absurd hlate (not_le.mpr hbefore)
    | false =>
      rw [hcase] at hresult hrecord
      have hbefore : t + RESET_PASSED_TOLERANCE < reset := by
        by_contra hlate
        exact Bool.false_ne_true (hresult.mpr (not_lt.mp hlate))
      rw [ih hnext (by rw [hrecord]) (by rw [hrecord]; rfl)]
      simp [hbefore]

/-- A threshold that is not near to itself is logged by every call. -/
theorem results_not_near (calls : List LogCall) (hnear : near threshold threshold = false)
    (hentry : entry_for near threshold logs = none) :
    results near threshold logs calls = List.replicate calls.length true := by
  induction calls generalizing logs with
  | nil => rfl
  | cons call calls ih =>
    have hnext := entry_for_record near threshold logs call.reset_at call.observed_at
    have hleft : (entry_left near threshold logs call.reset_at call.observed_at).threshold =
        threshold := by
      unfold entry_left
      rw [hentry]
    rw [hleft, hnear, if_neg Bool.false_ne_true] at hnext
    rw [results, record_result, hentry, ih hnext, List.length_cons, List.replicate_succ]

end window

/-! ## Once a window -/

/-- Polls of a threshold that has no entry yet, all before one reset: the first one logs the
warning, and it is the only one exactly when the threshold is near to itself and every later poll
comes before the tolerance of the reset. And in every run, each poll after one that has logged the
warning logs it only when it may, exactly when each of them comes before that tolerance or may log
it. -/
theorem warning_logged_once_iff (near : F → F → Bool) (threshold : F)
    (logs : List (RateLimitWarningRecord F)) :
    (entry_for near threshold logs = none → ∀ reset first times, first < reset →
      (results near threshold logs (same_window reset (first :: times)) =
          true :: List.replicate times.length false ↔
        ∀ t ∈ times, near threshold threshold = true ∧ t + RESET_PASSED_TOLERANCE < reset)) ∧
    ∀ calls, Guarded (poll near threshold) (Silent near threshold) { logs := logs } calls ↔
      Guarded (poll near threshold) (NotLate near threshold) { logs := logs } calls := by
  constructor
  · intro hentry reset first times hlt
    have hnext := entry_for_record near threshold logs (some reset) first
    have hleft : entry_left near threshold logs (some reset) first =
        ⟨threshold, some reset, some first⟩ := by
      unfold entry_left
      rw [hentry]
    have hresults : results near threshold logs (same_window reset (first :: times)) = true ::
        results near threshold (record_threshold_log near threshold (some reset) first logs).1
          (same_window reset times) := by
      rw [same_window, List.map_cons, results, record_result, hentry]
      rfl
    rw [hleft] at hnext
    rw [hresults, List.cons.injEq]
    by_cases hnear : near threshold threshold = true
    · rw [if_pos hnear] at hnext
      rw [window_silent_iff times hnext rfl rfl hlt]
      simp [hnear]
    · rw [if_neg hnear] at hnext
      rw [results_not_near _ (by simpa using hnear) hnext]
      cases times with
      | nil => simp [same_window]
      | cons t times =>
        refine iff_of_false (by simp [same_window, List.replicate_succ]) ?_
        intro h
        exact hnear (h t List.mem_cons_self).1
  · intro calls
    apply guarded_congr (I := Tracked near threshold)
    · intro s call t _ h
      exact poll_tracked h
    · intro s call htracked
      exact silent_iff htracked
    · simp [Tracked]

/-- `(a - b).abs() < f64::EPSILON` of numbers whose difference is exact. -/
def within_epsilon (a b : ℚ) : Bool := decide (|a - b| < 1 / 2 ^ 52)

/-- A warning that is logged ten minutes before the reset is logged again three seconds before
it. -/
theorem warning_logged_twice_before_reset :
    results within_epsilon 75 []
      (same_window (3600 * SECOND) [3000 * SECOND, 3597 * SECOND]) = [true, true] := by
  decide +kernel

end Ecode.account_usage
