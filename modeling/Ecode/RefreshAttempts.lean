-- Which attempts to refresh the rate limits of an account are due
-- (`mark_rate_limit_refresh_attempt_if_due` in core/src/account_usage.rs), and how far apart
-- they are.
import Ecode.AccountUsage

open Ecode.calendar

namespace Ecode.account_usage

def RESET_PASSED_TOLERANCE : Int := 5 * SECOND

variable {F : Type}

/-- No attempt was made, or the last one is a stale interval ago. -/
def stale_enough (last_attempt : Option DateTime) (now : DateTime) (stale_interval : Int) : Bool :=
  match last_attempt with
  | some attempt => decide (now - attempt ≥ stale_interval)
  | none => true

def refresh_due (info : RateLimitInfo F) (reset_at : Option DateTime) (now : DateTime)
    (stale_interval : Int) : Bool :=
  match reset_at with
  | some reset_at =>
    if now + RESET_PASSED_TOLERANCE < reset_at then false
    else if info.observed_at.any (fun observed => observed + RESET_PASSED_TOLERANCE ≥ reset_at) then
      false
    else
      let attempted_after_reset :=
        info.last_refresh_attempt_at.any (fun attempt => attempt ≥ reset_at)
      if !attempted_after_reset then true
      else stale_enough info.last_refresh_attempt_at now stale_interval
  | none => stale_enough info.last_refresh_attempt_at now stale_interval

/-- The record after the call, and whether the refresh is due. -/
def mark_rate_limit_refresh_attempt_if_due (plan : Option Text) (reset_at : Option DateTime)
    (now : DateTime) (stale_interval : Int) (data : AccountUsageData F) :
    AccountUsageData F × Bool :=
  let data := data.apply_plan plan
  let info := data.rate_limit.getD {}
  let due := refresh_due info reset_at now stale_interval
  let info := if due then { info with last_refresh_attempt_at := some now } else info
  ({ data with rate_limit := if due || data.rate_limit.isSome then some info else none }, due)

/-- A call of `mark_rate_limit_refresh_attempt_if_due`. -/
structure RefreshCall where
  plan : Option Text
  now : DateTime
  deriving DecidableEq, Repr

section attempts

variable (reset_at : Option DateTime) (stale_interval : Int)

/-- The times of the calls that return true. -/
def attempts : AccountUsageData F → List RefreshCall → List DateTime
  | _, [] => []
  | data, call :: calls =>
    let marked :=
      mark_rate_limit_refresh_attempt_if_due call.plan reset_at call.now stale_interval data
    if marked.2 then call.now :: attempts marked.1 calls else attempts marked.1 calls

/-- Any two attempts are at least the stale interval apart. -/
def Throttled (data : AccountUsageData F) (calls : List RefreshCall) : Prop :=
  (attempts reset_at stale_interval data calls).Pairwise (fun t t' => stale_interval ≤ t' - t)

/-- A call at most the tolerance before the reset is the last one for a stale interval. -/
def NoneAfterEarly (reset : DateTime) (calls : List RefreshCall) : Prop :=
  calls.Pairwise (fun call call' => reset ≤ call.now + RESET_PASSED_TOLERANCE → call.now < reset →
    stale_interval ≤ call'.now - call.now)

end attempts

/-! ## One call -/

section mark

variable {reset_at : Option DateTime} {stale_interval : Int} {data : AccountUsageData F}
  {call : RefreshCall} {calls : List RefreshCall}

def info_of (data : AccountUsageData F) : RateLimitInfo F := data.rate_limit.getD {}

theorem apply_plan_rate_limit (data : AccountUsageData F) (plan : Option Text) :
    (data.apply_plan plan).rate_limit = data.rate_limit := by
  unfold AccountUsageData.apply_plan
  cases plan with
  | none => rfl
  | some plan =>
    dsimp only
    split
    · rfl
    · rfl

/-- A call that is due sets the time of the last attempt, and no other changes what is known. -/
theorem mark_spec (plan : Option Text) (reset_at : Option DateTime) (now : DateTime)
    (stale_interval : Int) (data : AccountUsageData F) :
    (mark_rate_limit_refresh_attempt_if_due plan reset_at now stale_interval data).2 =
        refresh_due (info_of data) reset_at now stale_interval ∧
      info_of (mark_rate_limit_refresh_attempt_if_due plan reset_at now stale_interval data).1 =
        if refresh_due (info_of data) reset_at now stale_interval then
          { info_of data with last_refresh_attempt_at := some now }
        else info_of data := by
  unfold mark_rate_limit_refresh_attempt_if_due info_of
  dsimp only
  rw [apply_plan_rate_limit]
  refine ⟨rfl, ?_⟩
  cases refresh_due (data.rate_limit.getD {}) reset_at now stale_interval with
  | true => rfl
  | false =>
    cases data.rate_limit with
    | none => rfl
    | some info => rfl

/-- The first of the calls and the rest. -/
theorem attempts_cons (data : AccountUsageData F) (call : RefreshCall) (calls : List RefreshCall) :
    ∃ data' : AccountUsageData F,
      (refresh_due (info_of data) reset_at call.now stale_interval = false ∧
        info_of data' = info_of data ∧
        attempts reset_at stale_interval data (call :: calls) =
          attempts reset_at stale_interval data' calls) ∨
      (refresh_due (info_of data) reset_at call.now stale_interval = true ∧
        info_of data' = { info_of data with last_refresh_attempt_at := some call.now } ∧
        attempts reset_at stale_interval data (call :: calls) =
          call.now :: attempts reset_at stale_interval data' calls) := by
  obtain ⟨hdue, hinfo⟩ := mark_spec call.plan reset_at call.now stale_interval data
  refine ⟨(mark_rate_limit_refresh_attempt_if_due call.plan reset_at call.now stale_interval
    data).1, ?_⟩
  rw [attempts]
  dsimp only
  rw [hdue]
  cases hcase : refresh_due (info_of data) reset_at call.now stale_interval with
  | true =>
    rw [hcase, if_pos rfl] at hinfo
    exact .inr ⟨rfl, hinfo, rfl⟩
  | false =>
    rw [hcase, if_neg Bool.false_ne_true] at hinfo
    exact .inl ⟨rfl, hinfo, rfl⟩

theorem attempts_mem {data : AccountUsageData F} {t : DateTime}
    (h : t ∈ attempts reset_at stale_interval data calls) : ∃ call ∈ calls, call.now = t := by
  induction calls generalizing data with
  | nil => cases h
  | cons call calls ih =>
    obtain ⟨data', ⟨-, -, heq⟩ | ⟨-, -, heq⟩⟩ := attempts_cons data call calls
    · rw [heq] at h
      obtain ⟨call', hmem, hnow⟩ := ih h
      exact ⟨call', List.mem_cons_of_mem _ hmem, hnow⟩
    · rw [heq] at h
      rcases List.mem_cons.mp h with rfl | h
      · exact ⟨call, List.mem_cons_self, rfl⟩
      · obtain ⟨call', hmem, hnow⟩ := ih h
        exact ⟨call', List.mem_cons_of_mem _ hmem, hnow⟩

/-! ## Which calls are due -/

/-- After an attempt that is not before the reset a refresh is due only a stale interval later. -/
theorem due_after_attempt {info : RateLimitInfo F} {now attempt : DateTime}
    (hattempt : info.last_refresh_attempt_at = some attempt)
    (hreset : ∀ reset ∈ reset_at, reset ≤ attempt)
    (h : refresh_due info reset_at now stale_interval = true) : stale_interval ≤ now - attempt := by
  unfold refresh_due stale_enough at h
  cases reset_at with
  | none => simpa [hattempt] using h
  | some reset =>
    have hle : reset ≤ attempt := hreset reset rfl
    dsimp only at h
    split at h
    · cases h
    · split at h
      · cases h
      · simpa [hattempt, hle] using h

/-- Up to an attempt at the reset or after it a refresh is due from the tolerance before the reset
on. -/
theorem due_before_attempt {info : RateLimitInfo F} {now reset : DateTime}
    (hobserved : ∀ observed ∈ info.observed_at, observed + RESET_PASSED_TOLERANCE < reset)
    (hattempt : ∀ attempt ∈ info.last_refresh_attempt_at, attempt < reset) :
    refresh_due info (some reset) now stale_interval = true ↔
      reset ≤ now + RESET_PASSED_TOLERANCE := by
  have hunobserved : info.observed_at.any (fun observed =>
      observed + RESET_PASSED_TOLERANCE ≥ reset) = false := by
    cases hcase : info.observed_at with
    | none => rfl
    | some observed => simpa using hobserved observed hcase
  have hunattempted :
      info.last_refresh_attempt_at.any (fun attempt => attempt ≥ reset) = false := by
    cases hcase : info.last_refresh_attempt_at with
    | none => rfl
    | some attempt => simpa using hattempt attempt hcase
  unfold refresh_due
  dsimp only
  rw [hunobserved, hunattempted]
  split
  · next h => exact iff_of_false Bool.false_ne_true (not_le.mpr h)
  · next h => exact iff_of_true rfl (not_lt.mp h)

theorem not_due_observed {info : RateLimitInfo F} {now reset observed : DateTime}
    (hobserved : info.observed_at = some observed) (h : reset ≤ observed + RESET_PASSED_TOLERANCE) :
    refresh_due info (some reset) now stale_interval = false := by
  unfold refresh_due
  dsimp only
  split
  · rfl
  · rw [if_pos (by simp [hobserved, h])]

/-! ## Sequences of calls -/

theorem throttled_after_attempt (calls : List RefreshCall) {attempt : DateTime}
    (hstale : 0 < stale_interval)
    (hattempt : (info_of data).last_refresh_attempt_at = some attempt)
    (hreset : ∀ reset ∈ reset_at, reset ≤ attempt) :
    (∀ t ∈ attempts reset_at stale_interval data calls, stale_interval ≤ t - attempt) ∧
      Throttled reset_at stale_interval data calls := by
  unfold Throttled
  induction calls generalizing data attempt with
  | nil => exact ⟨by simp [attempts], .nil⟩
  | cons call calls ih =>
    obtain ⟨data', ⟨-, hinfo, heq⟩ | ⟨hdue, hinfo, heq⟩⟩ := attempts_cons data call calls
    · rw [heq]
      exact ih (by rw [hinfo, hattempt]) hreset
    · have hlater := due_after_attempt hattempt hreset hdue
      have hreset' : ∀ reset ∈ reset_at, reset ≤ call.now := by
        intro reset hmem
        have hle := hreset reset hmem
        linarith
      have hattempt' : (info_of data').last_refresh_attempt_at = some call.now := by rw [hinfo]
      obtain ⟨hrest, hapart⟩ := ih hattempt' hreset'
      rw [heq]
      refine ⟨?_, List.pairwise_cons.mpr ⟨hrest, hapart⟩⟩
      intro t ht
      rcases List.mem_cons.mp ht with rfl | ht
      · exact hlater
      · have := hrest t ht
        omega

/-- Without a reset every attempt counts. -/
theorem throttled_without_reset (hstale : 0 < stale_interval) :
    Throttled none stale_interval data calls := by
  induction calls generalizing data with
  | nil => exact .nil
  | cons call calls ih =>
    unfold Throttled
    obtain ⟨data', ⟨-, -, heq⟩ | ⟨-, hinfo, heq⟩⟩ := attempts_cons data call calls
    · rw [heq]
      exact ih
    · have hattempt : (info_of data').last_refresh_attempt_at = some call.now := by rw [hinfo]
      have hreset : ∀ reset ∈ (none : Option DateTime), reset ≤ call.now := by simp
      obtain ⟨hrest, hapart⟩ := throttled_after_attempt calls hstale hattempt hreset
      rw [heq]
      exact List.pairwise_cons.mpr ⟨hrest, hapart⟩

theorem throttled_observed {reset observed : DateTime}
    (hobserved : (info_of data).observed_at = some observed)
    (h : reset ≤ observed + RESET_PASSED_TOLERANCE) :
    attempts (some reset) stale_interval data calls = [] := by
  induction calls generalizing data with
  | nil => rfl
  | cons call calls ih =>
    obtain ⟨data', ⟨-, hinfo, heq⟩ | ⟨hdue, -, -⟩⟩ := attempts_cons data call calls
    · rw [heq]
      exact ih (by rw [hinfo, hobserved])
    · rw [not_due_observed hobserved h] at hdue
      cases hdue

theorem first_attempt {reset : DateTime}
    (hobserved : ∀ observed ∈ (info_of data).observed_at,
      observed + RESET_PASSED_TOLERANCE < reset)
    (hattempt : ∀ attempt ∈ (info_of data).last_refresh_attempt_at, attempt < reset)
    (h : reset ≤ call.now + RESET_PASSED_TOLERANCE) :
    call.now ∈ attempts (some reset) stale_interval data (call :: calls) := by
  have hdue : refresh_due (info_of data) (some reset) call.now stale_interval = true :=
    (due_before_attempt hobserved hattempt).mpr h
  obtain ⟨data', ⟨hnot, -, -⟩ | ⟨-, -, heq⟩⟩ := attempts_cons data call calls
  · rw [hdue] at hnot
    cases hnot
  · rw [heq]
    exact List.mem_cons_self

/-- After a time within the tolerance before the reset the next call is an attempt, so the attempts
come late enough after it exactly when the calls do. -/
theorem late_after_early {reset now : DateTime} (hearly : reset ≤ now + RESET_PASSED_TOLERANCE)
    (hfirst : ∀ call ∈ calls, now ≤ call.now)
    (horder : calls.Pairwise (fun call call' => call.now ≤ call'.now))
    (hobserved : ∀ observed ∈ (info_of data).observed_at,
      observed + RESET_PASSED_TOLERANCE < reset)
    (hattempt : ∀ attempt ∈ (info_of data).last_refresh_attempt_at, attempt < reset) :
    (∀ t ∈ attempts (some reset) stale_interval data calls, stale_interval ≤ t - now) ↔
      ∀ call ∈ calls, stale_interval ≤ call.now - now := by
  constructor
  · intro hapart call hmem
    cases calls with
    | nil => cases hmem
    | cons next calls =>
      obtain ⟨hnext, -⟩ := List.pairwise_cons.mp horder
      have hnow : now ≤ next.now := hfirst next List.mem_cons_self
      have hafter := hapart next.now (first_attempt hobserved hattempt
        (hearly.trans (Int.add_le_add_right hnow _)))
      have hlater : next.now ≤ call.now := by
        rcases List.mem_cons.mp hmem with rfl | hmem
        · exact Int.le_refl _
        · exact hnext call hmem
      linarith
  · intro hapart t ht
    obtain ⟨call, hmem, rfl⟩ := attempts_mem ht
    exact hapart call hmem

/-- Before any attempt that counts for the reset the attempts are apart exactly when no call comes
too early and too soon before another. -/
theorem throttled_before_attempt {reset : DateTime} (hstale : 0 < stale_interval)
    (horder : calls.Pairwise (fun call call' => call.now ≤ call'.now))
    (hobserved : ∀ observed ∈ (info_of data).observed_at,
      observed + RESET_PASSED_TOLERANCE < reset)
    (hattempt : ∀ attempt ∈ (info_of data).last_refresh_attempt_at, attempt < reset) :
    Throttled (some reset) stale_interval data calls ↔
      NoneAfterEarly stale_interval reset calls := by
  induction calls generalizing data with
  | nil => exact iff_of_true .nil .nil
  | cons call calls ih =>
    obtain ⟨hfirst, hrest⟩ := List.pairwise_cons.mp horder
    have hiff : refresh_due (info_of data) (some reset) call.now stale_interval = true ↔
        reset ≤ call.now + RESET_PASSED_TOLERANCE := due_before_attempt hobserved hattempt
    unfold Throttled NoneAfterEarly
    rw [List.pairwise_cons]
    obtain ⟨data', ⟨hdue, hinfo, heq⟩ | ⟨hdue, hinfo, heq⟩⟩ := attempts_cons data call calls
    · rw [hdue] at hiff
      rw [← hinfo] at hobserved hattempt
      rw [heq, ← Throttled, ih hrest hobserved hattempt]
      refine ⟨fun h => ⟨?_, h⟩, fun h => h.2⟩
      intro call' _ hearly
      exact absurd (hiff.mpr hearly) Bool.false_ne_true
    · have hearly := hiff.mp hdue
      have hattempt' : (info_of data').last_refresh_attempt_at = some call.now := by rw [hinfo]
      rw [heq, List.pairwise_cons, ← Throttled]
      by_cases hlt : call.now < reset
      · have hobserved' : ∀ observed ∈ (info_of data').observed_at,
            observed + RESET_PASSED_TOLERANCE < reset := by
          rw [hinfo]
          exact hobserved
        have hattempt'' : ∀ attempt ∈ (info_of data').last_refresh_attempt_at, attempt < reset := by
          rw [hattempt']
          rintro _ ⟨⟩
          exact hlt
        rw [ih hrest hobserved' hattempt'', NoneAfterEarly,
          late_after_early hearly hfirst hrest hobserved' hattempt'']
        simp only [hearly, hlt, forall_const]
      · -- this attempt counts for the reset
        have hreset : ∀ r ∈ some reset, r ≤ call.now := by
          rintro _ ⟨⟩
          exact not_lt.mp hlt
        obtain ⟨hapart, hthrottled⟩ := throttled_after_attempt calls hstale hattempt' hreset
        refine iff_of_true ⟨hapart, hthrottled⟩ ⟨?_, ?_⟩
        · intro call' _ _ hbefore
          exact absurd hbefore hlt
        · apply hrest.imp_of_mem
          intro a b ha _ _ _ hbefore
          exact absurd (lt_of_le_of_lt (hfirst a ha) hbefore) hlt

end mark

/-! ## How far apart the attempts are -/

/-- Without a reset, or once a snapshot or an attempt of the record counts for it, the attempts are
always a stale interval apart. Otherwise they are exactly when no call within the tolerance before
the reset is followed by another one within the stale interval. -/
theorem refresh_attempts_throttled_iff (reset_at : Option DateTime) (stale_interval : Int)
    (data : AccountUsageData F) (calls : List RefreshCall) (hstale : 0 < stale_interval)
    (horder : calls.Pairwise (fun call call' => call.now ≤ call'.now)) :
    Throttled reset_at stale_interval data calls ↔
      ∀ reset ∈ reset_at,
        (∃ observed ∈ (info_of data).observed_at, reset ≤ observed + RESET_PASSED_TOLERANCE) ∨
        (∃ attempt ∈ (info_of data).last_refresh_attempt_at, reset ≤ attempt) ∨
        NoneAfterEarly stale_interval reset calls := by
  cases reset_at with
  | none =>
    exact iff_of_true (throttled_without_reset hstale) (by simp)
  | some reset =>
    simp only [Option.mem_some_iff, forall_eq']
    by_cases hobserved : ∃ observed ∈ (info_of data).observed_at,
        reset ≤ observed + RESET_PASSED_TOLERANCE
    · refine iff_of_true ?_ (.inl hobserved)
      obtain ⟨observed, hmem, hle⟩ := hobserved
      unfold Throttled
      rw [throttled_observed hmem hle]
      exact .nil
    · by_cases hattempt : ∃ attempt ∈ (info_of data).last_refresh_attempt_at, reset ≤ attempt
      · refine iff_of_true ?_ (.inr (.inl hattempt))
        obtain ⟨attempt, hmem, hle⟩ := hattempt
        have hreset : ∀ r ∈ some reset, r ≤ attempt := by
          rintro _ ⟨⟩
          exact hle
        exact (throttled_after_attempt calls hstale hmem hreset).2
      · simp only [hobserved, hattempt, false_or]
        push Not at hobserved hattempt
        exact throttled_before_attempt hstale horder hobserved hattempt

/-- A poll every ten minutes. -/
def polls : List RefreshCall :=
  [⟨none, 0⟩, ⟨some "pro".toList, 600 * SECOND⟩, ⟨none, 1200 * SECOND⟩]

theorem polls_are_throttled :
    Throttled (some (600 * SECOND)) (1800 * SECOND) (.new "a".toList 0 : AccountUsageData Unit)
      polls :=
  (refresh_attempts_throttled_iff (some (600 * SECOND)) (1800 * SECOND) (.new "a".toList 0) polls
    (by decide) (by decide)).mpr (by
      rintro _ ⟨⟩
      exact .inr (.inr (by unfold NoneAfterEarly; decide)))

/-- Two calls within the last five seconds before the reset, one second apart, are both due. -/
theorem refresh_twice_before_reset :
    let calls : List RefreshCall := [⟨none, 596 * SECOND⟩, ⟨none, 597 * SECOND⟩]
    let data : AccountUsageData Unit := .new "a".toList 0
    attempts (some (600 * SECOND)) (1800 * SECOND) data calls = [596 * SECOND, 597 * SECOND] ∧
      ¬Throttled (some (600 * SECOND)) (1800 * SECOND) data calls := by
  unfold Throttled
  decide

end Ecode.account_usage
