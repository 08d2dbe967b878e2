-- The usage record of an account: its totals, the entries of the last hour, and
-- the hourly, daily and monthly buckets that older entries are compacted into.
import Ecode.Ascending
import Ecode.Calendar
import Ecode.ExecStreams

open Ecode.ascending Ecode.calendar

namespace Ecode.account_usage

open history (saturating_add U64_MAX)

/-! ## The record -/

inductive TokenField where
  | input_tokens
  | cached_input_tokens
  | output_tokens
  | reasoning_output_tokens
  | total_tokens
  deriving DecidableEq, Repr

/-- The fields of a `TokenUsage` that are counted. -/
structure TokenUsage where
  input_tokens : Nat
  cached_input_tokens : Nat
  output_tokens : Nat
  reasoning_output_tokens : Nat
  total_tokens : Nat
  deriving DecidableEq, Repr

structure TokenTotals where
  input_tokens : Nat := 0
  cached_input_tokens : Nat := 0
  output_tokens : Nat := 0
  reasoning_output_tokens : Nat := 0
  total_tokens : Nat := 0
  deriving DecidableEq, Repr

def TokenUsage.get (u : TokenUsage) : TokenField → Nat
  | .input_tokens => u.input_tokens
  | .cached_input_tokens => u.cached_input_tokens
  | .output_tokens => u.output_tokens
  | .reasoning_output_tokens => u.reasoning_output_tokens
  | .total_tokens => u.total_tokens

namespace TokenTotals

def get (t : TokenTotals) : TokenField → Nat
  | .input_tokens => t.input_tokens
  | .cached_input_tokens => t.cached_input_tokens
  | .output_tokens => t.output_tokens
  | .reasoning_output_tokens => t.reasoning_output_tokens
  | .total_tokens => t.total_tokens

def add_usage (t : TokenTotals) (usage : TokenUsage) : TokenTotals where
  input_tokens := saturating_add t.input_tokens usage.input_tokens
  cached_input_tokens := saturating_add t.cached_input_tokens usage.cached_input_tokens
  output_tokens := saturating_add t.output_tokens usage.output_tokens
  reasoning_output_tokens := saturating_add t.reasoning_output_tokens usage.reasoning_output_tokens
  total_tokens := saturating_add t.total_tokens usage.total_tokens

def add_totals (t other : TokenTotals) : TokenTotals where
  input_tokens := saturating_add t.input_tokens other.input_tokens
  cached_input_tokens := saturating_add t.cached_input_tokens other.cached_input_tokens
  output_tokens := saturating_add t.output_tokens other.output_tokens
  reasoning_output_tokens := saturating_add t.reasoning_output_tokens other.reasoning_output_tokens
  total_tokens := saturating_add t.total_tokens other.total_tokens

def from_usage (usage : TokenUsage) : TokenTotals := add_usage {} usage

@[simp]
theorem default_get (f : TokenField) : ({} : TokenTotals).get f = 0 := by
  cases f <;> rfl

@[simp]
theorem add_usage_get (t : TokenTotals) (usage : TokenUsage) (f : TokenField) :
    (t.add_usage usage).get f = saturating_add (t.get f) (usage.get f) := by
  cases f <;> rfl

@[simp]
theorem add_totals_get (t other : TokenTotals) (f : TokenField) :
    (t.add_totals other).get f = saturating_add (t.get f) (other.get f) := by
  cases f <;> rfl

@[simp]
theorem from_usage_get (usage : TokenUsage) (f : TokenField) :
    (from_usage usage).get f = saturating_add 0 (usage.get f) := by
  simp [from_usage]

end TokenTotals

structure TokenWindowEntry where
  timestamp : DateTime
  tokens : TokenTotals
  deriving DecidableEq, Repr

structure AggregatedUsageEntry where
  period_start : DateTime
  tokens : TokenTotals
  deriving DecidableEq, Repr

/-- A snapshot of the rate limits, with `F` for the floating-point numbers. -/
structure RateLimitSnapshotEvent (F : Type) where
  primary_used_percent : F
  secondary_used_percent : F
  primary_to_secondary_ratio_percent : F
  primary_window_minutes : Nat
  secondary_window_minutes : Nat
  primary_reset_after_seconds : Option Nat
  secondary_reset_after_seconds : Option Nat
  deriving DecidableEq, Repr

structure RateLimitWarningRecord (F : Type) where
  threshold : F
  reset_at : Option DateTime
  logged_at : Option DateTime
  deriving DecidableEq, Repr

structure RateLimitInfo (F : Type) where
  snapshot : Option (RateLimitSnapshotEvent F) := none
  observed_at : Option DateTime := none
  primary_next_reset_at : Option DateTime := none
  secondary_next_reset_at : Option DateTime := none
  last_refresh_attempt_at : Option DateTime := none
  last_usage_limit_hit_at : Option DateTime := none
  primary_threshold_logs : List (RateLimitWarningRecord F) := []
  secondary_threshold_logs : List (RateLimitWarningRecord F) := []
  deriving DecidableEq, Repr

structure AccountUsageData (F : Type) where
  version : Nat
  account_id : Text
  plan : Option Text
  last_updated : DateTime
  totals : TokenTotals
  hourly_entries : List TokenWindowEntry
  hourly_buckets : List AggregatedUsageEntry
  daily_buckets : List AggregatedUsageEntry
  monthly_buckets : List AggregatedUsageEntry
  tokens_last_hour : TokenTotals
  rate_limit : Option (RateLimitInfo F)
  deriving DecidableEq, Repr

def USAGE_VERSION : Nat := 1
def HOURLY_HISTORY_DAYS : Int := 183

/-- One step of a `BTreeMap` of totals: the entry of `bucket`, made with a default if there is
none, gets `tokens`. -/
def roll_into (rollover : List (DateTime × TokenTotals)) (bucket : DateTime)
    (tokens : TokenTotals) : List (DateTime × TokenTotals) :=
  upsert Prod.fst bucket (bucket, TokenTotals.add_totals {} tokens)
    (fun e => (e.1, e.2.add_totals tokens)) rollover

def add_to_bucket (buckets : List AggregatedUsageEntry) (period_start : DateTime)
    (tokens : TokenTotals) : List AggregatedUsageEntry :=
  search_upsert AggregatedUsageEntry.period_start period_start { period_start, tokens }
    (fun entry => { entry with tokens := entry.tokens.add_totals tokens }) buckets

/-- `sort_by_key(|item| item.period_start)`. -/
def sort_by_period (buckets : List AggregatedUsageEntry) : List AggregatedUsageEntry :=
  buckets.mergeSort (fun a b => a.period_start ≤ b.period_start)

namespace AccountUsageData

variable {F : Type}

def new (account_id : Text) (now : DateTime) : AccountUsageData F where
  version := USAGE_VERSION
  account_id := account_id
  plan := none
  last_updated := now
  totals := {}
  hourly_entries := []
  hourly_buckets := []
  daily_buckets := []
  monthly_buckets := []
  tokens_last_hour := {}
  rate_limit := none

def apply_plan (d : AccountUsageData F) : Option Text → AccountUsageData F
  | some plan => if d.plan ≠ some plan then { d with plan := some plan } else d
  | none => d

def compact_hourly_buckets (d : AccountUsageData F) (now : DateTime) : AccountUsageData F :=
  if d.hourly_buckets = [] then d
  else
    let current_hour := truncate_to_hour now
    let cutoff := current_hour - 24 * HOUR
    let remaining := d.hourly_buckets.filter (fun entry => entry.period_start ≥ cutoff)
    { d with hourly_buckets := sort_by_period remaining }

/-- One entry of the loop of `compact_daily_buckets`: what remains and what goes to its month. -/
def settle_day (cutoff : DateTime)
    (acc : List AggregatedUsageEntry × List (DateTime × TokenTotals))
    (entry : AggregatedUsageEntry) : List AggregatedUsageEntry × List (DateTime × TokenTotals) :=
  if entry.period_start < cutoff then
    (acc.1, roll_into acc.2 (truncate_to_month entry.period_start) entry.tokens)
  else (acc.1 ++ [entry], acc.2)

def compact_daily_buckets (d : AccountUsageData F) (now : DateTime) : AccountUsageData F :=
  if d.daily_buckets = [] then d
  else
    let today := truncate_to_day now
    let cutoff := today - 30 * DAY
    let (remaining, monthly_rollover) := d.daily_buckets.foldl (settle_day cutoff) ([], [])
    { d with
      daily_buckets := sort_by_period remaining
      monthly_buckets := monthly_rollover.foldl (fun b p => add_to_bucket b p.1 p.2)
        d.monthly_buckets }

/-- One entry of the first loop of `compact_usage`: what is recent and what goes to its hour. -/
def settle_entry (recent_cutoff : DateTime)
    (acc : List TokenWindowEntry × List (DateTime × TokenTotals)) (entry : TokenWindowEntry) :
    List TokenWindowEntry × List (DateTime × TokenTotals) :=
  if entry.timestamp ≥ recent_cutoff then (acc.1 ++ [entry], acc.2)
  else (acc.1, roll_into acc.2 (truncate_to_hour entry.timestamp) entry.tokens)

/-- One hour of the second loop of `compact_usage`. -/
def settle_hour (d : AccountUsageData F) (p : DateTime × TokenTotals) : AccountUsageData F :=
  let day_start := truncate_to_day p.1
  { d with
    daily_buckets := add_to_bucket d.daily_buckets day_start p.2
    hourly_buckets := add_to_bucket d.hourly_buckets p.1 p.2 }

def compact_usage (d : AccountUsageData F) (now : DateTime) : AccountUsageData F :=
  let recent_cutoff := now - HOUR
  let (recent, rollover) := d.hourly_entries.foldl (settle_entry recent_cutoff) ([], [])
  let d := rollover.foldl settle_hour { d with hourly_entries := recent }
  (d.compact_hourly_buckets now).compact_daily_buckets now

def update_last_hour (d : AccountUsageData F) (now : DateTime) : AccountUsageData F :=
  let d := d.compact_usage now
  let hourly_cutoff := now - HOUR
  let history_cutoff := now - HOURLY_HISTORY_DAYS * DAY
  let hourly_entries := d.hourly_entries.filter (fun entry => entry.timestamp ≥ history_cutoff)
  let totals := hourly_entries.foldl (fun totals entry =>
    if entry.timestamp < hourly_cutoff then totals else totals.add_totals entry.tokens)
    ({} : TokenTotals)
  { d with hourly_entries, tokens_last_hour := totals }

end AccountUsageData

variable {F : Type}

/-- The record with a usage in its totals and among its entries. -/
def AccountUsageData.observe (data : AccountUsageData F) (usage : TokenUsage)
    (observed_at : DateTime) : AccountUsageData F :=
  { data with
    last_updated := observed_at
    totals := data.totals.add_usage usage
    hourly_entries := data.hourly_entries ++
      [{ timestamp := observed_at, tokens := TokenTotals.from_usage usage }] }

/-- What `record_token_usage` does to the record. An instant that is too far from 1970 for the
clock type makes the call panic before anything is written. -/
def record_token_usage (usage : TokenUsage) (observed_at : DateTime) (data : AccountUsageData F) :
    AccountUsageData F :=
  (data.observe usage observed_at).update_last_hour observed_at

/-! ## What the entries and the buckets hold -/

/-- The sum of a field over the entries of a list. -/
def held {α : Type} (tokens : α → TokenTotals) (f : TokenField) (l : List α) : Nat :=
  (l.map (fun a => (tokens a).get f)).sum

section held

variable {α : Type} {tokens : α → TokenTotals} {f : TokenField} {l : List α}

@[simp]
theorem held_nil : held tokens f [] = 0 := rfl

@[simp]
theorem held_cons {a : α} : held tokens f (a :: l) = (tokens a).get f + held tokens f l := by
  simp [held]

@[simp]
theorem held_append {l' : List α} :
    held tokens f (l ++ l') = held tokens f l + held tokens f l' := by
  simp [held]

theorem get_le_held {a : α} (h : a ∈ l) : (tokens a).get f ≤ held tokens f l :=
  List.le_sum_of_mem (List.mem_map_of_mem h)

theorem saturating_add_exact {a b : Nat} (h : a + b ≤ U64_MAX) : saturating_add a b = a + b := by
  unfold saturating_add
  omega

/-- Where the sum stays a `u64`, an entry that gets tokens adds just these. -/
theorem held_upsert {key : α → DateTime} {k : DateTime} {fresh : α} {change : α → α} {n : Nat}
    (hroom : held tokens f l + n ≤ U64_MAX) (hfresh : (tokens fresh).get f = n)
    (hchange : ∀ a, (tokens (change a)).get f = saturating_add ((tokens a).get f) n) :
    held tokens f (upsert key k fresh change l) = held tokens f l + n := by
  refine sum_upsert (w := fun a => (tokens a).get f) hfresh ?_
  intro a ha
  have hle : (tokens a).get f ≤ held tokens f l := get_le_held ha
  rw [hchange a, saturating_add_exact (by omega)]

end held

theorem held_roll_into {m : List (DateTime × TokenTotals)} {bucket : DateTime}
    {tokens : TokenTotals} {f : TokenField} (hroom : held Prod.snd f m + tokens.get f ≤ U64_MAX) :
    held Prod.snd f (roll_into m bucket tokens) = held Prod.snd f m + tokens.get f := by
  apply held_upsert hroom
  · rw [TokenTotals.add_totals_get, TokenTotals.default_get, saturating_add_exact (by omega)]
    omega
  · intro a
    exact TokenTotals.add_totals_get a.2 tokens f

theorem roll_into_keys {m : List (DateTime × TokenTotals)} {bucket : DateTime}
    {tokens : TokenTotals} {P : DateTime → Prop} (h : ∀ p ∈ m, P p.1) (hb : P bucket) :
    ∀ p ∈ roll_into m bucket tokens, P p.1 := by
  intro p hp
  rcases key_upsert hp rfl (fun _ => rfl) with hk | ⟨q, hq, hk⟩
  · rw [hk]
    exact hb
  · rw [hk]
    exact h q hq

/-- Buckets in order, each at the start of a period. -/
structure Tidy (Start : DateTime → Prop) (buckets : List AggregatedUsageEntry) : Prop where
  ascending : Ascending AggregatedUsageEntry.period_start buckets
  aligned : ∀ entry ∈ buckets, Start entry.period_start

section buckets

variable {Start : DateTime → Prop} {buckets : List AggregatedUsageEntry}

theorem Tidy.filter (h : Tidy Start buckets) (keep : AggregatedUsageEntry → Bool) :
    Tidy Start (buckets.filter keep) :=
  ⟨List.Pairwise.filter keep h.ascending,
    fun entry hentry => h.aligned entry (List.mem_of_mem_filter hentry)⟩

/-- Buckets in order stay as they are when they are sorted. -/
theorem Tidy.sort_by_period_eq (h : Tidy Start buckets) : sort_by_period buckets = buckets := by
  apply List.mergeSort_of_pairwise
  refine h.ascending.imp ?_
  intro a b hab
  exact decide_eq_true (le_of_lt hab)

theorem Tidy.add_to_bucket (h : Tidy Start buckets) {period_start : DateTime}
    (hstart : Start period_start) (tokens : TokenTotals) :
    Tidy Start (add_to_bucket buckets period_start tokens) := by
  unfold account_usage.add_to_bucket
  rw [search_upsert_eq h.ascending]
  refine ⟨h.ascending.upsert rfl (fun _ => rfl), ?_⟩
  intro entry hentry
  rcases key_upsert hentry rfl (fun _ => rfl) with hk | ⟨old, hold, hk⟩
  · rw [hk]
    exact hstart
  · rw [hk]
    exact h.aligned old hold

theorem Tidy.held_add_to_bucket (h : Tidy Start buckets) (period_start : DateTime)
    (tokens : TokenTotals) {f : TokenField}
    (hroom : held AggregatedUsageEntry.tokens f buckets + tokens.get f ≤ U64_MAX) :
    held AggregatedUsageEntry.tokens f (account_usage.add_to_bucket buckets period_start tokens) =
      held AggregatedUsageEntry.tokens f buckets + tokens.get f := by
  unfold account_usage.add_to_bucket
  rw [search_upsert_eq h.ascending]
  exact held_upsert hroom rfl (fun a => TokenTotals.add_totals_get a.tokens tokens f)

/-- The loop that empties a rollover into buckets. -/
theorem Tidy.add_all (place : DateTime → DateTime) {rollover : List (DateTime × TokenTotals)}
    (hstart : ∀ p ∈ rollover, Start (place p.1)) (h : Tidy Start buckets) :
    Tidy Start
      (rollover.foldl (fun b p => account_usage.add_to_bucket b (place p.1) p.2) buckets) := by
  induction rollover generalizing buckets with
  | nil => exact h
  | cons p rollover ih =>
    apply ih (fun q hq => hstart q (List.mem_cons_of_mem p hq))
    exact h.add_to_bucket (hstart p List.mem_cons_self) p.2

theorem Tidy.held_add_all (place : DateTime → DateTime) (rollover : List (DateTime × TokenTotals))
    {f : TokenField} (hstart : ∀ p ∈ rollover, Start (place p.1)) (h : Tidy Start buckets)
    (hroom : held AggregatedUsageEntry.tokens f buckets + held Prod.snd f rollover ≤ U64_MAX) :
    held AggregatedUsageEntry.tokens f
        (rollover.foldl (fun b p => account_usage.add_to_bucket b (place p.1) p.2) buckets) =
      held AggregatedUsageEntry.tokens f buckets + held Prod.snd f rollover := by
  induction rollover generalizing buckets with
  | nil => simp
  | cons p rollover ih =>
    rw [held_cons] at hroom ⊢
    have hadd := h.held_add_to_bucket (place p.1) p.2 (f := f) (by omega)
    have hrest := ih (fun q hq => hstart q (List.mem_cons_of_mem p hq))
      (h.add_to_bucket (hstart p List.mem_cons_self) p.2) (by omega)
    rw [List.foldl_cons, hrest]
    omega

end buckets

/-! ## The loops that keep some entries and roll over the others -/

/-- One entry: kept, or rolled over to its place. -/
def settle {α : Type} (keep : α → Bool) (place : α → DateTime) (tokens : α → TokenTotals)
    (acc : List α × List (DateTime × TokenTotals)) (entry : α) :
    List α × List (DateTime × TokenTotals) :=
  if keep entry then (acc.1 ++ [entry], acc.2)
  else (acc.1, roll_into acc.2 (place entry) (tokens entry))

theorem settle_day_eq (cutoff : DateTime) :
    AccountUsageData.settle_day cutoff = settle (fun entry => !decide (entry.period_start < cutoff))
      (fun entry => truncate_to_month entry.period_start) AggregatedUsageEntry.tokens := by
  funext acc entry
  unfold AccountUsageData.settle_day settle
  by_cases h : entry.period_start < cutoff <;> simp [h]

theorem settle_entry_eq (cutoff : DateTime) :
    AccountUsageData.settle_entry cutoff = settle (fun entry => decide (entry.timestamp ≥ cutoff))
      (fun entry => truncate_to_hour entry.timestamp) TokenWindowEntry.tokens := by
  funext acc entry
  unfold AccountUsageData.settle_entry settle
  by_cases h : entry.timestamp ≥ cutoff <;> simp [h]

section settle

variable {α : Type} {keep : α → Bool} {place : α → DateTime} {tokens : α → TokenTotals}
  {acc : List α × List (DateTime × TokenTotals)} {l : List α}

theorem settle_kept : (l.foldl (settle keep place tokens) acc).1 = acc.1 ++ l.filter keep := by
  induction l generalizing acc with
  | nil => simp
  | cons a l ih =>
    rw [List.foldl_cons, ih]
    unfold settle
    by_cases h : keep a <;> simp [h]

theorem settle_keys {P : DateTime → Prop} (hacc : ∀ p ∈ acc.2, P p.1)
    (hplace : ∀ a ∈ l, P (place a)) :
    ∀ p ∈ (l.foldl (settle keep place tokens) acc).2, P p.1 := by
  induction l generalizing acc with
  | nil => exact hacc
  | cons a l ih =>
    apply ih
    · unfold settle
      by_cases h : keep a
      · simpa [h] using hacc
      · simpa [h] using roll_into_keys hacc (hplace a List.mem_cons_self)
    · exact fun b hb => hplace b (List.mem_cons_of_mem a hb)

/-- What is kept and what is rolled over is what there was. -/
theorem settle_held {f : TokenField}
    (hroom : held Prod.snd f acc.2 + held tokens f l ≤ U64_MAX) :
    held tokens f (l.filter keep) + held Prod.snd f (l.foldl (settle keep place tokens) acc).2 =
      held Prod.snd f acc.2 + held tokens f l := by
  induction l generalizing acc with
  | nil => simp
  | cons a l ih =>
    rw [held_cons] at hroom ⊢
    by_cases h : keep a
    · have hacc : (settle keep place tokens acc a).2 = acc.2 := by simp [settle, h]
      have hrest := @ih (settle keep place tokens acc a) (by rw [hacc]; omega)
      rw [hacc] at hrest
      rw [List.filter_cons_of_pos h, held_cons, List.foldl_cons]
      omega
    · have hacc : (settle keep place tokens acc a).2 = roll_into acc.2 (place a) (tokens a) := by
        simp [settle, h]
      have hroll : held Prod.snd f (roll_into acc.2 (place a) (tokens a)) =
          held Prod.snd f acc.2 + (tokens a).get f := held_roll_into (by omega)
      have hrest := @ih (settle keep place tokens acc a) (by rw [hacc]; omega)
      rw [hacc] at hrest
      rw [List.filter_cons_of_neg h, List.foldl_cons]
      omega

end settle

/-! ## Compaction -/

/-- All buckets are in order and at the start of their hour, day or month. -/
structure Sorted (d : AccountUsageData F) : Prop where
  hourly : Tidy (HOUR ∣ ·) d.hourly_buckets
  daily : Tidy (DAY ∣ ·) d.daily_buckets
  monthly : Tidy MonthStart d.monthly_buckets

/-- The sum of a field over the entries, the days and the months. -/
def AccountUsageData.counted (d : AccountUsageData F) (f : TokenField) : Nat :=
  held TokenWindowEntry.tokens f d.hourly_entries +
    held AggregatedUsageEntry.tokens f d.daily_buckets +
    held AggregatedUsageEntry.tokens f d.monthly_buckets

namespace AccountUsageData

variable {d : AccountUsageData F} {now : DateTime} {f : TokenField}

theorem compact_hourly_buckets_eq :
    d.compact_hourly_buckets now = { d with
      hourly_buckets := sort_by_period (d.hourly_buckets.filter
        (fun entry => entry.period_start ≥ truncate_to_hour now - 24 * HOUR)) } := by
  unfold compact_hourly_buckets
  by_cases h : d.hourly_buckets = []
  · cases d
    simp_all [sort_by_period]
  · simp [h]

theorem compact_hourly_sorted (h : Sorted d) : Sorted (d.compact_hourly_buckets now) := by
  rw [compact_hourly_buckets_eq]
  refine ⟨?_, h.daily, h.monthly⟩
  simp only [(h.hourly.filter _).sort_by_period_eq]
  exact h.hourly.filter _

theorem compact_hourly_counted : (d.compact_hourly_buckets now).counted f = d.counted f := by
  rw [compact_hourly_buckets_eq]
  rfl

/-- What `compact_daily_buckets` takes out of the days, by month. -/
def months_done (d : AccountUsageData F) (now : DateTime) : List (DateTime × TokenTotals) :=
  (d.daily_buckets.foldl (settle_day (truncate_to_day now - 30 * DAY)) ([], [])).2

theorem compact_daily_buckets_eq :
    d.compact_daily_buckets now = { d with
      daily_buckets := sort_by_period (d.daily_buckets.filter
        (fun entry => !decide (entry.period_start < truncate_to_day now - 30 * DAY)))
      monthly_buckets := (d.months_done now).foldl (fun b p => add_to_bucket b p.1 p.2)
        d.monthly_buckets } := by
  unfold compact_daily_buckets months_done
  by_cases h : d.daily_buckets = []
  · cases d
    simp_all [sort_by_period]
  · simp [h, settle_day_eq, settle_kept]

theorem months_done_start : ∀ p ∈ d.months_done now, MonthStart p.1 := by
  unfold months_done
  rw [settle_day_eq]
  exact settle_keys (by simp) (fun entry _ => truncate_to_month_start entry.period_start)

theorem compact_daily_sorted (h : Sorted d) : Sorted (d.compact_daily_buckets now) := by
  rw [compact_daily_buckets_eq]
  refine ⟨h.hourly, ?_, h.monthly.add_all id months_done_start⟩
  simp only [(h.daily.filter _).sort_by_period_eq]
  exact h.daily.filter _

theorem compact_daily_counted (h : Sorted d) (hroom : d.counted f ≤ U64_MAX) :
    (d.compact_daily_buckets now).counted f = d.counted f := by
  unfold counted at hroom
  have hdone : held AggregatedUsageEntry.tokens f (d.daily_buckets.filter
        (fun entry => !decide (entry.period_start < truncate_to_day now - 30 * DAY))) +
      held Prod.snd f (d.months_done now) = held AggregatedUsageEntry.tokens f d.daily_buckets := by
    unfold months_done
    rw [settle_day_eq, settle_held (by simp; omega)]
    simp
  have hmonths := h.monthly.held_add_all id (d.months_done now) (f := f) months_done_start
    (by omega)
  rw [compact_daily_buckets_eq]
  simp only [counted, (h.daily.filter _).sort_by_period_eq]
  simp only [id_eq] at hmonths
  omega

/-- The buckets after the loop over the hours that were rolled over. -/
theorem settle_hours_eq (rollover : List (DateTime × TokenTotals)) :
    rollover.foldl settle_hour d = { d with
      daily_buckets := rollover.foldl (fun b p => add_to_bucket b (truncate_to_day p.1) p.2)
        d.daily_buckets
      hourly_buckets := rollover.foldl (fun b p => add_to_bucket b p.1 p.2) d.hourly_buckets } := by
  induction rollover generalizing d with
  | nil => rfl
  | cons p rollover ih => rw [List.foldl_cons, ih]; rfl

/-- What `compact_usage` takes out of the entries, by hour. -/
def hours_done (d : AccountUsageData F) (now : DateTime) : List (DateTime × TokenTotals) :=
  (d.hourly_entries.foldl (settle_entry (now - HOUR)) ([], [])).2

theorem hours_done_start : ∀ p ∈ d.hours_done now, HOUR ∣ p.1 := by
  unfold hours_done
  rw [settle_entry_eq]
  exact settle_keys (by simp) (fun entry _ => hour_dvd_truncate_to_hour entry.timestamp)

/-- The record between the loops of `compact_usage` and the compaction of the buckets. -/
def rolled (d : AccountUsageData F) (now : DateTime) : AccountUsageData F :=
  { d with
    hourly_entries := d.hourly_entries.filter (fun entry => decide (entry.timestamp ≥ now - HOUR))
    daily_buckets := (d.hours_done now).foldl
      (fun b p => add_to_bucket b (truncate_to_day p.1) p.2) d.daily_buckets
    hourly_buckets := (d.hours_done now).foldl (fun b p => add_to_bucket b p.1 p.2)
      d.hourly_buckets }

theorem compact_usage_eq :
    d.compact_usage now =
      ((d.rolled now).compact_hourly_buckets now).compact_daily_buckets now := by
  unfold compact_usage rolled hours_done
  simp only [settle_hours_eq, settle_entry_eq, settle_kept, List.nil_append]

theorem rolled_sorted (h : Sorted d) : Sorted (d.rolled now) where
  hourly := h.hourly.add_all id hours_done_start
  daily := h.daily.add_all truncate_to_day (fun p _ => day_dvd_truncate_to_day p.1)
  monthly := h.monthly

theorem rolled_counted (h : Sorted d) (hroom : d.counted f ≤ U64_MAX) :
    (d.rolled now).counted f = d.counted f := by
  unfold counted at hroom
  have hdone : held TokenWindowEntry.tokens f (d.hourly_entries.filter
        (fun entry => decide (entry.timestamp ≥ now - HOUR))) +
      held Prod.snd f (d.hours_done now) = held TokenWindowEntry.tokens f d.hourly_entries := by
    unfold hours_done
    rw [settle_entry_eq, settle_held (by simp; omega)]
    simp
  have hdays := h.daily.held_add_all truncate_to_day (d.hours_done now) (f := f)
    (fun p _ => day_dvd_truncate_to_day p.1) (by omega)
  unfold counted rolled
  simp only
  omega

theorem compact_usage_entries :
    (d.compact_usage now).hourly_entries =
      d.hourly_entries.filter (fun entry => decide (entry.timestamp ≥ now - HOUR)) := by
  rw [compact_usage_eq, compact_daily_buckets_eq, compact_hourly_buckets_eq]
  rfl

theorem compact_usage_sorted (h : Sorted d) : Sorted (d.compact_usage now) := by
  rw [compact_usage_eq]
  exact compact_daily_sorted (compact_hourly_sorted (rolled_sorted h))

theorem compact_usage_counted (h : Sorted d) (hroom : d.counted f ≤ U64_MAX) :
    (d.compact_usage now).counted f = d.counted f := by
  have hrolled : (d.rolled now).counted f = d.counted f := rolled_counted h hroom
  rw [compact_usage_eq, compact_daily_counted (compact_hourly_sorted (rolled_sorted h)),
    compact_hourly_counted, hrolled]
  rw [compact_hourly_counted, hrolled]
  exact hroom

theorem compact_usage_totals : (d.compact_usage now).totals = d.totals := by
  rw [compact_usage_eq, compact_daily_buckets_eq, compact_hourly_buckets_eq]
  rfl

/-- The entries that are left after the compaction are of the last hour, so none of them is older
than the history that is kept. -/
theorem update_last_hour_entries :
    (d.update_last_hour now).hourly_entries = (d.compact_usage now).hourly_entries := by
  unfold update_last_hour
  refine List.filter_eq_self.mpr ?_
  intro entry hentry
  rw [compact_usage_entries, List.mem_filter, decide_eq_true_eq] at hentry
  have hold : now - HOURLY_HISTORY_DAYS * DAY ≤ now - HOUR := by
    unfold HOURLY_HISTORY_DAYS DAY HOUR SECOND
    apply Int.sub_le_sub_left
    decide
  exact decide_eq_true (hold.trans hentry.2)

theorem update_last_hour_sorted (h : Sorted d) : Sorted (d.update_last_hour now) := by
  have hcompact : Sorted (d.compact_usage now) := compact_usage_sorted h
  exact ⟨hcompact.hourly, hcompact.daily, hcompact.monthly⟩

theorem update_last_hour_counted (h : Sorted d) (hroom : d.counted f ≤ U64_MAX) :
    (d.update_last_hour now).counted f = d.counted f := by
  have hcompact : (d.compact_usage now).counted f = d.counted f := compact_usage_counted h hroom
  rw [← hcompact]
  unfold counted
  rw [update_last_hour_entries]
  rfl

theorem update_last_hour_totals : (d.update_last_hour now).totals = d.totals :=
  compact_usage_totals

end AccountUsageData

/-! ## Runs of calls -/

/-- A record whose totals are the sums of its entries, days and months, all in order. -/
structure Conserved (d : AccountUsageData F) : Prop where
  sorted : Sorted d
  totals : ∀ f, d.totals.get f = d.counted f

theorem new_conserved (account_id : Text) (now : DateTime) :
    Conserved (AccountUsageData.new account_id now : AccountUsageData F) where
  sorted := ⟨⟨.nil, by simp [AccountUsageData.new]⟩, ⟨.nil, by simp [AccountUsageData.new]⟩,
    ⟨.nil, by simp [AccountUsageData.new]⟩⟩
  totals f := by simp [AccountUsageData.new, AccountUsageData.counted]

theorem apply_plan_conserved {d : AccountUsageData F} (h : Conserved d) (plan : Option Text) :
    Conserved (d.apply_plan plan) ∧ (d.apply_plan plan).totals = d.totals := by
  unfold AccountUsageData.apply_plan
  cases plan with
  | none => exact ⟨h, rfl⟩
  | some plan =>
    dsimp only
    split_ifs
    · exact ⟨⟨⟨h.sorted.hourly, h.sorted.daily, h.sorted.monthly⟩, h.totals⟩, rfl⟩
    · exact ⟨h, rfl⟩

theorem record_conserved {d : AccountUsageData F} (h : Conserved d) (usage : TokenUsage)
    (observed_at : DateTime) (hroom : ∀ f, d.totals.get f + usage.get f ≤ U64_MAX) :
    Conserved (record_token_usage usage observed_at d) ∧
      ∀ f, (record_token_usage usage observed_at d).totals.get f =
        d.totals.get f + usage.get f := by
  unfold record_token_usage
  generalize hnext : d.observe usage observed_at = next
  have hsorted : Sorted next := by
    rw [← hnext]
    exact ⟨h.sorted.hourly, h.sorted.daily, h.sorted.monthly⟩
  have htotals : ∀ f, next.totals.get f = d.totals.get f + usage.get f := by
    intro f
    rw [← hnext]
    unfold AccountUsageData.observe
    rw [TokenTotals.add_usage_get, saturating_add_exact (hroom f)]
  have hcounted : ∀ f, next.counted f = d.counted f + usage.get f := by
    intro f
    have hu : saturating_add 0 (usage.get f) = usage.get f := by
      have := hroom f
      rw [saturating_add_exact (by omega), Nat.zero_add]
    rw [← hnext]
    simp only [AccountUsageData.observe, AccountUsageData.counted, held_append, held_cons, held_nil,
      TokenTotals.from_usage_get, hu]
    omega
  have hfits : ∀ f, next.counted f ≤ U64_MAX := by
    intro f
    rw [hcounted, ← h.totals f]
    exact hroom f
  refine ⟨⟨AccountUsageData.update_last_hour_sorted hsorted, ?_⟩, ?_⟩
  · intro f
    rw [AccountUsageData.update_last_hour_counted hsorted (hfits f),
      AccountUsageData.update_last_hour_totals, htotals, hcounted, h.totals f]
  · intro f
    rw [AccountUsageData.update_last_hour_totals, htotals]

/-- A call of `record_token_usage`. -/
structure TokenCall where
  plan : Option Text
  usage : TokenUsage
  observed_at : DateTime
  deriving DecidableEq, Repr

/-- The record after a call, as `with_usage_file` makes it. -/
def TokenCall.apply (d : AccountUsageData F) (call : TokenCall) : AccountUsageData F :=
  record_token_usage call.usage call.observed_at (d.apply_plan call.plan)

/-- The sum of a field over the calls. -/
def spent (calls : List TokenCall) (f : TokenField) : Nat :=
  (calls.map (fun call => call.usage.get f)).sum

theorem calls_conserved {d : AccountUsageData F} (h : Conserved d) (calls : List TokenCall)
    (hroom : ∀ f, d.totals.get f + spent calls f ≤ U64_MAX) :
    Conserved (calls.foldl TokenCall.apply d) := by
  induction calls generalizing d with
  | nil => exact h
  | cons call calls ih =>
    have hcons : ∀ f, spent (call :: calls) f = call.usage.get f + spent calls f := by
      intro f
      simp [spent]
    obtain ⟨hplan, hsame⟩ := apply_plan_conserved h call.plan
    have hstep := record_conserved hplan call.usage call.observed_at (by
      intro f
      have := hroom f
      rw [hcons] at this
      rw [hsame]
      omega)
    apply ih hstep.1
    intro f
    have := hroom f
    rw [hcons] at this
    rw [hstep.2 f, hsame]
    omega

/-- After every sequence of calls, at any times and in any order of these, whose sums stay below
`2 ^ 64`. -/
theorem usage_conserved_by_every_sequence_of_calls (account_id : Text) (created : DateTime)
    (calls : List TokenCall) (hsum : ∀ f, spent calls f < 2 ^ 64) :
    let d : AccountUsageData F := calls.foldl TokenCall.apply (.new account_id created)
    (∀ f, d.totals.get f =
      held TokenWindowEntry.tokens f d.hourly_entries +
        held AggregatedUsageEntry.tokens f d.daily_buckets +
        held AggregatedUsageEntry.tokens f d.monthly_buckets) ∧
    Ascending AggregatedUsageEntry.period_start d.hourly_buckets ∧
    Ascending AggregatedUsageEntry.period_start d.daily_buckets ∧
    Ascending AggregatedUsageEntry.period_start d.monthly_buckets ∧
    (∀ entry ∈ d.hourly_buckets, HOUR ∣ entry.period_start) ∧
    (∀ entry ∈ d.daily_buckets, DAY ∣ entry.period_start) ∧
    ∀ entry ∈ d.monthly_buckets, MonthStart entry.period_start := by
  intro d
  have hstart : Conserved (AccountUsageData.new account_id created : AccountUsageData F) :=
    new_conserved account_id created
  have hd : Conserved d := by
    apply calls_conserved hstart
    intro f
    have hnew : (AccountUsageData.new account_id created : AccountUsageData F).totals.get f = 0 :=
      TokenTotals.default_get f
    have := hsum f
    rw [hnew]
    unfold U64_MAX
    omega
  obtain ⟨⟨hhour, hday, hmonth⟩, htotals⟩ := hd
  exact ⟨htotals, hhour.ascending, hday.ascending, hmonth.ascending, hhour.aligned, hday.aligned,
    hmonth.aligned⟩

/-- A usage that is recorded late, and before it one of a hundred days later. -/
def late_calls : List TokenCall :=
  [⟨none, ⟨120, 20, 80, 10, 210⟩, 100 * DAY⟩, ⟨some "pro".toList, ⟨1, 0, 2, 0, 3⟩, 0⟩,
    ⟨none, ⟨5, 1, 5, 0, 10⟩, 101 * DAY⟩]

theorem usage_conserved_by_late_calls :
    let d : AccountUsageData Unit := late_calls.foldl TokenCall.apply (.new "a".toList 0)
    d.monthly_buckets = [⟨0, ⟨1, 0, 2, 0, 3⟩⟩] ∧
    d.totals.get .total_tokens =
      held TokenWindowEntry.tokens .total_tokens d.hourly_entries +
        held AggregatedUsageEntry.tokens .total_tokens d.daily_buckets +
        held AggregatedUsageEntry.tokens .total_tokens d.monthly_buckets :=
  ⟨by decide +kernel, (usage_conserved_by_every_sequence_of_calls "a".toList 0 late_calls
    (fun f => by cases f <;> decide)).1 .total_tokens⟩

end Ecode.account_usage
