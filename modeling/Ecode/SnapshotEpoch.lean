-- The snapshot epoch of a repository (core/src/review_coord.rs): a number in a
-- file that processes read, and that a bump reads, truncates and writes.
import Ecode.ExecStreams
import Ecode.Runs

open Ecode.runs

namespace Ecode.review_coord

open history (saturating_add U64_MAX)

/-! ## The number in the file -/

/-- `str::parse::<u64>`. -/
def parse_u64 (t : Text) : Option Nat :=
  let digits := match t with
    | '+' :: rest => rest
    | _ => t
  if digits ≠ [] ∧ digits.all Char.isDigit ∧ Nat.ofDigitChars 10 digits 0 ≤ U64_MAX then
    some (Nat.ofDigitChars 10 digits 0)
  else none

/-- `read_epoch`: a file that is missing or holds no number reads as 0. -/
def read_epoch (file : Option Text) : Nat :=
  match file with
  | some text => (parse_u64 (Text.trim text)).getD 0
  | none => 0

example : read_epoch (some " 12\n".toList) = 12 ∧ read_epoch (some []) = 0 := by decide

theorem digit_not_whitespace {c : Char} (h : c.isDigit = true) : Text.is_whitespace c = false := by
  simp only [Char.isDigit, Bool.and_eq_true, decide_eq_true_eq] at h
  have hlo : 48 ≤ c.toNat := h.1
  have hhi : c.toNat ≤ 57 := h.2
  unfold Text.is_whitespace
  simp only [Bool.or_eq_false_iff, Bool.and_eq_false_iff, decide_eq_false_iff_not,
    beq_eq_false_iff_ne]
  omega

theorem trim_digits {t : Text} (h : ∀ c ∈ t, c.isDigit = true) : Text.trim t = t := by
  have hstart : ∀ s : Text, (∀ c ∈ s, c.isDigit = true) → s.dropWhile Text.is_whitespace = s := by
    intro s hs
    cases s with
    | nil => rfl
    | cons c s => simp [digit_not_whitespace (hs c List.mem_cons_self)]
  unfold Text.trim Text.trim_end Text.trim_start
  rw [hstart t h, hstart t.reverse (by simpa using h), List.reverse_reverse]

/-- An epoch that was written is read back. -/
theorem read_epoch_ofNat {n : Nat} (h : n ≤ U64_MAX) : read_epoch (some (Text.ofNat n)) = n := by
  have hdigits : ∀ c ∈ Text.ofNat n, c.isDigit = true := by
    intro c hc
    exact Nat.isDigit_of_mem_toDigits (by decide) (by decide) hc
  have hplain : ∀ rest, Text.ofNat n ≠ '+' :: rest := by
    intro rest heq
    have := hdigits '+' (by rw [heq]; exact List.mem_cons_self)
    simp [Char.isDigit] at this
  have hparse : parse_u64 (Text.ofNat n) = some n := by
    have hvalue : Nat.ofDigitChars 10 (Text.ofNat n) 0 = n := Nat.ofDigitChars_ten_toDigits
    have hnil : Text.ofNat n ≠ [] := Nat.toDigits_ne_nil
    unfold parse_u64
    split
    · rename_i rest heq
      exact absurd heq (hplain rest)
    · simp [hvalue, h, hnil]
      simpa using hdigits
  unfold read_epoch
  simp only [trim_digits hdigits, hparse, Option.getD_some]

theorem read_epoch_le (file : Option Text) : read_epoch file ≤ U64_MAX := by
  unfold read_epoch parse_u64
  cases file with
  | none => exact Nat.zero_le _
  | some text =>
    dsimp only
    split_ifs with h
    · exact h.2.2
    · exact Nat.zero_le _

/-! ## Processes -/

/-- How far a process is in a bump, with the epoch that it has read. -/
inductive Bump where
  | idle
  | read (current : Nat)
  | truncated (current : Nat)
  deriving DecidableEq, Repr

/-- The process has truncated the file and not written it yet. -/
def Bump.writes : Bump → Bool
  | .truncated _ => true
  | _ => false

structure Epoch (P : Type) where
  file : Option Text
  stage : P → Bump
  /-- The bumps that were completed. -/
  bumps : Nat

/-- The steps of the calls of the processes. `fs::write` truncates the file and then writes. -/
inductive EpochAction (P : Type) where
  | current_snapshot_epoch (p : P)
  | bump_read (p : P)
  | bump_truncate (p : P)
  | bump_write (p : P)
  deriving DecidableEq, Repr

namespace Epoch

variable {P : Type}

def at_stage [DecidableEq P] (s : Epoch P) (p : P) (stage : Bump) : Epoch P :=
  { s with stage := Function.update s.stage p stage }

def step [DecidableEq P] (s : Epoch P) : EpochAction P → Option (Epoch P)
  | .current_snapshot_epoch _ => some s
  | .bump_read p =>
    match s.stage p with
    | .idle => some (s.at_stage p (.read (read_epoch s.file)))
    | _ => none
  | .bump_truncate p =>
    match s.stage p with
    | .read current => some ({ s with file := some [] }.at_stage p (.truncated current))
    | _ => none
  | .bump_write p =>
    match s.stage p with
    | .truncated current =>
      some ({ s with
        file := some (Text.ofNat (saturating_add current 1))
        bumps := s.bumps + 1 }.at_stage p .idle)
    | _ => none

/-- No process is between the truncation and the write. -/
def quiet (s : Epoch P) : Prop := ∀ p, (s.stage p).writes = false

instance [Fintype P] (s : Epoch P) : Decidable s.quiet :=
  inferInstanceAs (Decidable (∀ p, (s.stage p).writes = false))

/-- The file still holds the epoch that a bump has read. -/
def still_read (file : Option Text) : Bump → Prop
  | .read current => read_epoch file = current
  | _ => True

instance (file : Option Text) : (stage : Bump) → Decidable (still_read file stage)
  | .idle => isTrue trivial
  | .read current => inferInstanceAs (Decidable (read_epoch file = current))
  | .truncated _ => isTrue trivial

/-- No process reads while another one writes, and a bump starts its write only if the file still
holds the epoch that it read. -/
def Unraced (s : Epoch P) : EpochAction P → Prop
  | .current_snapshot_epoch _ => s.quiet
  | .bump_read _ => s.quiet
  | .bump_truncate p => s.quiet ∧ still_read s.file (s.stage p)
  | .bump_write _ => True

instance [Fintype P] (s : Epoch P) : (a : EpochAction P) → Decidable (s.Unraced a)
  | .current_snapshot_epoch _ => inferInstanceAs (Decidable s.quiet)
  | .bump_read _ => inferInstanceAs (Decidable s.quiet)
  | .bump_truncate p => inferInstanceAs (Decidable (s.quiet ∧ still_read s.file (s.stage p)))
  | .bump_write _ => isTrue trivial

/-- No call is going on, and none has been made. -/
structure Start (s : Epoch P) : Prop where
  idle : ∀ p, s.stage p = .idle
  none_yet : s.bumps = 0

/-! ## Runs without a race -/

/-- The epoch after the bumps that were completed. -/
def expected (first : Nat) (s : Epoch P) : Nat := min (first + s.bumps) U64_MAX

/-- Every completed bump counts: the file holds the expected epoch, or the one process that
writes has read it. -/
structure Counted (first : Nat) (s : Epoch P) : Prop where
  one_writer : ∀ p q c d, s.stage p = .truncated c → s.stage q = .truncated d → p = q
  pending : ∀ p c, s.stage p = .truncated c → c = s.expected first
  stored : s.quiet → read_epoch s.file = s.expected first

theorem quiet_iff {s : Epoch P} : s.quiet ↔ ∀ p c, s.stage p ≠ .truncated c := by
  unfold quiet
  constructor
  · intro h p c hp
    have := h p
    simp [hp, Bump.writes] at this
  · intro h p
    cases hp : s.stage p with
    | truncated c => exact absurd hp (h p c)
    | _ => rfl

theorem Counted.of_start {s : Epoch P} (h : s.Start) : Counted (read_epoch s.file) s where
  one_writer p q c d hp := by simp [h.idle] at hp
  pending p c hp := by simp [h.idle] at hp
  stored _ := by
    have := read_epoch_le s.file
    unfold expected
    rw [h.none_yet]
    omega

variable [DecidableEq P]

/-- A process goes on to a stage in which it does not write. -/
theorem Counted.advance {first : Nat} {s : Epoch P} (h : Counted first s) (hquiet : s.quiet)
    {p : P} {stage : Bump} (hstage : ∀ c, stage ≠ .truncated c) :
    Counted first (s.at_stage p stage) := by
  have hstill : ∀ q c, (s.at_stage p stage).stage q ≠ .truncated c := by
    intro q c hq
    unfold at_stage at hq
    by_cases hqp : q = p
    · subst hqp
      exact hstage c (by simpa using hq)
    · exact quiet_iff.mp hquiet q c (by simpa [hqp] using hq)
  refine ⟨?_, ?_, ?_⟩
  · intro q r c d hq
    exact absurd hq (hstill q c)
  · intro q c hq
    exact absurd hq (hstill q c)
  · intro _
    exact h.stored hquiet

theorem Counted.truncate {first : Nat} {s : Epoch P} (h : Counted first s) (hquiet : s.quiet)
    {p : P} {current : Nat} (hcurrent : read_epoch s.file = current) :
    Counted first ({ s with file := some [] }.at_stage p (.truncated current)) := by
  have hwriter : ∀ q c, ({ s with file := some [] }.at_stage p (.truncated current)).stage q =
      .truncated c → q = p ∧ c = current := by
    intro q c hq
    unfold at_stage at hq
    by_cases hqp : q = p
    · subst hqp
      exact ⟨rfl, by simpa using hq.symm⟩
    · exact absurd (show s.stage q = .truncated c by simpa [hqp] using hq)
        (quiet_iff.mp hquiet q c)
  refine ⟨?_, ?_, ?_⟩
  · intro q r c d hq hr
    rw [(hwriter q c hq).1, (hwriter r d hr).1]
  · intro q c hq
    rw [(hwriter q c hq).2, ← hcurrent]
    exact h.stored hquiet
  · intro hno
    exact absurd (show _ = Bump.truncated current by simp [at_stage])
      (quiet_iff.mp hno p current)

theorem Counted.write {first : Nat} {s : Epoch P} (h : Counted first s) {p : P} {current : Nat}
    (hp : s.stage p = .truncated current) :
    Counted first ({ s with
      file := some (Text.ofNat (saturating_add current 1))
      bumps := s.bumps + 1 }.at_stage p .idle) := by
  have hdone : ∀ q c, (s.at_stage p .idle).stage q ≠ .truncated c := by
    intro q c hq
    unfold at_stage at hq
    by_cases hqp : q = p
    · simp [hqp] at hq
    · exact hqp (h.one_writer q p c current (by simpa [hqp] using hq) hp)
  refine ⟨?_, ?_, ?_⟩
  · intro q r c d hq
    exact absurd hq (hdone q c)
  · intro q c hq
    exact absurd hq (hdone q c)
  · intro _
    have hcurrent := h.pending p current hp
    have hsat : saturating_add current 1 = min (first + (s.bumps + 1)) U64_MAX := by
      rw [hcurrent]
      unfold saturating_add expected
      omega
    change read_epoch (some (Text.ofNat (saturating_add current 1))) =
      min (first + (s.bumps + 1)) U64_MAX
    rw [hsat]
    exact read_epoch_ofNat (Nat.min_le_right _ _)

/-- What a step finds and what it makes of it. -/
inductive Stepped (s : Epoch P) : EpochAction P → Epoch P → Prop
  | current_snapshot_epoch (p : P) : Stepped s (.current_snapshot_epoch p) s
  | bump_read {p : P} : s.stage p = .idle →
    Stepped s (.bump_read p) (s.at_stage p (.read (read_epoch s.file)))
  | bump_truncate {p : P} {current : Nat} : s.stage p = .read current →
    Stepped s (.bump_truncate p) ({ s with file := some [] }.at_stage p (.truncated current))
  | bump_write {p : P} {current : Nat} : s.stage p = .truncated current →
    Stepped s (.bump_write p) ({ s with
      file := some (Text.ofNat (saturating_add current 1))
      bumps := s.bumps + 1 }.at_stage p .idle)

theorem stepped {s s' : Epoch P} {a : EpochAction P} (hstep : s.step a = some s') :
    Stepped s a s' := by
  cases a with
  | current_snapshot_epoch p =>
    obtain rfl := Option.some.inj hstep
    exact .current_snapshot_epoch p
  | bump_read p =>
    cases hp : s.stage p <;> simp only [Epoch.step, hp, reduceCtorEq, Option.some.injEq] at hstep
    subst hstep
    exact .bump_read hp
  | bump_truncate p =>
    cases hp : s.stage p <;> simp only [Epoch.step, hp, reduceCtorEq, Option.some.injEq] at hstep
    subst hstep
    exact .bump_truncate hp
  | bump_write p =>
    cases hp : s.stage p <;> simp only [Epoch.step, hp, reduceCtorEq, Option.some.injEq] at hstep
    subst hstep
    exact .bump_write hp

theorem Counted.step {first : Nat} {s s' : Epoch P} (h : Counted first s) {a : EpochAction P}
    (hok : s.Unraced a) (hstep : s.step a = some s') : Counted first s' := by
  cases stepped hstep with
  | current_snapshot_epoch p => exact h
  | bump_read hp => exact h.advance hok (by simp)
  | bump_truncate hp =>
    obtain ⟨hquiet, hcurrent⟩ := hok
    rw [hp] at hcurrent
    exact h.truncate hquiet hcurrent
  | bump_write hp => exact h.write hp

theorem counted_in_every_run {start s : Epoch P} (hstart : start.Start)
    (hrun : Reached Epoch.step start Unraced s) : Counted (read_epoch start.file) s :=
  Reached.invariant (I := Counted (read_epoch start.file)) (.of_start hstart)
    (fun _ _ _ h hok hstep => h.step hok hstep) hrun

theorem bumps_le {Ok : Epoch P → EpochAction P → Prop} {s s' : Epoch P}
    (hrun : Reached Epoch.step s Ok s') : s.bumps ≤ s'.bumps := by
  refine Reached.invariant (I := fun t => s.bumps ≤ t.bumps) le_rfl ?_ hrun
  intro t a t' ht _ hstep
  cases stepped hstep with
  | current_snapshot_epoch p => exact ht
  | bump_read hp => exact ht
  | bump_truncate hp => exact ht
  | bump_write hp => exact Nat.le_succ_of_le ht

/-- In every run in which no call reads during a write and every bump writes on the epoch that it
read, the epoch never decreases, and a read after a bump is different from a read before it. -/
theorem epoch_moves_on_when_bumps_do_not_race {start s₀ s₁ : Epoch P} (hstart : start.Start)
    (hbefore : Reached Epoch.step start Unraced s₀) (hlater : Reached Epoch.step s₀ Unraced s₁)
    {p q : P} (hcapture : s₀.Unraced (.current_snapshot_epoch p))
    (hread : s₁.Unraced (.current_snapshot_epoch q))
    (hfew : read_epoch start.file + s₁.bumps < 2 ^ 64) :
    read_epoch s₀.file ≤ read_epoch s₁.file ∧
      (s₀.bumps < s₁.bumps → read_epoch s₁.file ≠ read_epoch s₀.file) := by
  have hcounted := counted_in_every_run hstart hbefore
  have hcounted' := counted_in_every_run hstart (hbefore.trans hlater)
  have hle := bumps_le hlater
  rw [hcounted.stored hcapture, hcounted'.stored hread]
  unfold expected U64_MAX
  omega

end Epoch

/-! ## Two processes -/

/-- No epoch was written yet. -/
def no_epoch : Epoch Bool where
  file := none
  stage := fun _ => .idle
  bumps := 0

theorem no_epoch_start : no_epoch.Start where
  idle _ := rfl
  none_yet := rfl

/-- A whole bump. -/
def bump_snapshot_epoch_for (p : Bool) : List (EpochAction Bool) :=
  [.bump_read p, .bump_truncate p, .bump_write p]

/-- The epoch that is read, and the bumps that were completed. -/
def seen (s : Epoch Bool) : Nat × Nat := (read_epoch s.file, s.bumps)

theorem epoch_moves_on_after_two_bumps :
    ∃ s₀ s₁, Reached Epoch.step no_epoch Epoch.Unraced s₀ ∧ Reached Epoch.step s₀ Epoch.Unraced s₁ ∧
      seen s₀ = (1, 1) ∧ seen s₁ = (2, 2) ∧ read_epoch s₁.file ≠ read_epoch s₀.file := by
  have hrun : ((bump_snapshot_epoch_for true).foldlM (fun s a => if Epoch.Unraced s a then
      Epoch.step s a else none) no_epoch).map (fun s₀ =>
        (seen s₀, decide s₀.quiet, ((bump_snapshot_epoch_for false).foldlM (fun s a =>
          if Epoch.Unraced s a then Epoch.step s a else none) s₀).map
            (fun s₁ => (seen s₁, decide s₁.quiet)))) =
      some ((1, 1), true, some ((2, 2), true)) := by decide +kernel
  obtain ⟨s₀, hreached₀, hout⟩ := Reached.of_run hrun
  simp only [Prod.mk.injEq, decide_eq_true_eq] at hout
  obtain ⟨hseen₀, hquiet₀, hlater⟩ := hout
  obtain ⟨s₁, hreached₁, hout₁⟩ := Reached.of_run hlater
  simp only [Prod.mk.injEq, decide_eq_true_eq] at hout₁
  obtain ⟨hseen₁, hquiet₁⟩ := hout₁
  have hbumps₀ : s₀.bumps = 1 := congrArg Prod.snd hseen₀
  have hbumps₁ : s₁.bumps = 2 := congrArg Prod.snd hseen₁
  refine ⟨s₀, s₁, hreached₀, hreached₁, hseen₀, hseen₁, ?_⟩
  exact (Epoch.epoch_moves_on_when_bumps_do_not_race no_epoch_start hreached₀ hreached₁
    (p := true) (q := true) hquiet₀ hquiet₁ (by rw [hbumps₁]; decide)).2 (by omega)

/-- Both processes read the epoch 0; the second writes 1 again after 1 was captured. -/
theorem racing_bump_is_missed :
    ¬ ∀ s₀ s₁ : Epoch Bool, Reached Epoch.step no_epoch (fun _ _ => True) s₀ →
      Reached Epoch.step s₀ (fun _ _ => True) s₁ → s₁.bumps < 2 ^ 64 → s₀.bumps < s₁.bumps →
      read_epoch s₁.file ≠ read_epoch s₀.file := by
  intro hall
  have hrun : ([.bump_read true, .bump_read false, .bump_truncate true,
      EpochAction.bump_write true].foldlM (fun s a => if True then Epoch.step s a else none)
        no_epoch).map (fun s₀ => (seen s₀, ([EpochAction.bump_truncate false,
          .bump_write false].foldlM (fun s a => if True then Epoch.step s a else none) s₀).map
            seen)) = some ((1, 1), some (1, 2)) := by decide +kernel
  obtain ⟨s₀, hreached₀, hout⟩ := Reached.of_run hrun
  obtain ⟨hseen₀, hlater⟩ := Prod.mk.inj hout
  obtain ⟨s₁, hreached₁, hseen₁⟩ := Reached.of_run hlater
  obtain ⟨hread₀, hbumps₀⟩ := Prod.mk.inj hseen₀
  obtain ⟨hread₁, hbumps₁⟩ := Prod.mk.inj hseen₁
  have hne := hall s₀ s₁ hreached₀ hreached₁ (by rw [hbumps₁]; decide) (by omega)
  exact hne (by rw [hread₀, hread₁])

end Ecode.review_coord
