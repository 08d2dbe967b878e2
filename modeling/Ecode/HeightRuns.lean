-- Layout heights over runs of events and frames: what is applied at once, what waits for its
-- confirmation, and the row that stays for the history.
import Ecode.HeightManager

namespace Ecode.height_manager

variable {cfg : HeightManagerConfig} {s : HeightManager} {frame : Frame}

def Rect.size (area : Rect) : Nat × Nat := (area.width, area.height)

def HeightEvent.is_explicit : HeightEvent → Bool
  | .UserScroll => false
  | _ => true

namespace HeightManager

/-! ## One frame -/

/-- An explicit event or another size is still to be answered. -/
def prompted (s : HeightManager) (area : Rect) : Bool :=
  s.bypass_once || s.last_area.map Rect.size != some area.size

/-- The pane has one row more than it wants and has not asked for long enough. -/
def pane_waits (s : HeightManager) (frame : Frame) : Bool :=
  !s.prompted frame.area && s.last_bottom == some (bottom_desired s.cfg frame + 1) &&
    s.bottom_small_change_count + 1 < s.cfg.hysteresis_n

/-- The height of the bottom pane, from the state before the frame. -/
def pane_rows (s : HeightManager) (frame : Frame) : Nat :=
  if s.pane_waits frame then bottom_desired s.cfg frame + 1 else bottom_desired s.cfg frame

/-- The HUD target above that pane. -/
def hud_wanted (s : HeightManager) (frame : Frame) : Nat :=
  hud_target s.cfg frame (s.pane_rows frame)

/-- The target is pending for long enough. -/
def hud_confirmed (s : HeightManager) (frame : Frame) : Bool :=
  (s.detect_resize frame.area).hud_pending.any fun p =>
    p.1 == s.hud_wanted frame && s.cfg.hud_confirm_frames ≤ p.2 + 1

/-- The HUD height before the history takes its row, from the state before the frame. -/
def hud_rows (s : HeightManager) (frame : Frame) : Nat :=
  if frame.hud_present then
    if s.hud_confirmed frame then s.hud_wanted frame else s.last_hud.getD (s.hud_wanted frame)
  else 0

theorem detect_resize_fields (s : HeightManager) (area : Rect) :
    (s.detect_resize area).cfg = s.cfg ∧ (s.detect_resize area).last_bottom = s.last_bottom ∧
      (s.detect_resize area).last_hud = s.last_hud ∧
      (s.detect_resize area).bottom_small_change_count = s.bottom_small_change_count ∧
      (s.detect_resize area).bypass_once = s.prompted area ∧
      (s.detect_resize area).last_area.map Rect.size = some area.size := by
  unfold detect_resize prompted
  split_ifs with hsize
  · have hne : (s.last_area.map Rect.size != some area.size) = true := bne_iff_ne.mpr hsize
    exact ⟨rfl, rfl, rfl, rfl, by simp [record_event, hne], rfl⟩
  · have heq : s.last_area.map Rect.size = some area.size := not_not.mp hsize
    exact ⟨rfl, rfl, rfl, rfl, by simp [heq], heq⟩

/-- A pending target survives the check of the size only where the size is the same. -/
theorem detect_resize_pending (s : HeightManager) (area : Rect) :
    (s.detect_resize area).hud_pending = s.hud_pending ∨
      (s.detect_resize area).hud_pending = none := by
  unfold detect_resize
  split_ifs
  · exact .inr rfl
  · exact .inl rfl

/-- The bottom pane changes its own count only. -/
theorem take_bottom_fst (s : HeightManager) (desired : Nat) :
    ∃ count, (s.take_bottom desired).1 = { s with bottom_small_change_count := count } := by
  obtain ⟨cfg, area, bottom, hud, small, count, pending, bypass⟩ := s
  unfold take_bottom
  dsimp only
  cases bottom with
  | none => exact ⟨count, rfl⟩
  | some prev =>
    cases bypass with
    | true => exact ⟨count, rfl⟩
    | false =>
      dsimp only
      split_ifs <;> exact ⟨_, rfl⟩

/-- The pane takes what it wants unless it wants one row less and has not waited for it. -/
theorem take_bottom_snd (s : HeightManager) (desired : Nat) :
    (s.take_bottom desired).2 =
      if !s.bypass_once && s.last_bottom == some (desired + 1) &&
        s.bottom_small_change_count + 1 < s.cfg.hysteresis_n then desired + 1 else desired := by
  unfold take_bottom
  dsimp only
  cases hbottom : s.last_bottom with
  | none => simp
  | some prev =>
    cases hbypass : s.bypass_once with
    | true => simp
    | false =>
      dsimp only
      split_ifs <;> simp_all <;> omega

/-- The confirmation keeps the last height until the target is confirmed. -/
theorem apply_hud_snd (hbypass : s.bypass_once = false) (quantized : Nat) :
    (s.apply_hud_confirmation quantized).2 =
      if s.hud_pending.any (fun p => p.1 == quantized && s.cfg.hud_confirm_frames ≤ p.2 + 1)
      then quantized else s.last_hud.getD quantized := by
  unfold apply_hud_confirmation
  dsimp only
  rw [if_neg (by simp [hbypass])]
  cases hlast : s.last_hud with
  | none => simp
  | some last =>
    cases hpending : s.hud_pending with
    | none => by_cases hsame : last = quantized <;> simp [hsame]
    | some p =>
      obtain ⟨pending, n⟩ := p
      dsimp only
      by_cases hsame : pending = quantized
      · by_cases hconfirmed : s.cfg.hud_confirm_frames ≤ n + 1 <;> simp [hsame, hconfirmed]
      · simp [hsame]

/-- What the confirmation leaves behind. -/
theorem apply_hud_fst (hbypass : s.bypass_once = false) (quantized : Nat) :
    ∃ pending, (s.apply_hud_confirmation quantized).1 =
        { s with hud_pending := pending
                 last_hud := some (s.apply_hud_confirmation quantized).2 } ∧
      ∀ p ∈ pending, p = (quantized, 1) ∨
        ∃ n, s.hud_pending = some (quantized, n) ∧ p = (quantized, n + 1) := by
  obtain ⟨cfg, area, bottom, last_hud, small, count, hud_pending, bypass⟩ := s
  obtain rfl : bypass = false := hbypass
  unfold apply_hud_confirmation
  dsimp only
  rw [if_neg (by simp)]
  cases last_hud with
  | none => exact ⟨none, rfl, by simp⟩
  | some last =>
    cases hud_pending with
    | none =>
      dsimp only
      split_ifs
      · exact ⟨none, rfl, by simp⟩
      · exact ⟨some (quantized, 1), rfl, by simp⟩
    | some p =>
      obtain ⟨pending, n⟩ := p
      dsimp only
      split_ifs with hsame hconfirmed
      · exact ⟨none, rfl, by simp⟩
      · exact ⟨some (pending, n + 1), rfl, by simp [hsame]⟩
      · exact ⟨some (quantized, 1), rfl, by simp⟩

/-- A HUD that is shown is confirmed first, and one that is not is forgotten. -/
theorem take_hud_spec (hbypass : s.bypass_once = false) (frame : Frame) (rows : Nat) :
    ∃ pending,
      s.take_hud frame rows =
        ({ s with
            hud_pending := pending
            last_hud :=
              if frame.hud_present then
                some (s.apply_hud_confirmation (hud_target s.cfg frame rows)).2
              else none },
          if frame.hud_present then (s.apply_hud_confirmation (hud_target s.cfg frame rows)).2
          else 0) ∧
      ∀ p ∈ pending, frame.hud_present ∧ (p = (hud_target s.cfg frame rows, 1) ∨
        ∃ n, s.hud_pending = some (hud_target s.cfg frame rows, n) ∧
          p = (hud_target s.cfg frame rows, n + 1)) := by
  unfold take_hud
  cases hpresent : frame.hud_present with
  | false => exact ⟨none, rfl, by simp⟩
  | true =>
    obtain ⟨pending, hfst, hleft⟩ := apply_hud_fst hbypass (hud_target s.cfg frame rows)
    exact ⟨pending, Prod.ext hfst rfl, fun p hp => ⟨rfl, hleft p hp⟩⟩

/-- The pane after the check of the size. -/
theorem take_bottom_resized (s : HeightManager) (frame : Frame) :
    ((s.detect_resize frame.area).take_bottom (bottom_desired s.cfg frame)).2 =
      s.pane_rows frame := by
  obtain ⟨hcfg, hbottom, -, hcount, hbypass, -⟩ := detect_resize_fields s frame.area
  rw [take_bottom_snd, hcfg, hbottom, hcount, hbypass]
  rfl

/-- A frame, from the state before it. -/
theorem begin_frame_spec (s : HeightManager) (frame : Frame) :
    ∃ count pending,
      s.begin_frame frame =
        ({ s with
            last_area := (s.detect_resize frame.area).last_area
            last_bottom := some (s.pane_rows frame)
            last_hud := if frame.hud_present then some (s.hud_rows frame) else none
            small_change_count := (s.detect_resize frame.area).small_change_count
            bottom_small_change_count := count
            hud_pending := pending
            bypass_once := false },
          constraints (status_height frame)
            (fit_hud frame.area.height (status_height frame) (s.pane_rows frame)
              (s.hud_rows frame)) (s.pane_rows frame)) ∧
      ∀ p ∈ pending, frame.hud_present ∧ (p = (s.hud_wanted frame, 1) ∨
        ∃ n, s.hud_pending = some (s.hud_wanted frame, n) ∧ p = (s.hud_wanted frame, n + 1)) := by
  obtain ⟨hcfg, -, hhud, -⟩ := detect_resize_fields s frame.area
  have hpending := detect_resize_pending s frame.area
  obtain ⟨count, hcount⟩ := take_bottom_fst (s.detect_resize frame.area)
    (bottom_desired s.cfg frame)
  unfold begin_frame
  dsimp only
  rw [hcfg, take_bottom_resized, hcount]
  generalize hsettled : { (s.detect_resize frame.area) with
    bottom_small_change_count := count
    last_bottom := some (s.pane_rows frame)
    bypass_once := false } = settled
  have hbypass : settled.bypass_once = false := by simp [← hsettled]
  have hwanted : hud_target settled.cfg frame (s.pane_rows frame) = s.hud_wanted frame := by
    rw [← hsettled]
    simp only [hcfg]
    rfl
  have hheight : (settled.apply_hud_confirmation (s.hud_wanted frame)).2 =
      if s.hud_confirmed frame then s.hud_wanted frame
      else s.last_hud.getD (s.hud_wanted frame) := by
    rw [apply_hud_snd hbypass, ← hsettled]
    simp only [hcfg, hhud]
    rfl
  obtain ⟨pending, htaken, hleft⟩ := take_hud_spec hbypass frame (s.pane_rows frame)
  rw [hwanted] at htaken hleft
  rw [hheight] at htaken
  refine ⟨count, pending, ?_, fun p hp => ?_⟩
  · rw [htaken, ← hsettled]
    unfold hud_rows
    split_ifs <;> simp [hcfg]
  · obtain ⟨hpresent, hfirst | ⟨n, hn, hnext⟩⟩ := hleft p hp
    · exact ⟨hpresent, .inl hfirst⟩
    · refine ⟨hpresent, .inr ⟨n, ?_, hnext⟩⟩
      rw [← hsettled] at hn
      rcases hpending with hkept | hdropped
      · exact hkept ▸ hn
      · exact absurd (hdropped ▸ hn) (by simp)

end HeightManager

/-! ## Runs -/

/-- What the chat UI does with its manager. -/
inductive Op where
  | record_event (event : HeightEvent)
  | begin_frame (frame : Frame)

def step (s : HeightManager) : Op → HeightManager
  | .record_event event => s.record_event event
  | .begin_frame frame => (s.begin_frame frame).1

def run (cfg : HeightManagerConfig) (ops : List Op) : HeightManager :=
  ops.foldl step (.new cfg)

def frames (ops : List Op) : List Frame :=
  ops.filterMap fun
    | .record_event _ => none
    | .begin_frame frame => some frame

/-- An explicit event that no frame came after. -/
def Asked (ops : List Op) : Prop :=
  ∃ before event since, ops = before ++ .record_event event :: since ∧
    event.is_explicit ∧ frames since = []

/-- The frame is the first one after an explicit event or with its size. -/
def Prompted (before : List Op) (frame : Frame) : Prop :=
  Asked before ∨
    (frames before).getLast?.map (fun last => last.area.size) ≠ some frame.area.size

/-- The HUD targets of the frames, and none where a frame has no HUD. -/
def targets_from : HeightManager → List Op → List (Option Nat)
  | _, [] => []
  | s, .record_event event :: ops => targets_from (s.record_event event) ops
  | s, .begin_frame frame :: ops =>
    (if frame.hud_present then some (s.hud_wanted frame) else none) ::
      targets_from (s.begin_frame frame).1 ops

def targets (cfg : HeightManagerConfig) (ops : List Op) : List (Option Nat) :=
  targets_from (.new cfg) ops

theorem run_concat (ops : List Op) (op : Op) : run cfg (ops ++ [op]) = step (run cfg ops) op := by
  simp [run, List.foldl_append]

@[simp] theorem frames_concat_event (ops : List Op) (event : HeightEvent) :
    frames (ops ++ [Op.record_event event]) = frames ops := by
  simp [frames]

@[simp] theorem frames_concat_frame (ops : List Op) (frame : Frame) :
    frames (ops ++ [Op.begin_frame frame]) = frames ops ++ [frame] := by
  simp [frames]

theorem asked_concat_event {ops : List Op} {event : HeightEvent} :
    Asked (ops ++ [Op.record_event event]) ↔ event.is_explicit ∨ Asked ops := by
  constructor
  · rintro ⟨before, e, since, hops, he, hnone⟩
    rcases List.eq_nil_or_concat since with rfl | ⟨since, op, rfl⟩
    · obtain ⟨-, hop⟩ := List.append_inj' hops rfl
      obtain rfl : event = e := by simpa using hop
      exact .inl he
    · have hsplit : ops ++ [Op.record_event event] =
          (before ++ .record_event e :: since) ++ [op] := by
        simpa using hops
      obtain ⟨hbefore, hop⟩ := List.append_inj' hsplit rfl
      obtain rfl : Op.record_event event = op := by simpa using hop
      exact .inr ⟨before, e, since, hbefore, he, by simpa using hnone⟩
  · rintro (he | ⟨before, e, since, rfl, he, hnone⟩)
    · exact ⟨ops, event, [], rfl, he, rfl⟩
    · exact ⟨before, e, since ++ [Op.record_event event], by simp, he, by simpa using hnone⟩

theorem not_asked_concat_frame (ops : List Op) (frame : Frame) :
    ¬ Asked (ops ++ [Op.begin_frame frame]) := by
  rintro ⟨before, e, since, hops, he, hnone⟩
  rcases List.eq_nil_or_concat since with rfl | ⟨since, op, rfl⟩
  · obtain ⟨-, hop⟩ := List.append_inj' hops rfl
    simp at hop
  · have hsplit : ops ++ [Op.begin_frame frame] = (before ++ .record_event e :: since) ++ [op] := by
      simpa using hops
    obtain ⟨-, hop⟩ := List.append_inj' hsplit rfl
    obtain rfl : Op.begin_frame frame = op := by simpa using hop
    simp at hnone

theorem targets_from_concat_event (s : HeightManager) (ops : List Op) (event : HeightEvent) :
    targets_from s (ops ++ [Op.record_event event]) = targets_from s ops := by
  induction ops generalizing s with
  | nil => rfl
  | cons op ops ih =>
    cases op with
    | record_event e => exact ih _
    | begin_frame f => simp [targets_from, ih]

theorem targets_from_concat_frame (s : HeightManager) (ops : List Op) (frame : Frame) :
    targets_from s (ops ++ [Op.begin_frame frame]) = targets_from s ops ++
      [if frame.hud_present then some ((ops.foldl step s).hud_wanted frame) else none] := by
  induction ops generalizing s with
  | nil => rfl
  | cons op ops ih =>
    cases op with
    | record_event e => exact ih _
    | begin_frame f => simp [targets_from, step, ih]

theorem targets_concat_event (ops : List Op) (event : HeightEvent) :
    targets cfg (ops ++ [Op.record_event event]) = targets cfg ops :=
  targets_from_concat_event _ _ _

theorem targets_concat_frame (ops : List Op) (frame : Frame) :
    targets cfg (ops ++ [Op.begin_frame frame]) = targets cfg ops ++
      [if frame.hud_present then some ((run cfg ops).hud_wanted frame) else none] :=
  targets_from_concat_frame _ _ _

/-- What the flags and counters of the manager say about the run so far. -/
structure Tracks (cfg : HeightManagerConfig) (ops : List Op) (s : HeightManager) : Prop where
  cfg_kept : s.cfg = cfg
  bypass : s.bypass_once = true ↔ Asked ops
  area : s.last_area.map Rect.size = (frames ops).getLast?.map (fun last => last.area.size)
  asked_anew : s.bypass_once = true → s.hud_pending = none
  seen : ∀ target n, s.hud_pending = some (target, n) →
    List.replicate n (some target) <:+ targets cfg ops

theorem tracks (cfg : HeightManagerConfig) (ops : List Op) : Tracks cfg ops (run cfg ops) := by
  induction ops using List.reverseRecOn with
  | nil =>
    refine ⟨rfl, ?_, rfl, fun _ => rfl, fun _ _ h => ?_⟩
    · simp [run, HeightManager.new, Asked]
    · simp [run, HeightManager.new] at h
  | append_singleton ops op ih =>
    rw [run_concat]
    cases op with
    | record_event event =>
      have hevent : step (run cfg ops) (.record_event event) =
          if event.is_explicit then
            { run cfg ops with bypass_once := true, small_change_count := 0, hud_pending := none }
          else { run cfg ops with small_change_count := 0 } := by
        cases event <;> rfl
      rw [hevent]
      split_ifs with he
      · refine ⟨ih.cfg_kept, ?_, ?_, fun _ => rfl, fun _ _ h => by simp at h⟩
        · simp [asked_concat_event, he]
        · rw [frames_concat_event]
          exact ih.area
      · refine ⟨ih.cfg_kept, ?_, ?_, ih.asked_anew, ?_⟩
        · rw [asked_concat_event, ← ih.bypass]
          simp [he]
        · rw [frames_concat_event]
          exact ih.area
        · rw [targets_concat_event]
          exact ih.seen
    | begin_frame frame =>
      obtain ⟨count, pending, hframe, hpending⟩ :=
        HeightManager.begin_frame_spec (run cfg ops) frame
      have hnext : step (run cfg ops) (.begin_frame frame) = _ := congrArg Prod.fst hframe
      rw [hnext]
      refine ⟨ih.cfg_kept, ?_, ?_, fun h => by simp at h, ?_⟩
      · simp [not_asked_concat_frame]
      · rw [frames_concat_frame, List.getLast?_concat]
        exact ((run cfg ops).detect_resize_fields frame.area).2.2.2.2.2
      · intro target n hn
        obtain ⟨hpresent, hfirst | ⟨m, hm, hnext⟩⟩ := hpending (target, n) hn
        · obtain ⟨rfl, rfl⟩ := Prod.mk.inj hfirst
          rw [targets_concat_frame, if_pos hpresent]
          exact List.suffix_append _ _
        · obtain ⟨rfl, rfl⟩ := Prod.mk.inj hnext
          rw [targets_concat_frame, if_pos hpresent, List.replicate_succ']
          exact List.suffix_append_self_iff.mpr (ih.seen _ m hm)

theorem prompted_iff (before : List Op) (frame : Frame) :
    (run cfg before).prompted frame.area = true ↔ Prompted before frame := by
  have h := tracks cfg before
  unfold HeightManager.prompted Prompted
  rw [Bool.or_eq_true, h.bypass, h.area, bne_iff_ne]

/-- A prompted frame finds nothing pending. -/
theorem pending_of_prompted {before : List Op} (hprompted : Prompted before frame) :
    ((run cfg before).detect_resize frame.area).hud_pending = none := by
  have h := tracks cfg before
  unfold HeightManager.detect_resize
  split_ifs with hsize
  · rfl
  · rcases hprompted with hasked | hother
    · exact h.asked_anew (h.bypass.mpr hasked)
    · exact absurd (h.area ▸ not_not.mp hsize) hother

/-! ## Settling -/

/-- The HUD height that a frame is to get when nothing waits. -/
def target_hud (cfg : HeightManagerConfig) (frame : Frame) : Option Nat :=
  if frame.hud_present then some (hud_target cfg frame (bottom_desired cfg frame)) else none

/-- The rows of a layout that the history does not get. -/
def fixed_rows (layout : List Constraint) : Nat :=
  (layout.map fun
    | .Length rows => rows
    | .Fill _ => 0).sum

/-- The frame after this part of a run settles the heights as the comments say. -/
structure Settles (cfg : HeightManagerConfig) (before : List Op) (frame : Frame) : Prop where
  at_once : Prompted before frame →
    (run cfg (before ++ [Op.begin_frame frame])).last_bottom = some (bottom_desired cfg frame) ∧
      (run cfg (before ++ [Op.begin_frame frame])).last_hud = target_hud cfg frame ∧
      ((run cfg before).begin_frame frame).2 = constraints (status_height frame)
        (fit_hud frame.area.height (status_height frame) (bottom_desired cfg frame)
          ((target_hud cfg frame).getD 0)) (bottom_desired cfg frame)
  confirmed : ¬ Prompted before frame → ∀ last next,
    (run cfg before).last_hud = some last →
    (run cfg (before ++ [Op.begin_frame frame])).last_hud = some next → next ≠ last →
    List.replicate cfg.hud_confirm_frames (some next) <:+
      targets cfg (before ++ [Op.begin_frame frame])
  history_row : ∀ bottom_h,
    (run cfg (before ++ [Op.begin_frame frame])).last_bottom = some bottom_h →
    status_height frame + bottom_h + 1 ≤ frame.area.height →
    fixed_rows ((run cfg before).begin_frame frame).2 + 1 ≤ frame.area.height

/-- The HUD that is shown has no other height than the one a prompted frame wants, and the heights
that the parts ask for stay below the end of `u16`. -/
structure Clear (cfg : HeightManagerConfig) (before : List Op) (frame : Frame) : Prop where
  hud_shown : Prompted before frame → frame.hud_present → ∀ last,
    (run cfg before).last_hud = some last →
    last = hud_target cfg frame (bottom_desired cfg frame)
  in_u16 : status_height frame + (run cfg before).pane_rows frame + 1 ≤ frame.area.height →
    status_height frame + (run cfg before).pane_rows frame + (run cfg before).hud_rows frame < 65535

theorem fixed_rows_constraints (status_h hud_h bottom_h : Nat) :
    fixed_rows (constraints status_h hud_h bottom_h) = status_h + hud_h + bottom_h := by
  unfold constraints fixed_rows
  split_ifs <;> simp <;> omega

/-- The HUD leaves a row exactly when the sum of the rows is not cut off. -/
theorem fit_hud_leaves_row_iff {height status_h bottom_h hud_h : Nat} (hheight : height < 2 ^ 16)
    (hrow : status_h + bottom_h + 1 ≤ height) :
    status_h + fit_hud height status_h bottom_h hud_h + bottom_h + 1 ≤ height ↔
      status_h + bottom_h + hud_h < 65535 := by
  have hsum : u16 (status_h + bottom_h) = status_h + bottom_h := Nat.mod_eq_of_lt (by omega)
  unfold fit_hud
  dsimp only
  rw [hsum]
  unfold u16_saturating_add u16
  split_ifs <;> omega

/-- What a frame of a run leaves behind and lays out. -/
theorem frame_result (cfg : HeightManagerConfig) (before : List Op) (frame : Frame) :
    (run cfg (before ++ [Op.begin_frame frame])).last_bottom =
        some ((run cfg before).pane_rows frame) ∧
      (run cfg (before ++ [Op.begin_frame frame])).last_hud =
        (if frame.hud_present then some ((run cfg before).hud_rows frame) else none) ∧
      ((run cfg before).begin_frame frame).2 = constraints (status_height frame)
        (fit_hud frame.area.height (status_height frame) ((run cfg before).pane_rows frame)
          ((run cfg before).hud_rows frame)) ((run cfg before).pane_rows frame) := by
  obtain ⟨count, pending, hframe, -⟩ := (run cfg before).begin_frame_spec frame
  rw [run_concat, step, hframe]
  exact ⟨rfl, rfl, rfl⟩

theorem pane_rows_of_prompted {before : List Op} (hprompted : Prompted before frame) :
    (run cfg before).pane_rows frame = bottom_desired cfg frame := by
  have hflag : (run cfg before).prompted frame.area = true :=
    (prompted_iff before frame).mpr hprompted
  unfold HeightManager.pane_rows HeightManager.pane_waits
  rw [hflag, (tracks cfg before).cfg_kept]
  simp

/-- A prompted frame keeps the HUD height that is shown, whatever its target is. -/
theorem hud_rows_of_prompted {before : List Op} (hprompted : Prompted before frame)
    (hpresent : frame.hud_present = true) :
    (run cfg before).hud_rows frame =
      (run cfg before).last_hud.getD (hud_target cfg frame (bottom_desired cfg frame)) := by
  have hwanted : (run cfg before).hud_wanted frame =
      hud_target cfg frame (bottom_desired cfg frame) := by
    unfold HeightManager.hud_wanted
    rw [pane_rows_of_prompted hprompted, (tracks cfg before).cfg_kept]
  unfold HeightManager.hud_rows HeightManager.hud_confirmed
  rw [pending_of_prompted hprompted, hwanted]
  simp [hpresent]

theorem at_once_iff {before : List Op} (hprompted : Prompted before frame) :
    ((run cfg (before ++ [Op.begin_frame frame])).last_bottom = some (bottom_desired cfg frame) ∧
      (run cfg (before ++ [Op.begin_frame frame])).last_hud = target_hud cfg frame ∧
      ((run cfg before).begin_frame frame).2 = constraints (status_height frame)
        (fit_hud frame.area.height (status_height frame) (bottom_desired cfg frame)
          ((target_hud cfg frame).getD 0)) (bottom_desired cfg frame)) ↔
    (frame.hud_present → ∀ last, (run cfg before).last_hud = some last →
      last = hud_target cfg frame (bottom_desired cfg frame)) := by
  obtain ⟨hbottom, hhud, hlayout⟩ := frame_result cfg before frame
  rw [hbottom, hhud, hlayout, pane_rows_of_prompted hprompted]
  unfold target_hud
  cases hpresent : frame.hud_present with
  | false => simp [HeightManager.hud_rows, hpresent]
  | true =>
    rw [hud_rows_of_prompted hprompted hpresent]
    cases (run cfg before).last_hud with
    | none => simp
    | some last =>
      simp only [if_true, Option.getD_some, Option.some.injEq, true_and, forall_const]
      constructor
      · rintro ⟨hsame, -⟩ _ rfl
        exact hsame
      · intro hsame
        obtain hsame := hsame last rfl
        exact ⟨hsame, by rw [hsame]⟩

theorem pending_of_confirmed (hconfirmed : s.hud_confirmed frame = true) :
    ∃ n, s.hud_pending = some (s.hud_wanted frame, n) ∧ s.cfg.hud_confirm_frames ≤ n + 1 := by
  unfold HeightManager.hud_confirmed at hconfirmed
  rcases s.detect_resize_pending frame.area with hkept | hnone
  · rw [hkept] at hconfirmed
    cases hpending : s.hud_pending with
    | none => simp [hpending] at hconfirmed
    | some p =>
      obtain ⟨target, n⟩ := p
      obtain ⟨rfl, hn⟩ : target = s.hud_wanted frame ∧ s.cfg.hud_confirm_frames ≤ n + 1 := by
        simpa [hpending] using hconfirmed
      exact ⟨n, rfl, hn⟩
  · simp [hnone] at hconfirmed

/-- A HUD height that changes was the target of as many frames as the configuration asks for. -/
theorem changed_hud_confirmed {before : List Op} {last next : Nat}
    (hlast : (run cfg before).last_hud = some last)
    (hnext : (run cfg (before ++ [Op.begin_frame frame])).last_hud = some next)
    (hchanged : next ≠ last) :
    List.replicate cfg.hud_confirm_frames (some next) <:+
      targets cfg (before ++ [Op.begin_frame frame]) := by
  have htracks := tracks cfg before
  rw [(frame_result cfg before frame).2.1] at hnext
  obtain ⟨hpresent, hsome⟩ := Option.ite_none_right_eq_some.mp hnext
  have hrows : (run cfg before).hud_rows frame = next := Option.some.inj hsome
  unfold HeightManager.hud_rows at hrows
  rw [if_pos hpresent, hlast] at hrows
  by_cases hconfirmed : (run cfg before).hud_confirmed frame = true
  · rw [if_pos hconfirmed] at hrows
    obtain ⟨n, hpending, hn⟩ := pending_of_confirmed hconfirmed
    have hseen : List.replicate (n + 1) (some next) <:+
        targets cfg (before ++ [Op.begin_frame frame]) := by
      rw [targets_concat_frame, if_pos hpresent, List.replicate_succ', ← hrows]
      exact List.suffix_append_self_iff.mpr (htracks.seen _ n hpending)
    rw [htracks.cfg_kept] at hn
    refine List.IsSuffix.trans ⟨List.replicate (n + 1 - cfg.hud_confirm_frames) (some next), ?_⟩
      hseen
    rw [List.replicate_append_replicate, Nat.sub_add_cancel hn]
  · rw [if_neg hconfirmed] at hrows
    exact absurd hrows.symm hchanged

theorem settles_iff_clear (cfg : HeightManagerConfig) (before : List Op) (frame : Frame) :
    Settles cfg before frame ↔ Clear cfg before frame := by
  obtain ⟨hbottom, -, hlayout⟩ := frame_result cfg before frame
  have hrow := @fit_hud_leaves_row_iff frame.area.height (status_height frame)
    ((run cfg before).pane_rows frame) ((run cfg before).hud_rows frame) frame.height_u16
  constructor
  · intro h
    refine ⟨fun hprompted => (at_once_iff hprompted).mp (h.at_once hprompted), fun hroom => ?_⟩
    have hleft := h.history_row _ hbottom hroom
    rw [hlayout, fixed_rows_constraints] at hleft
    exact (hrow hroom).mp (by omega)
  · intro h
    refine ⟨fun hprompted => (at_once_iff hprompted).mpr (h.hud_shown hprompted),
      fun _ last next => changed_hud_confirmed, fun bottom_h hbottom_h hroom => ?_⟩
    obtain rfl : (run cfg before).pane_rows frame = bottom_h := by
      simpa [hbottom] using hbottom_h
    have hleft := (hrow hroom).mpr (h.in_u16 hroom)
    rw [hlayout, fixed_rows_constraints]
    omega

/-- The frames of a run settle the heights exactly when every frame finds its way clear. -/
theorem heights_settle_iff (cfg : HeightManagerConfig) (ops : List Op) :
    (∀ before frame, before ++ [Op.begin_frame frame] <+: ops → Settles cfg before frame) ↔
      ∀ before frame, before ++ [Op.begin_frame frame] <+: ops → Clear cfg before frame := by
  simp only [settles_iff_clear]

/-! A HUD of ten rows is shown, a run begins, and the frame that wants twenty keeps ten. -/

def shown_frame : Frame where
  area := ⟨0, 0, 80, 50⟩
  hud_present := true
  bottom_desired_height := 5
  font_cell := (8, 16)
  hud_target_override := some 10
  status_enabled := true
  height_u16 := by decide
  font_cell_pos := by decide

def run_frame : Frame := { shown_frame with hud_target_override := some 20 }

theorem run_begin_keeps_the_hud :
    ¬ ∀ ops before frame, before ++ [Op.begin_frame frame] <+: ops →
      Settles .default before frame := by
  intro h
  have hsettles := h _ [Op.begin_frame shown_frame, .record_event .RunBegin] run_frame
    (List.prefix_refl _)
  have hprompted : Prompted [Op.begin_frame shown_frame, .record_event .RunBegin] run_frame :=
    .inl ⟨[Op.begin_frame shown_frame], .RunBegin, [], rfl, rfl, rfl⟩
  exact absurd (hsettles.at_once hprompted).2.1 (by decide)

end Ecode.height_manager
