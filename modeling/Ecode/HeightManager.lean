-- The layout heights of the chat UI (tui/src/height_manager.rs): what a frame decides about the
-- bottom pane and the HUD.
import Mathlib

namespace Ecode.height_manager

inductive HeightEvent where
  | Resize
  | ComposerModeChange
  | HistoryFinalize
  | RunBegin
  | RunEnd
  | UserScroll
  deriving DecidableEq, Repr

structure HeightManagerConfig where
  hysteresis_n : Nat
  hud_quantum : Nat
  hud_confirm_frames : Nat
  bottom_percent_cap : Nat
  deriving DecidableEq, Repr

def HeightManagerConfig.default : HeightManagerConfig := ⟨2, 2, 2, 60⟩

structure Rect where
  x : Nat
  y : Nat
  width : Nat
  height : Nat
  deriving DecidableEq, Repr

structure HeightManager where
  cfg : HeightManagerConfig
  last_area : Option Rect
  last_bottom : Option Nat
  last_hud : Option Nat
  small_change_count : Nat
  bottom_small_change_count : Nat
  hud_pending : Option (Nat × Nat)
  bypass_once : Bool
  deriving DecidableEq, Repr

/-- The arguments of `begin_frame`. -/
structure Frame where
  area : Rect
  hud_present : Bool
  bottom_desired_height : Nat
  font_cell : Nat × Nat
  hud_target_override : Option Nat
  status_enabled : Bool
  height_u16 : area.height < 2 ^ 16
  font_cell_pos : 0 < font_cell.1 ∧ 0 < font_cell.2

/-- The parts of the layout from top to bottom. -/
inductive Constraint where
  | Length (rows : Nat)
  | Fill (weight : Nat)
  deriving DecidableEq, Repr

-- Rows are `u16` and the HUD estimate is made in `u32`; sums and products wrap.
def u16 (n : Nat) : Nat := n % 2 ^ 16

def u32 (n : Nat) : Nat := n % 2 ^ 32

def u16_saturating_add (a b : Nat) : Nat := min (a + b) 65535

/-! ## What a frame aims at -/

def status_height (frame : Frame) : Nat := if frame.status_enabled then 3 else 0

/-- The desired height of the bottom pane, within its part of the screen. -/
def bottom_desired (cfg : HeightManagerConfig) (frame : Frame) : Nat :=
  let percent_cap :=
    u16 (min (frame.area.height * cfg.bottom_percent_cap) (2 ^ 32 - 1) / 100)
  min (max frame.bottom_desired_height 5) (max percent_cap 5)

/-- The HUD height from the width at 16:9. -/
def aspect_target (frame : Frame) : Nat :=
  let inner_cols := frame.area.width - 2 - 2
  let number := u32 (inner_cols * 3 * frame.font_cell.1)
  let denom := 4 * frame.font_cell.2
  u16_saturating_add (u16 (number / denom)) 1

/-- The HUD target above a bottom pane, within the budget and in quanta. -/
def hud_target (cfg : HeightManagerConfig) (frame : Frame) (bottom_h : Nat) : Nat :=
  let target := frame.hud_target_override.getD (aspect_target frame)
  let vertical_budget := frame.area.height - status_height frame - bottom_h - 1
  let min_height := if frame.hud_target_override.isSome then 3 else 4
  let target :=
    if vertical_budget < min_height then vertical_budget
    else min (max target min_height) vertical_budget
  if frame.hud_target_override.isSome then target
  else
    let q := max cfg.hud_quantum 1
    let floored := target / q * q
    if floored = 0 then q else floored

/-- What is left of the HUD when the history keeps a row. -/
def fit_hud (height status_h bottom_h hud_h : Nat) : Nat :=
  let total_non_history := u16 (u16 (status_h + bottom_h) + hud_h)
  if height < u16_saturating_add total_non_history 1 then
    hud_h - min hud_h (u16_saturating_add total_non_history 1 - height)
  else hud_h

/-- The rows of the layout. -/
def constraints (status_h hud_h bottom_h : Nat) : List Constraint :=
  if 0 < hud_h then [.Length status_h, .Length hud_h, .Fill 1, .Length bottom_h]
  else [.Length status_h, .Fill 1, .Length bottom_h]

namespace HeightManager

def new (cfg : HeightManagerConfig) : HeightManager where
  cfg := cfg
  last_area := none
  last_bottom := none
  last_hud := none
  small_change_count := 0
  bottom_small_change_count := 0
  hud_pending := none
  bypass_once := false

def record_event (s : HeightManager) : HeightEvent → HeightManager
  | .UserScroll => { s with small_change_count := 0 }
  | _ => { s with bypass_once := true, small_change_count := 0, hud_pending := none }

/-- A change of the size counts as an explicit event. -/
def detect_resize (s : HeightManager) (area : Rect) : HeightManager :=
  if s.last_area.map (fun r => (r.width, r.height)) ≠ some (area.width, area.height) then
    { s.record_event .Resize with last_area := some area }
  else s

/-- The height of the bottom pane: it grows at once and waits before it shrinks by one row. -/
def take_bottom (s : HeightManager) (desired : Nat) : HeightManager × Nat :=
  let settled := { s with bottom_small_change_count := 0 }
  match s.last_bottom, s.bypass_once with
  | some _, true => (s, desired)
  | some prev, false =>
    if prev < desired then (settled, desired)
    else if desired < prev then
      if prev - desired = 1 then
        if s.cfg.hysteresis_n ≤ s.bottom_small_change_count + 1 then (settled, desired)
        else ({ s with
          bottom_small_change_count := min (s.bottom_small_change_count + 1) 255 }, prev)
      else (settled, desired)
    else (settled, prev)
  | none, _ => (s, desired)

def apply_hud_confirmation (s : HeightManager) (quantized : Nat) : HeightManager × Nat :=
  let applied := ({ s with hud_pending := none, last_hud := some quantized }, quantized)
  if s.bypass_once then
    ({ s with bypass_once := false, hud_pending := none, last_hud := some quantized }, quantized)
  else
    match s.last_hud, s.hud_pending with
    | some last, none =>
      if last = quantized then (s, last)
      else ({ s with hud_pending := some (quantized, 1) }, last)
    | some last, some (pending, n) =>
      if pending = quantized then
        if s.cfg.hud_confirm_frames ≤ n + 1 then applied
        else ({ s with hud_pending := some (pending, n + 1) }, last)
      else ({ s with hud_pending := some (quantized, 1) }, last)
    | none, _ => applied

/-- The HUD height of a frame, before the history takes its row. -/
def take_hud (s : HeightManager) (frame : Frame) (bottom_h : Nat) : HeightManager × Nat :=
  if frame.hud_present then s.apply_hud_confirmation (hud_target s.cfg frame bottom_h)
  else ({ s with hud_pending := none, last_hud := none }, 0)

def begin_frame (s : HeightManager) (frame : Frame) : HeightManager × List Constraint :=
  let s := s.detect_resize frame.area
  let status_h := status_height frame
  let bottom := s.take_bottom (bottom_desired s.cfg frame)
  let s := { bottom.1 with last_bottom := some bottom.2, bypass_once := false }
  let hud := s.take_hud frame bottom.2
  let hud_h := fit_hud frame.area.height status_h bottom.2 hud.2
  (hud.1, constraints status_h hud_h bottom.2)

end HeightManager

end Ecode.height_manager
