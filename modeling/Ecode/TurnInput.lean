-- The input of a turn (core/src/codex/session.rs): the history without its ephemeral screenshots
-- and its environment context, and what is lost of the user's own words and images.
import Ecode.HistoryBridge
import Ecode.Retention

namespace Ecode.turn_input

open retention
open compact (ENVIRONMENT_CONTEXT_OPEN_TAG ENVIRONMENT_CONTEXT_CLOSE_TAG
  ENVIRONMENT_CONTEXT_DELTA_OPEN_TAG ENVIRONMENT_CONTEXT_DELTA_CLOSE_TAG)

variable {β Snapshot Delta : Type}

/-! ## The environment context in a message -/

/-- `str::find`, counted in characters. -/
def find (text pattern : Text) : Option Nat :=
  text.tails.findIdx? fun rest => pattern.isPrefixOf rest

/-- `str::rfind`, counted in characters. -/
def rfind (text pattern : Text) : Option Nat :=
  ((text.tails.zipIdx.filter fun (rest, _) => pattern.isPrefixOf rest).getLast?).map Prod.snd

def extract_tagged_json (text open_tag close_tag : Text) : Option Text := do
  let start := (← find text open_tag) + open_tag.length
  let last ← rfind text close_tag
  if last ≤ start then none else some (Text.trim ((text.take last).drop start))

/-- The first text of a message of the user that holds a value between two tags. -/
def parse_tagged {α : Type} (from_str : Text → Option α) (open_tag close_tag : Text) :
    ResponseItem β → Option α
  | .Message _ role content _ _ =>
    if role ≠ "user".toList then none
    else
      content.findSome? fun
        | .InputText text => (extract_tagged_json text open_tag close_tag).bind from_str
        | _ => none
  | _ => none

def parse_env_snapshot_from_response (from_str : Text → Option Snapshot) :
    ResponseItem β → Option Snapshot :=
  parse_tagged from_str ENVIRONMENT_CONTEXT_OPEN_TAG ENVIRONMENT_CONTEXT_CLOSE_TAG

def parse_env_delta_from_response (from_str : Text → Option Delta) :
    ResponseItem β → Option Delta :=
  parse_tagged from_str ENVIRONMENT_CONTEXT_DELTA_OPEN_TAG ENVIRONMENT_CONTEXT_DELTA_CLOSE_TAG

def is_legacy_env_context : ResponseItem β → Bool
  | .Message _ role content _ _ =>
    decide (role = "user".toList) &&
      any_input_text content fun text => Text.contains text "<environment_context>".toList
  | _ => false

/-! ## The ephemeral screenshots -/

def is_ephemeral_marker : ContentItem → Bool
  | .InputText text => Text.starts_with text "[EPHEMERAL:".toList
  | _ => false

/-- The loop over the content of a message, with its flag `skip_next_image`. -/
def filter_ephemeral : Bool → List ContentItem → List ContentItem
  | _, [] => []
  | skip_next_image, content_item :: rest =>
    if is_ephemeral_marker content_item then filter_ephemeral true rest
    else if is_image content_item && skip_next_image then filter_ephemeral false rest
    else content_item :: filter_ephemeral skip_next_image rest

def without_ephemeral : ResponseItem β → ResponseItem β
  | .Message id role content _ _ =>
    if role = "user".toList then .Message id role (filter_ephemeral false content) none none
    else .Message id role content none none
  | item => item

/-! ## The turn input -/

/-- What of the session the input of a turn is built from. `prompt_items` is what the timeline
assembles, none when it is empty or has an error. -/
structure Session (β : Type) where
  history : List (ResponseItem β)
  env_ctx_v2 : Bool
  prompt_items : Option (List (ResponseItem β))
  is_chatgpt : Bool

def Session.assemble_from_timeline (s : Session β) : Option (List (ResponseItem β)) :=
  if !s.env_ctx_v2 then none
  else
    match s.prompt_items with
    | some items => if items.isEmpty then none else some items
    | none => none

def strip_encrypted : ResponseItem β → ResponseItem β
  | .Reasoning id summary content _ => .Reasoning id summary content none
  | other => other

section

-- The flag `CTX_UI`, and how serde reads a snapshot and a delta.
variable (CTX_UI : Bool) (snapshot_from_str : Text → Option Snapshot)
  (delta_from_str : Text → Option Delta)

def Session.turn_input_with_history (s : Session β) (extra : List (ResponseItem β)) :
    List (ResponseItem β) :=
  let filtered_history :=
    (s.history.filter fun item => !(s.env_ctx_v2 && CTX_UI && is_legacy_env_context item)).map
      without_ephemeral
  let filtered_extra :=
    if s.env_ctx_v2 && CTX_UI then
      extra.filter fun item =>
        (parse_env_snapshot_from_response snapshot_from_str item).isNone &&
          (parse_env_delta_from_response delta_from_str item).isNone
    else extra
  let result := s.assemble_from_timeline.getD [] ++ filtered_history ++ filtered_extra
  let sanitize_encrypted_reasoning := !s.is_chatgpt
  if sanitize_encrypted_reasoning then result.map strip_encrypted else result

end

/-! ## What is to be kept -/

/-- A text that is an environment context from its first to its last tag. -/
def is_env_text (text : Text) : Bool :=
  (Text.starts_with text ENVIRONMENT_CONTEXT_OPEN_TAG &&
    Text.ends_with text ENVIRONMENT_CONTEXT_CLOSE_TAG) ||
  (Text.starts_with text ENVIRONMENT_CONTEXT_DELTA_OPEN_TAG &&
    Text.ends_with text ENVIRONMENT_CONTEXT_DELTA_CLOSE_TAG)

/-- An environment-context item: it is written as a message of the user with this one text. -/
def is_env_context : ResponseItem β → Bool
  | .Message _ role [.InputText text] _ _ => decide (role = "user".toList) && is_env_text text
  | _ => false

/-- The content without the markers and without the images directly after a marker, where `prev`
is the item before it. -/
def own_content : Option ContentItem → List ContentItem → List ContentItem
  | _, [] => []
  | prev, content_item :: rest =>
    if is_ephemeral_marker content_item then own_content (some content_item) rest
    else if is_image content_item && prev.any is_ephemeral_marker then
      own_content (some content_item) rest
    else content_item :: own_content (some content_item) rest

/-- What is sent for an item keeps all of it that the user or the model has made. -/
def Keeps : ResponseItem β → ResponseItem β → Prop
  | .Message id role content _ _, out =>
    ∃ sent end_turn phase, out = .Message id role sent end_turn phase ∧ sent.Sublist content ∧
      if role = "user".toList then (own_content none content).Sublist sent else sent = content
  | .Reasoning id summary content _, out =>
    ∃ encrypted_content, out = .Reasoning id summary content encrypted_content
  | item, out => out = item

/-- An item is sent once and kept, or it is an environment-context item that is left out. -/
def Sent (item : ResponseItem β) (sent : List (ResponseItem β)) : Prop :=
  (sent = [] ∧ is_env_context item = true) ∨ ∃ out, sent = [out] ∧ Keeps item out

section

variable (CTX_UI : Bool) (snapshot_from_str : Text → Option Snapshot)
  (delta_from_str : Text → Option Delta)

/-- What is sent for a part of the history and a part of the extra items alone. -/
def Session.sent_alone (s : Session β) (history extra : List (ResponseItem β)) :
    List (ResponseItem β) :=
  { s with history, prompt_items := none }.turn_input_with_history CTX_UI snapshot_from_str
    delta_from_str extra

/-- After the timeline everything is sent in order, item by item, and what is sent for an item
keeps it. -/
structure KeepsUserContent (s : Session β) (extra : List (ResponseItem β)) : Prop where
  in_order : s.turn_input_with_history CTX_UI snapshot_from_str delta_from_str extra =
    { s with history := [] }.turn_input_with_history CTX_UI snapshot_from_str delta_from_str [] ++
      (s.history.flatMap (fun item =>
          s.sent_alone CTX_UI snapshot_from_str delta_from_str [item] []) ++
        extra.flatMap (fun item =>
          s.sent_alone CTX_UI snapshot_from_str delta_from_str [] [item]))
  history : ∀ item ∈ s.history,
    Sent item (s.sent_alone CTX_UI snapshot_from_str delta_from_str [item] [])
  extra : ∀ item ∈ extra, Sent item (s.sent_alone CTX_UI snapshot_from_str delta_from_str [] [item])

end

/-! ## When it is kept -/

/-- After what was read a marker waits for its image. -/
def OpenMarker (read : List ContentItem) : Prop :=
  ∃ before marker between, read = before ++ marker :: between ∧
    is_ephemeral_marker marker = true ∧ ∀ c ∈ between, is_image c = false

/-- An image that is not directly after a marker, and before it a marker that waits for its
image. -/
def StrayImage (content : List ContentItem) : Prop :=
  ∃ read image rest, content = read ++ image :: rest ∧ is_image image = true ∧ OpenMarker read ∧
    read.getLast?.any is_ephemeral_marker = false

/-- A message of the user with such an image. -/
def has_stray_image : ResponseItem β → Prop
  | .Message _ role content _ _ => role = "user".toList ∧ StrayImage content
  | _ => False

section

variable (CTX_UI : Bool) (snapshot_from_str : Text → Option Snapshot)
  (delta_from_str : Text → Option Delta)

/-- With the flags set, what is dropped for its environment context is such an item. No image of
the history is stray. -/
structure NothingLost (s : Session β) (extra : List (ResponseItem β)) : Prop where
  history : s.env_ctx_v2 = true → CTX_UI = true →
    ∀ item ∈ s.history, is_legacy_env_context item = true → is_env_context item = true
  extra : s.env_ctx_v2 = true → CTX_UI = true → ∀ item ∈ extra,
    (parse_env_snapshot_from_response snapshot_from_str item).isSome = true ∨
      (parse_env_delta_from_response delta_from_str item).isSome = true →
    is_env_context item = true
  images : ∀ item ∈ s.history, ¬ has_stray_image item

end

/-! ## The content of a message -/

theorem not_image_of_marker {c : ContentItem} (h : is_ephemeral_marker c = true) :
    is_image c = false := by
  cases c <;> simp_all [is_ephemeral_marker, is_image]

/-- A marker opens, an image closes, and everything else leaves it as it is. -/
theorem openMarker_concat {read : List ContentItem} {c : ContentItem} :
    OpenMarker (read ++ [c]) ↔
      is_ephemeral_marker c = true ∨ (is_image c = false ∧ OpenMarker read) := by
  constructor
  · rintro ⟨before, marker, between, heq, hmarker, hbetween⟩
    rcases List.eq_nil_or_concat' between with rfl | ⟨between, last, rfl⟩
    · obtain ⟨-, rfl⟩ : read = before ∧ c = marker := by simpa using heq
      exact .inl hmarker
    · have heq' : read ++ [c] = (before ++ marker :: between) ++ [last] := by simpa using heq
      obtain ⟨rfl, hlast⟩ := List.append_inj' heq' rfl
      obtain rfl : c = last := by simpa using hlast
      exact .inr ⟨hbetween c (by simp), before, marker, between, rfl, hmarker,
        fun x hx => hbetween x (by simp [hx])⟩
  · rintro (hmarker | ⟨himage, before, marker, between, rfl, hmarker, hbetween⟩)
    · exact ⟨read, c, [], rfl, hmarker, by simp⟩
    · refine ⟨before, marker, between ++ [c], by simp, hmarker, fun x hx => ?_⟩
      rcases List.mem_append.mp hx with hx | hx
      · exact hbetween x hx
      · obtain rfl : x = c := by simpa using hx
        exact himage

theorem openMarker_of_last {read : List ContentItem}
    (h : read.getLast?.any is_ephemeral_marker = true) : OpenMarker read := by
  rcases List.eq_nil_or_concat' read with rfl | ⟨read, last, rfl⟩
  · cases h
  · exact openMarker_concat.mpr (.inl (by simpa using h))

/-- The loop drops nothing but markers and images, and all that is ephemeral. -/
theorem filter_ephemeral_sublist (content : List ContentItem) (skip : Bool) :
    (filter_ephemeral skip content).Sublist content := by
  induction content generalizing skip with
  | nil => exact .slnil
  | cons c rest ih =>
    unfold filter_ephemeral
    split_ifs
    · exact (ih true).cons c
    · exact (ih false).cons c
    · exact (ih skip).cons_cons c

theorem own_content_sublist (content : List ContentItem) (prev : Option ContentItem) :
    (own_content prev content).Sublist content := by
  induction content generalizing prev with
  | nil => exact .slnil
  | cons c rest ih =>
    unfold own_content
    split_ifs
    · exact (ih _).cons c
    · exact (ih _).cons c
    · exact (ih _).cons_cons c

theorem filter_ephemeral_sublist_own {prev : Option ContentItem} (content : List ContentItem)
    {skip : Bool} (h : prev.any is_ephemeral_marker = true → skip = true) :
    (filter_ephemeral skip content).Sublist (own_content prev content) := by
  induction content generalizing skip prev with
  | nil => exact .slnil
  | cons c rest ih =>
    unfold filter_ephemeral own_content
    by_cases hmarker : is_ephemeral_marker c = true
    · rw [if_pos hmarker, if_pos hmarker]
      exact ih fun _ => rfl
    have hsome : (some c).any is_ephemeral_marker = true → False := by simpa using hmarker
    rw [if_neg hmarker, if_neg hmarker]
    split_ifs with hskip hprev hprev
    · exact ih fun h' => (hsome h').elim
    · exact (ih fun h' => (hsome h').elim).cons c
    · simp only [Bool.and_eq_true] at hskip hprev
      exact absurd ⟨hprev.1, h hprev.2⟩ hskip
    · exact (ih fun h' => (hsome h').elim).cons_cons c

/-- The first image of a content after what was read, or one that comes later. -/
theorem stray_cons {read rest : List ContentItem} {c : ContentItem} :
    (∃ r image after, c :: rest = r ++ image :: after ∧ is_image image = true ∧
        OpenMarker (read ++ r) ∧ (read ++ r).getLast?.any is_ephemeral_marker = false) ↔
      (is_image c = true ∧ OpenMarker read ∧ read.getLast?.any is_ephemeral_marker = false) ∨
      ∃ r image after, rest = r ++ image :: after ∧ is_image image = true ∧
        OpenMarker (read ++ [c] ++ r) ∧
        (read ++ [c] ++ r).getLast?.any is_ephemeral_marker = false := by
  constructor
  · rintro ⟨r, image, after, heq, himage, hopen, hlast⟩
    cases r with
    | nil =>
      obtain ⟨rfl, rfl⟩ : c = image ∧ rest = after := by simpa using heq
      exact .inl ⟨himage, by simpa using hopen, by simpa using hlast⟩
    | cons d r =>
      obtain ⟨rfl, rfl⟩ : c = d ∧ rest = r ++ image :: after := by simpa using heq
      exact .inr ⟨r, image, after, rfl, himage, by simpa using hopen, by simpa using hlast⟩
  · rintro (⟨himage, hopen, hlast⟩ | ⟨r, image, after, rfl, himage, hopen, hlast⟩)
    · exact ⟨[], c, rest, rfl, himage, by simpa using hopen, by simpa using hlast⟩
    · exact ⟨c :: r, image, after, rfl, himage, by simpa using hopen, by simpa using hlast⟩

/-- Content that is dropped is missing. -/
theorem filter_ephemeral_ne_of_dropped {c : ContentItem} (rest : List ContentItem)
    (hmarker : is_ephemeral_marker c = false) :
    filter_ephemeral false rest ≠ c :: own_content (some c) rest := by
  have hshort : (filter_ephemeral false rest).Sublist (own_content (some c) rest) :=
    filter_ephemeral_sublist_own rest (by simp [hmarker])
  intro heq
  have hlength := hshort.length_le
  rw [heq] at hlength
  simp at hlength

/-- By induction on the content that is left, with the flag set exactly when a marker waits for
its image. -/
theorem filter_ephemeral_eq_own_iff {read : List ContentItem} (content : List ContentItem)
    {skip : Bool} (hskip : skip = true ↔ OpenMarker read) :
    filter_ephemeral skip content = own_content read.getLast? content ↔
      ¬ ∃ r image after, content = r ++ image :: after ∧ is_image image = true ∧
        OpenMarker (read ++ r) ∧ (read ++ r).getLast?.any is_ephemeral_marker = false := by
  induction content generalizing read skip with
  | nil => simp [filter_ephemeral, own_content]
  | cons c rest ih =>
    have hlast : (read ++ [c]).getLast? = some c := by simp
    have hstays (h : is_image c = false) (h' : is_ephemeral_marker c = false) :
        skip = true ↔ OpenMarker (read ++ [c]) := by
      simp [openMarker_concat, h, h', hskip]
    have hclosed (h : is_image c = true) (h' : is_ephemeral_marker c = false) :
        false = true ↔ OpenMarker (read ++ [c]) := by
      simp [openMarker_concat, h, h']
    rw [stray_cons]
    unfold filter_ephemeral own_content
    by_cases hmarker : is_ephemeral_marker c = true
    · rw [if_pos hmarker, if_pos hmarker, ← hlast,
        ih (by simp [openMarker_concat, hmarker]), not_image_of_marker hmarker]
      simp
    rw [if_neg hmarker, if_neg hmarker]
    rw [Bool.not_eq_true] at hmarker
    by_cases himage : is_image c = true
    · by_cases hattached : read.getLast?.any is_ephemeral_marker = true
      · have hopen := hskip.mpr (openMarker_of_last hattached)
        rw [himage, hattached, hopen]
        simp only [Bool.and_self, ↓reduceIte]
        rw [← hlast, ih (hclosed himage hmarker)]
        simp
      · rw [Bool.not_eq_true] at hattached
        rw [himage, hattached]
        simp only [Bool.true_and, Bool.false_eq_true, ↓reduceIte]
        cases hskipped : skip with
        | true =>
          have hopen : OpenMarker read := hskip.mp hskipped
          simp only [↓reduceIte, hopen, and_self, true_or, not_true, iff_false]
          exact filter_ephemeral_ne_of_dropped rest hmarker
        | false =>
          have hnone : ¬ OpenMarker read := fun h => by simp [hskip.mpr h] at hskipped
          simp only [Bool.false_eq_true, ↓reduceIte, List.cons.injEq, true_and, hnone, false_and,
            and_false, false_or]
          rw [← hlast, ih (hclosed himage hmarker)]
    · rw [Bool.not_eq_true] at himage
      rw [himage]
      simp only [Bool.false_and, Bool.false_eq_true, ↓reduceIte, List.cons.injEq, true_and,
        false_and, false_or]
      rw [← hlast, ih (hstays himage hmarker)]

/-- The loop keeps all of the user's own content exactly when no image is stray. -/
theorem own_content_sublist_iff {content : List ContentItem} :
    (own_content none content).Sublist (filter_ephemeral false content) ↔ ¬ StrayImage content := by
  have hsub : (filter_ephemeral false content).Sublist (own_content none content) :=
    filter_ephemeral_sublist_own content (by simp)
  have hnone : false = true ↔ OpenMarker [] := by simp [OpenMarker]
  have heq : filter_ephemeral false content = own_content none content ↔ ¬ StrayImage content :=
    filter_ephemeral_eq_own_iff content hnone
  rw [← heq]
  constructor
  · exact fun h => hsub.antisymm h
  · exact fun h => h ▸ List.Sublist.refl _

/-! ## Item by item -/

theorem map_filter_eq_flatMap {α γ : Type} (keep : α → Bool) (f : α → γ) (items : List α) :
    (items.filter keep).map f = items.flatMap fun item => if keep item then [f item] else [] := by
  induction items with
  | nil => rfl
  | cons item rest ih =>
    rw [List.filter_cons, List.flatMap_cons, ← ih]
    split <;> rfl

def Session.sanitize (s : Session β) (item : ResponseItem β) : ResponseItem β :=
  if s.is_chatgpt then item else strip_encrypted item

section

variable {CTX_UI : Bool} {snapshot_from_str : Text → Option Snapshot}
  {delta_from_str : Text → Option Delta} {s : Session β}

/-- Everything is sent in order, each item for itself. -/
theorem turn_input_eq (extra : List (ResponseItem β)) :
    s.turn_input_with_history CTX_UI snapshot_from_str delta_from_str extra =
      (s.assemble_from_timeline.getD []).map s.sanitize ++
        (s.history.flatMap (fun item =>
            if s.env_ctx_v2 && CTX_UI && is_legacy_env_context item then []
            else [s.sanitize (without_ephemeral item)]) ++
          extra.flatMap (fun item =>
            if s.env_ctx_v2 && CTX_UI &&
                ((parse_env_snapshot_from_response snapshot_from_str item).isSome ||
                  (parse_env_delta_from_response delta_from_str item).isSome) then []
            else [s.sanitize item])) := by
  have hsanitize (items : List (ResponseItem β)) :
      (if !s.is_chatgpt then items.map strip_encrypted else items) = items.map s.sanitize := by
    unfold Session.sanitize
    cases s.is_chatgpt <;> simp
  have hextra : (if s.env_ctx_v2 && CTX_UI then
      extra.filter fun item =>
        (parse_env_snapshot_from_response snapshot_from_str item).isNone &&
          (parse_env_delta_from_response delta_from_str item).isNone
      else extra) =
      extra.filter fun item => !(s.env_ctx_v2 && CTX_UI &&
        ((parse_env_snapshot_from_response snapshot_from_str item).isSome ||
          (parse_env_delta_from_response delta_from_str item).isSome)) := by
    cases s.env_ctx_v2 && CTX_UI <;> simp
  unfold Session.turn_input_with_history
  dsimp only
  rw [hsanitize, hextra, List.map_append, List.map_append, List.append_assoc, List.map_map,
    map_filter_eq_flatMap, map_filter_eq_flatMap]
  congr 2
  · refine congrArg (List.flatMap · s.history) (funext fun item => ?_)
    cases s.env_ctx_v2 && CTX_UI && is_legacy_env_context item <;> rfl
  · refine congrArg (List.flatMap · extra) (funext fun item => ?_)
    cases s.env_ctx_v2 && CTX_UI &&
      ((parse_env_snapshot_from_response snapshot_from_str item).isSome ||
        (parse_env_delta_from_response delta_from_str item).isSome) <;> rfl

/-- What is sent for an item of the history alone. -/
theorem sent_alone_history (item : ResponseItem β) :
    s.sent_alone CTX_UI snapshot_from_str delta_from_str [item] [] =
      if s.env_ctx_v2 && CTX_UI && is_legacy_env_context item then []
      else [s.sanitize (without_ephemeral item)] := by
  rw [Session.sent_alone, turn_input_eq]
  simp [Session.assemble_from_timeline, Session.sanitize]

theorem sent_alone_extra (item : ResponseItem β) :
    s.sent_alone CTX_UI snapshot_from_str delta_from_str [] [item] =
      if s.env_ctx_v2 && CTX_UI &&
          ((parse_env_snapshot_from_response snapshot_from_str item).isSome ||
            (parse_env_delta_from_response delta_from_str item).isSome) then []
      else [s.sanitize item] := by
  rw [Session.sent_alone, turn_input_eq]
  simp [Session.assemble_from_timeline, Session.sanitize]

theorem keeps_sanitize {item out : ResponseItem β} (h : Keeps item out) :
    Keeps item (s.sanitize out) := by
  unfold Session.sanitize
  split
  · exact h
  · cases item with
    | Message =>
      obtain ⟨sent, end_turn, phase, rfl, hsent⟩ := h
      exact ⟨sent, end_turn, phase, rfl, hsent⟩
    | Reasoning =>
      obtain ⟨encrypted_content, rfl⟩ := h
      exact ⟨none, rfl⟩
    | _ =>
      obtain rfl : out = _ := h
      rfl

theorem keeps_self (item : ResponseItem β) : Keeps item item := by
  cases item with
  | Message id role content end_turn phase =>
    refine ⟨content, end_turn, phase, rfl, .refl _, ?_⟩
    split
    · exact own_content_sublist content none
    · rfl
  | Reasoning id summary content encrypted_content => exact ⟨encrypted_content, rfl⟩
  | _ => rfl

@[simp]
theorem sanitize_message {id : Option Text} {role : Text} {content : List ContentItem}
    {end_turn : Option Bool} {phase : Option β} :
    s.sanitize (.Message id role content end_turn phase) =
      .Message id role content end_turn phase := by
  unfold Session.sanitize
  split <;> rfl

/-- A message of the history is kept exactly when it has no stray image. -/
theorem keeps_without_ephemeral_iff (item : ResponseItem β) :
    Keeps item (s.sanitize (without_ephemeral item)) ↔ ¬ has_stray_image item := by
  cases item with
  | Message id role content end_turn phase =>
    by_cases hrole : role = "user".toList
    · rw [without_ephemeral, if_pos hrole, sanitize_message, has_stray_image, hrole]
      simp only [true_and]
      rw [← own_content_sublist_iff]
      constructor
      · rintro ⟨sent, _, _, hout, -, hown⟩
        obtain rfl : filter_ephemeral false content = sent := (ResponseItem.Message.inj hout).2.2.1
        simpa using hown
      · intro hown
        exact ⟨_, none, none, rfl, filter_ephemeral_sublist content false, by simpa using hown⟩
    · rw [without_ephemeral, if_neg hrole, sanitize_message, has_stray_image]
      simp only [hrole, false_and, not_false_eq_true, iff_true]
      exact ⟨content, none, none, rfl, .refl _, by rw [if_neg hrole]⟩
  | _ =>
    simp only [has_stray_image, not_false_eq_true, iff_true]
    exact keeps_sanitize (keeps_self _)

/-- The one text of an environment-context item is no image. -/
theorem not_stray_of_env_context {item : ResponseItem β} (h : is_env_context item = true) :
    ¬ has_stray_image item := by
  unfold is_env_context at h
  split at h
  · rintro ⟨-, read, image, rest, heq, himage, -⟩
    have hmem : image ∈ read ++ image :: rest := by simp
    rw [← heq] at hmem
    obtain rfl := List.mem_singleton.mp hmem
    cases himage
  · cases h

theorem sent_history_iff (item : ResponseItem β) :
    Sent item (s.sent_alone CTX_UI snapshot_from_str delta_from_str [item] []) ↔
      (s.env_ctx_v2 = true → CTX_UI = true → is_legacy_env_context item = true →
        is_env_context item = true) ∧ ¬ has_stray_image item := by
  rw [sent_alone_history]
  by_cases hdropped : (s.env_ctx_v2 && CTX_UI && is_legacy_env_context item) = true
  · rw [if_pos hdropped]
    simp only [Bool.and_eq_true] at hdropped
    constructor
    · rintro (⟨-, henv⟩ | ⟨out, hout, -⟩)
      · exact ⟨fun _ _ _ => henv, not_stray_of_env_context henv⟩
      · cases hout
    · rintro ⟨henv, -⟩
      exact .inl ⟨rfl, henv hdropped.1.1 hdropped.1.2 hdropped.2⟩
  · rw [if_neg hdropped]
    simp only [Bool.and_eq_true, not_and] at hdropped
    constructor
    · rintro (⟨hnil, -⟩ | ⟨out, hout, hkeeps⟩)
      · cases hnil
      · obtain rfl : _ = out := List.singleton_inj.mp hout
        exact ⟨fun hv2 hui hlegacy => (hdropped ⟨hv2, hui⟩ hlegacy).elim,
          (keeps_without_ephemeral_iff item).mp hkeeps⟩
    · rintro ⟨-, hstray⟩
      exact .inr ⟨_, rfl, (keeps_without_ephemeral_iff item).mpr hstray⟩

theorem sent_extra_iff (item : ResponseItem β) :
    Sent item (s.sent_alone CTX_UI snapshot_from_str delta_from_str [] [item]) ↔
      (s.env_ctx_v2 = true → CTX_UI = true →
        (parse_env_snapshot_from_response snapshot_from_str item).isSome = true ∨
          (parse_env_delta_from_response delta_from_str item).isSome = true →
        is_env_context item = true) := by
  rw [sent_alone_extra]
  by_cases hdropped : (s.env_ctx_v2 && CTX_UI &&
      ((parse_env_snapshot_from_response snapshot_from_str item).isSome ||
        (parse_env_delta_from_response delta_from_str item).isSome)) = true
  · rw [if_pos hdropped]
    simp only [Bool.and_eq_true, Bool.or_eq_true] at hdropped
    constructor
    · rintro (⟨-, henv⟩ | ⟨out, hout, -⟩)
      · exact fun _ _ _ => henv
      · cases hout
    · exact fun henv => .inl ⟨rfl, henv hdropped.1.1 hdropped.1.2 hdropped.2⟩
  · rw [if_neg hdropped]
    simp only [Bool.and_eq_true, Bool.or_eq_true, not_and] at hdropped
    constructor
    · exact fun _ hv2 hui hparsed => (hdropped ⟨hv2, hui⟩ hparsed).elim
    · exact fun _ => .inr ⟨_, rfl, keeps_sanitize (keeps_self item)⟩

variable (CTX_UI snapshot_from_str delta_from_str s) in
/-- The turn input keeps the user's content exactly when, with the flags set, only
environment-context items hold their tag, and no image stands after a marker and other text. -/
theorem keeps_user_content_iff (extra : List (ResponseItem β)) :
    KeepsUserContent CTX_UI snapshot_from_str delta_from_str s extra ↔
      NothingLost CTX_UI snapshot_from_str delta_from_str s extra := by
  constructor
  · intro h
    refine ⟨fun hv2 hui item hitem => ?_, fun hv2 hui item hitem => ?_, fun item hitem => ?_⟩
    · exact ((sent_history_iff item).mp (h.history item hitem)).1 hv2 hui
    · exact (sent_extra_iff item).mp (h.extra item hitem) hv2 hui
    · exact ((sent_history_iff item).mp (h.history item hitem)).2
  · intro h
    refine ⟨?_, fun item hitem => ?_, fun item hitem => ?_⟩
    · rw [turn_input_eq, turn_input_eq]
      simp only [sent_alone_history, sent_alone_extra]
      simp [Session.assemble_from_timeline, Session.sanitize]
    · exact (sent_history_iff item).mpr
        ⟨fun hv2 hui => h.history hv2 hui item hitem, h.images item hitem⟩
    · exact (sent_extra_iff item).mpr fun hv2 hui => h.extra hv2 hui item hitem

end

/-! ## A question and an image that are lost -/

/-- A session with one message of the user and no timeline. -/
def asked (content : List ContentItem) : Session Unit where
  history := [.Message none "user".toList content none none]
  env_ctx_v2 := true
  prompt_items := none
  is_chatgpt := true

/-- No text is the JSON of a snapshot or a delta. -/
def reads_nothing (_ : Text) : Option Unit := none

/-- A question about the tag is not sent with the flags set, and an image after a marker and a text
is not sent whatever the flags are. -/
theorem question_and_image_are_lost :
    ¬ KeepsUserContent true reads_nothing reads_nothing
        (asked [.InputText "What is <environment_context>?".toList]) [] ∧
      ¬ KeepsUserContent false reads_nothing reads_nothing
        (asked [.InputText "[EPHEMERAL:page]".toList, .InputText "And mine?".toList,
          .InputImage "data:image/png;base64,AAAA".toList]) [] := by
  constructor
  · intro h
    have henv := ((sent_history_iff _).mp (h.history _ (List.mem_singleton_self _))).1 rfl rfl
      (by decide)
    revert henv
    decide
  · intro h
    apply ((sent_history_iff _).mp (h.history _ (List.mem_singleton_self _))).2
    refine ⟨rfl, [_, _], _, [], rfl, rfl, ⟨[], _, [_], rfl, by decide, ?_⟩, by decide⟩
    simp [is_image]

end Ecode.turn_input
