-- The facade of the session catalog with its process-long cache, and archiving
-- a session under the name the recorder gave its rollout file
-- (core/src/session_catalog.rs, core/src/rollout/recorder.rs).
import Ecode.CatalogQueries
import Ecode.RolloutFiles
import Ecode.TextLines

namespace Ecode.rollout_catalog

open keyed

/-! ## File names -/

/-- `str::rsplit_once`. -/
def rsplit_once (c : Char) (t : Text) : Option (Text × Text) :=
  if c ∈ t then
    some ((t.reverse.dropWhile (· ≠ c)).reverse.dropLast, (t.reverse.takeWhile (· ≠ c)).reverse)
  else none

/-- The local start time of a session. -/
structure StartTime where
  year : Int
  month : Nat
  day : Nat
  hour : Nat
  minute : Nat
  second : Nat

/-- A number in at least `width` digits. -/
def padded (width n : Nat) : Text :=
  List.replicate (width - (Text.ofNat n).length) '0' ++ Text.ofNat n

def StartTime.year_text (t : StartTime) : Text :=
  if t.year < 0 then '-' :: Text.ofNat t.year.natAbs else Text.ofNat t.year.natAbs

/-- `[year]-[month]-[day]T[hour]-[minute]-[second]`. -/
def StartTime.date_str (t : StartTime) : Text :=
  let year := padded 4 t.year.natAbs
  (if t.year < 0 then '-' :: year else year) ++ '-' :: padded 2 t.month ++ '-' :: padded 2 t.day ++
    'T' :: padded 2 t.hour ++ '-' :: padded 2 t.minute ++ '-' :: padded 2 t.second

/-- The path that `create_log_file` opens. -/
def create_log_file (code_home : Path) (conversation_id : Uuid) (timestamp : StartTime) : Path :=
  let dir := Path.join code_home SESSIONS_SUBDIR
  let dir := Path.push dir (.Normal timestamp.year_text)
  let dir := Path.push dir (.Normal (padded 2 timestamp.month))
  let dir := Path.push dir (.Normal (padded 2 timestamp.day))
  let filename := "rollout-".toList ++ timestamp.date_str ++
    '-' :: Uuid.to_string conversation_id ++ ".jsonl".toList
  Path.push dir (.Normal filename)

/-! ## The facade -/

variable (code_home : Path)

/-- What one process works on: the disk that it shares and its own cache. -/
structure Facade where
  disk : Disk
  cache : Option SessionCatalog := none

/-- `load_inner`: the cache, or the file when there is none, reconciled with the disk. -/
def load_inner (s : Facade) : SessionCatalog × Facade :=
  let catalog := s.cache.getD (load_catalog code_home s.disk)
  let (catalog, disk) := reconcile_disk code_home catalog s.disk
  (catalog, { disk := disk, cache := some catalog })

def Facade.query (s : Facade) (q : SessionQuery) : List SessionIndexEntry × Facade :=
  let (catalog, s) := load_inner code_home s
  (rollout_catalog.query catalog q, s)

def Facade.set_nickname (s : Facade) (session_id : Uuid) (nickname : Option Text) : Bool × Facade :=
  let (catalog, s) := load_inner code_home s
  match rollout_catalog.set_nickname catalog session_id nickname with
  | some catalog => (true, { disk := save_catalog code_home catalog s.disk, cache := some catalog })
  | none => (false, s)

/-- The id that the name of a rollout file is taken to end with. -/
def expected_id (rel : Path) : Option Text :=
  (Path.file_stem rel).bind fun stem => (rsplit_once '-' stem).map Prod.snd

/-- The moves of an archiving, the rollout and its snapshot when there is one: the error that
ended them, if any, and the disk then. -/
def move_rollout (disk : Disk) (rollout_path new_abs : Path) : Option Text × Disk :=
  let disk := disk.create_dir_all ((Path.parent new_abs).getD [])
  match disk.move_file rollout_path new_abs with
  | none => (some "failed to move rollout file".toList, disk)
  | some disk =>
    let snapshot_old := Path.with_extension rollout_path "snapshot.json".toList
    let snapshot_new := Path.with_extension new_abs "snapshot.json".toList
    if disk.exists snapshot_old then
      let disk := disk.create_dir_all ((Path.parent snapshot_new).getD [])
      match disk.move_file snapshot_old snapshot_new with
      | none => (some "failed to move snapshot file".toList, disk)
      | some disk => (none, disk)
    else (none, disk)

/-- The entry of an archived session. -/
def archived_entry (disk : Disk) (entry : SessionIndexEntry) (new_rel new_abs : Path) :
    SessionIndexEntry :=
  let snapshot_new_abs := Path.with_extension new_abs "snapshot.json".toList
  { entry with
    archived := true
    rollout_path := new_rel
    snapshot_path :=
      if disk.exists snapshot_new_abs then Path.strip_prefix snapshot_new_abs code_home else none }

/-- The end of `archive_conversation`: the entry is marked once the files have moved. -/
def Facade.archive_entry (s : Facade) (session_id : Uuid) (new_rel new_abs : Path) :
    Except Text Bool × Facade :=
  let (catalog, s) := load_inner code_home s
  match catalog.get session_id with
  | none => (.ok false, s)
  | some entry =>
    let catalog := upsert catalog (archived_entry code_home s.disk entry new_rel new_abs)
    (.ok true, { disk := save_catalog code_home catalog s.disk, cache := some catalog })

def Facade.archive_conversation (s : Facade) (session_id : Uuid) (rollout_path : Path) :
    Except Text Bool × Facade :=
  if !s.disk.exists rollout_path then (.ok false, s)
  else match Path.strip_prefix rollout_path code_home with
  | none => (.error "rollout_path must be under code_home".toList, s)
  | some rel =>
    if (expected_id rel).any fun id =>
        !Text.eq_ignore_ascii_case (Uuid.to_string session_id) id then
      (.error "conversation_id does not match rollout_path".toList, s)
    else
      let already_archived := Path.starts_with rel ARCHIVED_SESSIONS_SUBDIR
      let suffix :=
        if Path.starts_with rel SESSIONS_SUBDIR then Path.strip_prefix rel SESSIONS_SUBDIR
        else if already_archived then Path.strip_prefix rel ARCHIVED_SESSIONS_SUBDIR
        else none
      match suffix with
      | none =>
        (.error "rollout_path must be under sessions/ or archived_sessions/".toList, s)
      | some suffix =>
        -- what is left of a path when its first part is stripped is relative, so `join` appends it
        let new_rel := ARCHIVED_SESSIONS_SUBDIR ++ suffix
        let new_abs := Path.join code_home new_rel
        match if already_archived then (none, s.disk)
          else move_rollout s.disk rollout_path new_abs with
        | (some e, disk) => (.error e, { s with disk := disk })
        | (none, disk) =>
          Facade.archive_entry code_home { s with disk := disk } session_id new_rel new_abs

/-! ## The name check -/

/-- What follows the last hyphen holds none. -/
theorem hyphen_notMem_rsplit_once {t before after : Text}
    (h : rsplit_once '-' t = some (before, after)) : '-' ∉ after := by
  unfold rsplit_once at h
  split_ifs at h
  obtain ⟨-, rfl⟩ := Prod.mk.inj (Option.some.inj h)
  intro hmem
  have := List.mem_takeWhile_imp (List.mem_reverse.mp hmem)
  simp at this

/-- No session id is what follows the last hyphen of a name. -/
theorem ne_expected_id {rel : Path} {text : Text} (h : expected_id rel = some text) (id : Uuid) :
    Text.eq_ignore_ascii_case (Uuid.to_string id) text = false := by
  unfold expected_id at h
  simp only [Option.bind_eq_some_iff, Option.map_eq_some_iff] at h
  obtain ⟨stem, -, ⟨before, after⟩, hsplit, rfl⟩ := h
  unfold Text.eq_ignore_ascii_case
  rw [beq_eq_false_iff_ne]
  intro heq
  have hlower := Text.mem_to_ascii_lowercase (by decide) (hyphen_mem_to_string id)
  rw [heq] at hlower
  obtain ⟨c, hc, hhyphen⟩ := List.mem_map.mp hlower
  obtain rfl := Text.hyphen_of_lowercase hhyphen
  exact hyphen_notMem_rsplit_once hsplit hc

/-! ## Archiving what the recorder wrote -/

@[simp] theorem join_normal (base rest : Path) (name : Text) :
    Path.join base (.Normal name :: rest) = base ++ .Normal name :: rest := by
  cases base <;> rfl

theorem file_stem_of_name (dir : Path) {stem extension : Text} (hne : stem ≠ [])
    (hdot : '.' ∉ extension) :
    Path.file_stem (dir ++ [.Normal (stem ++ '.' :: extension)]) = some stem := by
  have hname : (stem ++ '.' :: extension).reverse.dropWhile (· ≠ '.') = '.' :: stem.reverse := by
    rw [List.reverse_append, List.reverse_cons, List.append_assoc, List.dropWhile_append_of_pos]
    · simp
    · intro c hc
      have hc : c ∈ extension := by simpa using hc
      simpa using fun he : c = '.' => hdot (he ▸ hc)
  unfold Path.file_stem Path.file_name
  rw [List.getLast?_concat]
  simp only [Option.map_some, hname, List.reverse_cons, List.reverse_reverse, List.dropLast_concat]

theorem strip_prefix_append (base rest : Path) :
    Path.strip_prefix (base ++ rest) base = some rest := by
  simp [Path.strip_prefix]

theorem rsplit_once_isSome {c : Char} {t : Text} (h : c ∈ t) : (rsplit_once c t).isSome := by
  simp [rsplit_once, h]

/-- The path lies below the code home, and its name has a part after a hyphen. -/
theorem create_log_file_eq (id : Uuid) (t : StartTime) : ∃ rel,
    create_log_file code_home id t = code_home ++ rel ∧ (expected_id rel).isSome := by
  have hsessions : SESSIONS_SUBDIR = [.Normal "sessions".toList] := by decide
  have hname : "rollout-".toList ++ t.date_str ++ '-' :: Uuid.to_string id ++ ".jsonl".toList =
      ("rollout-".toList ++ t.date_str ++ '-' :: Uuid.to_string id) ++ '.' :: "jsonl".toList := rfl
  have hpath : create_log_file code_home id t = code_home ++
      ([.Normal "sessions".toList, .Normal t.year_text, .Normal (padded 2 t.month),
        .Normal (padded 2 t.day)] ++
      [.Normal (("rollout-".toList ++ t.date_str ++ '-' :: Uuid.to_string id) ++
        '.' :: "jsonl".toList)]) := by
    unfold create_log_file
    rw [hname, hsessions]
    simp only [Path.push, join_normal, List.append_assoc, List.cons_append, List.nil_append]
  refine ⟨_, hpath, ?_⟩
  unfold expected_id
  rw [file_stem_of_name _ (by simp) (by decide), Option.bind_some, Option.isSome_map]
  exact rsplit_once_isSome (by simp)

/-- Whatever id the call names, the name of a recorded rollout is not taken for it. -/
theorem archive_recorded (s : Facade) (id other : Uuid) (t : StartTime)
    (h : s.disk.exists (create_log_file code_home id t)) :
    s.archive_conversation code_home other (create_log_file code_home id t)
      = (.error "conversation_id does not match rollout_path".toList, s) := by
  obtain ⟨rel, hpath, hsome⟩ := create_log_file_eq code_home id t
  obtain ⟨text, hid⟩ := Option.isSome_iff_exists.mp hsome
  rw [hpath] at h ⊢
  have hcheck : ((expected_id rel).any fun id =>
      !Text.eq_ignore_ascii_case (Uuid.to_string other) id) = true := by
    rw [hid, Option.any_some, ne_expected_id hid other]
    rfl
  unfold Facade.archive_conversation
  rw [h, strip_prefix_append]
  simp only [Bool.not_true, Bool.false_eq_true, if_false]
  rw [if_pos hcheck]

/-- The path of a recorded rollout once it is archived, below the code home. -/
def archived_rel (id : Uuid) (t : StartTime) : Path :=
  ARCHIVED_SESSIONS_SUBDIR ++
    (create_log_file code_home id t).drop (code_home ++ SESSIONS_SUBDIR).length

/-- What archiving the recorded rollout of a session is to leave behind: the files have moved, the
session's entry alone has changed, and a later reconcile leaves it archived. -/
structure Archived (s after : Facade) (id : Uuid) (t : StartTime) : Prop where
  moved : after.disk.read (code_home ++ archived_rel code_home id t)
    = s.disk.read (create_log_file code_home id t)
  gone : after.disk.read (create_log_file code_home id t) = none
  snapshot : ∀ lines,
    s.disk.read (Path.with_extension (create_log_file code_home id t) "snapshot.json".toList)
        = some lines →
      after.disk.read (Path.with_extension (code_home ++ archived_rel code_home id t)
        "snapshot.json".toList) = some lines
  marked : ∃ entry, (load_catalog code_home after.disk).get id = some entry ∧
    entry.archived = true ∧ entry.rollout_path = archived_rel code_home id t
  others : ∀ other, other ≠ id →
    (load_catalog code_home after.disk).get other = (load_catalog code_home s.disk).get other
  later : ∃ entry, (load_inner code_home after).1.get id = some entry ∧ entry.archived = true

/-- Archiving the recorded rollout of a session succeeds. -/
def Archives (s : Facade) (id : Uuid) (t : StartTime) : Prop :=
  ∃ after,
    s.archive_conversation code_home id (create_log_file code_home id t) = (.ok true, after) ∧
      Archived code_home s after id t

theorem not_archives (s : Facade) (id : Uuid) (t : StartTime)
    (h : s.disk.exists (create_log_file code_home id t)) : ¬ Archives code_home s id t := by
  rintro ⟨after, hok, -⟩
  rw [archive_recorded code_home s id id t h] at hok
  cases hok

/-- No recorded rollout is archived: its name ends with the last part of the id alone, which is
compared with the whole of it. The call fails before it touches a file or the catalog. -/
theorem recorded_never_archived (s : Facade) (id : Uuid) (t : StartTime)
    (h : s.disk.exists (create_log_file code_home id t)) :
    ¬ Archives code_home s id t ∧
      ∀ other, s.archive_conversation code_home other (create_log_file code_home id t)
        = (.error "conversation_id does not match rollout_path".toList, s) :=
  ⟨not_archives code_home s id t h, fun other => archive_recorded code_home s id other t h⟩

/-! ### A recorded session -/

def small_home : Path := Path.of_text "/h".toList

def small_start : StartTime :=
  { year := 2025, month := 1, day := 1, hour := 10, minute := 0, second := 0 }

/-- The disk after the recorder wrote its first line and the catalog entry for it. -/
def small_disk : Disk :=
  let path := create_log_file small_home small_session.session_id small_start
  let line := .rollout {
    timestamp := small_session.created_at
    item := .SessionMeta small_session.session_id small_session.cwd_real .Cli none }
  update_catalog_entry small_home { files := [(path, [line])] } path small_session.session_id
    small_session.created_at

theorem small_session_recorded :
    small_disk.exists (create_log_file small_home small_session.session_id small_start) = true ∧
      ((load_catalog small_home small_disk).get small_session.session_id).isSome = true := by
  decide

theorem small_session_never_archived :
    ¬ Archives small_home { disk := small_disk } small_session.session_id small_start ∧
      ∀ other, ({ disk := small_disk } : Facade).archive_conversation small_home other
          (create_log_file small_home small_session.session_id small_start)
        = (.error "conversation_id does not match rollout_path".toList, { disk := small_disk }) :=
  recorded_never_archived small_home { disk := small_disk } small_session.session_id small_start
    small_session_recorded.1

/-- A session with its rollout and its catalog entry that is not archived. -/
theorem recorded_session_rejected :
    ¬ ∀ (s : Facade) (id : Uuid) (t : StartTime),
      s.disk.exists (create_log_file small_home id t) = true →
      ((load_catalog small_home s.disk).get id).isSome = true → Archives small_home s id t := by
  intro h
  exact not_archives small_home { disk := small_disk } small_session.session_id small_start
    small_session_recorded.1 (h { disk := small_disk } small_session.session_id small_start
      small_session_recorded.1 small_session_recorded.2)

end Ecode.rollout_catalog
