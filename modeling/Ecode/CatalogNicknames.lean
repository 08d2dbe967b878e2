-- What each operation of the session catalog leaves of a session's nickname, in
-- memory and in the catalog file (core/src/rollout/catalog.rs).
import Ecode.CatalogQueries
import Ecode.SessionArchive

namespace Ecode.rollout_catalog

open keyed SessionCatalog

variable {c : SessionCatalog} {e : SessionIndexEntry} {id : Uuid}

/-- The nickname that the catalog gives a session. -/
def nickname_of (c : SessionCatalog) (id : Uuid) : Option Text := (c.get id).bind (·.nickname)

/-- The catalog has the session, with this nickname. -/
def Gives (c : SessionCatalog) (id : Uuid) (nickname : Option Text) : Prop :=
  ∃ entry, c.get id = some entry ∧ entry.nickname = nickname

theorem Gives.nickname_of (h : Gives c id n) : nickname_of c id = n := by
  obtain ⟨entry, hget, rfl⟩ := h
  simp [rollout_catalog.nickname_of, hget]

/-! ## In memory -/

theorem get_upsert (c : SessionCatalog) (e : SessionIndexEntry) (k : Uuid) :
    (upsert c e).get k = if k = e.session_id then some e else c.get k := by
  unfold upsert
  cases c.get e.session_id with
  | none => exact get_index_entry c e k
  | some old => exact get_index_entry _ e k

theorem get_set_nickname {c' : SessionCatalog} {nickname : Option Text}
    (h : set_nickname c id nickname = some c') (k : Uuid) :
    c'.get k = if k = id then (c.get k).map ({ · with nickname := nickname }) else c.get k := by
  unfold set_nickname at h
  obtain ⟨old, -, rfl⟩ := Option.map_eq_some_iff.mp h
  unfold SessionCatalog.get keyed.get
  induction c.entries with
  | nil => simp
  | cons e es ih =>
    rw [List.map_cons, List.find?_cons, List.find?_cons]
    by_cases hid : e.session_id = id
    · rw [if_pos hid]
      by_cases hk : e.session_id = k
      · simp [hk, ← hid]
      · simp [hk, ih]
    · rw [if_neg hid]
      by_cases hk : e.session_id = k
      · have hne : k ≠ id := fun he => hid (hk.trans he)
        simp [hk, hne]
      · simp [hk, ih]

theorem once_reconcile (h : Once SessionIndexEntry.session_id c.entries)
    (discovered : Option Discovered) :
    Once SessionIndexEntry.session_id (reconcile c discovered).catalog.entries := by
  cases discovered with
  | none => exact h
  | some d =>
    refine reconcile_keeps (I := fun c => Once SessionIndexEntry.session_id c.entries) ?_ ?_ h
    · intro r id hr
      unfold remove_missing remove
      split_ifs
      · exact hr
      · cases r.catalog.get id with
        | none => exact hr
        | some e => exact hr.erase id
      · exact hr
    · intro r e _ hr
      unfold upsert_discovered
      cases r.catalog.get e.session_id with
      | none => exact hr.insert e
      | some existing =>
        simp only
        split_ifs
        · exact hr.insert _
        · exact hr.insert e
        · exact hr

/-- Reconciling keeps the nickname of a session that has a rollout: what is discovered brings no
nickname of its own. -/
theorem nickname_of_reconcile {d : Discovered} (hnone : ∀ e ∈ d.entries, e.nickname = none)
    (hid : id ∈ d.ids) : nickname_of (reconcile c (some d)).catalog id = nickname_of c id := by
  refine reconcile_keeps (I := fun c' => nickname_of c' id = nickname_of c id) ?_ ?_ rfl
  · intro r k hr
    unfold remove_missing
    split_ifs with hk
    · exact hr
    · have hne : id ≠ k := fun he => hk (he ▸ hid)
      unfold nickname_of at hr ⊢
      rw [get_remove, if_neg hne, hr]
    · exact hr
  · intro r e he hr
    have hsame : ∀ c' : SessionCatalog, ∀ e' : SessionIndexEntry, c'.get id = r.catalog.get id →
        e'.session_id = e.session_id → e'.nickname = nickname_of r.catalog e.session_id →
        nickname_of (c'.index_entry e') id = nickname_of c id := by
      intro c' e' hc' hsession hnick
      rw [← hr]
      unfold nickname_of at hnick ⊢
      rw [get_index_entry, hsession, hc']
      split_ifs with hk
      · simp [hnick, hk]
      · rfl
    unfold upsert_discovered
    cases hget : r.catalog.get e.session_id with
    | none => exact hsame _ e rfl rfl (by simp [nickname_of, hget, hnone e he])
    | some existing =>
      simp only [hnone e he, Option.isNone_none, if_true]
      split_ifs
      · exact hsame _ { e with nickname := existing.nickname } rfl rfl (by simp [nickname_of, hget])
      · exact hr

theorem get_upsert_discovered_isSome (r : Reconciling) (e : SessionIndexEntry) :
    ((upsert_discovered r e).catalog.get id).isSome ↔
      id = e.session_id ∨ (r.catalog.get id).isSome := by
  unfold upsert_discovered
  cases hget : r.catalog.get e.session_id with
  | none =>
    rw [get_index_entry]
    split_ifs with hk <;> simp [hk]
  | some existing =>
    simp only
    by_cases hreplace : should_replace existing e = true
    · rw [if_pos hreplace, get_index_entry]
      split_ifs <;> simp_all [SessionCatalog.get, remove_from_indexes]
    · rw [if_neg hreplace]
      by_cases hk : id = e.session_id
      · simp [hk, hget]
      · simp [hk]

/-- Every session that has a rollout is in the reconciled catalog. -/
theorem get_reconcile_isSome {d : Discovered} (hid : id ∈ d.ids) :
    ((reconcile c (some d)).catalog.get id).isSome := by
  have hfold : ∀ (es : List SessionIndexEntry) (r : Reconciling),
      ((es.foldl upsert_discovered r).catalog.get id).isSome ↔
        id ∈ es.map SessionIndexEntry.session_id ∨ (r.catalog.get id).isSome := by
    intro es
    induction es with
    | nil => simp
    | cons e es ih =>
      intro r
      rw [List.foldl_cons, ih, get_upsert_discovered_isSome, List.map_cons, List.mem_cons]
      tauto
  exact (hfold d.entries _).mpr (.inl hid)

/-- Where nothing changed, the catalog is the one before. -/
theorem reconcile_unchanged (discovered : Option Discovered)
    (h : (reconcile c discovered).changed = false) : (reconcile c discovered).catalog = c := by
  cases discovered with
  | none => rfl
  | some d =>
    have hkeep : ∀ r : Reconciling, ∀ id, (r.changed = false → r.catalog = c) →
        (remove_missing d.ids r id).changed = false → (remove_missing d.ids r id).catalog = c := by
      intro r id hr hchanged
      unfold remove_missing at hchanged ⊢
      split_ifs at hchanged ⊢
      · exact hr hchanged
      · exact hr hchanged
    have hkeep' : ∀ (r : Reconciling) (e : SessionIndexEntry), (r.changed = false → r.catalog = c) →
        (upsert_discovered r e).changed = false → (upsert_discovered r e).catalog = c := by
      intro r e hr hchanged
      unfold upsert_discovered at hchanged ⊢
      cases hget : r.catalog.get e.session_id with
      | none => simp [hget] at hchanged
      | some existing =>
        simp only [hget] at hchanged ⊢
        split_ifs at hchanged ⊢
        exact hr hchanged
    have hremoved := List.foldlRecOn (motive := fun r => r.changed = false → r.catalog = c)
      (c.entries.map SessionIndexEntry.session_id) (remove_missing d.ids) (b := { catalog := c })
      (fun _ => rfl) fun r hr id _ => hkeep r id hr
    exact List.foldlRecOn (motive := fun r => r.changed = false → r.catalog = c) d.entries
      upsert_discovered hremoved (fun r hr e _ => hkeep' r e hr) h

/-! ## In the catalog file -/

variable (code_home : Path) {disk : Disk}

theorem read_write (disk : Disk) (p q : Path) (lines : List Line) :
    (disk.write p lines).read q = if q = p then some lines else disk.read q := by
  unfold Disk.read Disk.write
  rw [get_insert]
  split_ifs <;> rfl

/-- A file that repeats no session is loaded line for line. -/
theorem mem_load_iff {lines : List (Option SessionIndexEntry)} (h : RepeatsNoSession lines) :
    e ∈ (load lines).entries ↔ e ∈ parsed lines := by
  unfold RepeatsNoSession at h
  rw [load_eq]
  generalize parsed lines = es at h
  induction es using List.reverseRecOn with
  | nil => exact Iff.rfl
  | append_singleton es e' ih =>
    unfold Once at h
    rw [List.map_append, List.map_singleton, List.nodup_append] at h
    obtain ⟨hes, -, hnew⟩ := h
    rw [List.foldl_append, List.foldl_cons, List.foldl_nil, List.mem_append, List.mem_singleton]
    refine mem_insert.trans ?_
    rw [ih hes, or_comm]
    refine or_congr_left (and_iff_left_of_imp fun he => ?_)
    exact hnew _ (List.mem_map_of_mem he) _ (List.mem_singleton_self _)

theorem parsed_some (es : List SessionIndexEntry) :
    parsed ((es.map Line.entry).map Line.entry?) = es := by
  unfold parsed
  rw [List.map_map, List.filterMap_map]
  exact List.filterMap_some

/-- What is saved is what is loaded. -/
theorem get_load_save (h : Once SessionIndexEntry.session_id c.entries) (disk : Disk) (id : Uuid) :
    (load_catalog code_home (save_catalog code_home c disk)).get id = c.get id := by
  have hperm : c.save.Perm c.entries := sort_by_key_perm c.entries
  have hrepeats : RepeatsNoSession ((c.save.map Line.entry).map Line.entry?) := by
    unfold RepeatsNoSession
    rw [parsed_some]
    exact ((hperm.map SessionIndexEntry.session_id).nodup_iff).mpr h
  have hload : load_catalog code_home (save_catalog code_home c disk) =
      load ((c.save.map Line.entry).map Line.entry?) := by
    unfold load_catalog save_catalog
    rw [read_write, if_pos rfl, Option.getD_some]
  rw [hload]
  ext e
  have hmem : e ∈ (load ((c.save.map Line.entry).map Line.entry?)).entries ↔ e ∈ c.entries := by
    rw [mem_load_iff hrepeats, parsed_some, hperm.mem_iff]
  unfold SessionCatalog.get
  rw [(once_load _).get_iff, h.get_iff, hmem]

/-! ## The rollouts on disk -/

theorem sessions_subdir : SESSIONS_SUBDIR = [.Normal "sessions".toList] := by decide

theorem archived_subdir : ARCHIVED_SESSIONS_SUBDIR = [.Normal "archived_sessions".toList] := by
  decide

/-- A rollout of the session lies under one of the two roots. -/
def OnDisk (disk : Disk) (id : Uuid) : Prop :=
  ∃ path lines, disk.read path = some lines ∧ is_rollout_name path = true ∧
    (summary lines).session_id = some id ∧
    (code_home ++ SESSIONS_SUBDIR <+: path ∨ code_home ++ ARCHIVED_SESSIONS_SUBDIR <+: path)

/-- A summary with an id has all that an entry needs. -/
theorem summary_complete {lines : List Line} {id : Uuid}
    (h : (summary lines).session_id = some id) :
    (summary lines).created_at.isSome ∧ (summary lines).cwd_real.isSome ∧
      (summary lines).session_source.isSome := by
  have hall : (summary lines).session_id.isSome → (summary lines).created_at.isSome ∧
      (summary lines).cwd_real.isSome ∧ (summary lines).session_source.isSome := by
    unfold summary
    refine List.foldlRecOn (motive := fun s : RolloutSummary => s.session_id.isSome →
      s.created_at.isSome ∧ s.cwd_real.isSome ∧ s.session_source.isSome) _ RolloutSummary.line
      (by simp) ?_
    intro s hs l _
    unfold RolloutSummary.line
    cases l.item with
    | SessionMeta id cwd source git => cases git <;> simp
    | ResponseItem item =>
      cases item with
      | Message role content =>
        simp only
        split_ifs <;> exact hs
      | Other => exact hs
    | Event => exact hs
    | EventMsg => exact hs
    | Compacted => exact hs
    | TurnContext => exact hs
  exact hall (h ▸ rfl)

/-- What a parsed rollout says of its session. -/
theorem parse_rollout_file_some {path root : Path} {archived : Bool} {e : SessionIndexEntry}
    (h : parse_rollout_file disk path root archived = some e) : e.nickname = none ∧
      ∃ lines, disk.read path = some lines ∧ (summary lines).session_id = some e.session_id := by
  unfold parse_rollout_file at h
  simp only [Option.bind_eq_bind, Option.bind_eq_some_iff, Option.pure_def, Option.some.injEq] at h
  obtain ⟨lines, hlines, id, hid, _, _, _, _, _, _, _, _, _, _, rfl⟩ := h
  exact ⟨rfl, lines, hlines, hid⟩

theorem parse_rollout_file_of_summary {path root : Path} {lines : List Line} {id : Uuid}
    (archived : Bool) (hlines : disk.read path = some lines)
    (hid : (summary lines).session_id = some id) (hroot : ∃ home, Path.parent root = some home ∧
      home <+: path) :
    ∃ e, parse_rollout_file disk path root archived = some e ∧ e.session_id = id := by
  obtain ⟨hcreated, hcwd, hsource⟩ := summary_complete hid
  obtain ⟨created, hcreated⟩ := Option.isSome_iff_exists.mp hcreated
  obtain ⟨cwd, hcwd⟩ := Option.isSome_iff_exists.mp hcwd
  obtain ⟨source, hsource⟩ := Option.isSome_iff_exists.mp hsource
  obtain ⟨home, hparent, rest, rfl⟩ := hroot
  unfold parse_rollout_file
  simp only [hlines, hid, hcreated, hcwd, hsource, hparent, strip_prefix_append,
    Option.bind_eq_bind, Option.bind_some, Option.pure_def]
  exact ⟨_, rfl, rfl⟩

theorem mem_ids_add (d : Discovered) (e : SessionIndexEntry) (k : Uuid) :
    k ∈ (d.add e).ids ↔ k = e.session_id ∨ k ∈ d.ids := by
  have hinserted : k ∈ (insert SessionIndexEntry.session_id d.entries e).map
      SessionIndexEntry.session_id ↔ k = e.session_id ∨ k ∈ d.ids := by
    rw [← get_isSome, get_insert]
    split_ifs with hk
    · simp [hk]
    · rw [get_isSome, Discovered.ids]
      simp [hk]
  unfold Discovered.add
  cases hget : keyed.get SessionIndexEntry.session_id d.entries e.session_id with
  | none => exact hinserted
  | some existing =>
    simp only
    split_ifs
    · exact hinserted
    · refine ⟨.inr, ?_⟩
      rintro (rfl | hk)
      · exact get_isSome.mp (hget ▸ rfl)
      · exact hk

theorem mem_ids_foldl (d : Discovered) (es : List SessionIndexEntry) (k : Uuid) :
    k ∈ (es.foldl Discovered.add d).ids ↔ k ∈ es.map SessionIndexEntry.session_id ∨ k ∈ d.ids := by
  induction es generalizing d with
  | nil => simp
  | cons e es ih =>
    rw [List.foldl_cons, ih, mem_ids_add, List.map_cons, List.mem_cons]
    tauto

/-- Where the maps hold no nickname, they get none. -/
theorem nickname_foldl {d : Discovered} {es : List SessionIndexEntry}
    (hd : ∀ e ∈ d.entries, e.nickname = none) (hes : ∀ e ∈ es, e.nickname = none) :
    ∀ e ∈ (es.foldl Discovered.add d).entries, e.nickname = none := by
  refine List.foldlRecOn (motive := fun d : Discovered => ∀ e ∈ d.entries, e.nickname = none)
    es Discovered.add hd ?_
  intro d hd e he
  have hinserted : ∀ v ∈ insert SessionIndexEntry.session_id d.entries e, v.nickname = none := by
    intro v hv
    rcases mem_insert.mp hv with rfl | ⟨hv, -⟩
    · exact hes v he
    · exact hd v hv
  unfold Discovered.add
  cases keyed.get SessionIndexEntry.session_id d.entries e.session_id with
  | none => exact hinserted
  | some existing =>
    simp only
    split_ifs
    · exact hinserted
    · exact hd

theorem nickname_scan (root : Path) (archived : Bool) :
    ∀ e ∈ (scan_rollout_files disk root archived).entries, e.nickname = none := by
  refine nickname_foldl (by simp) ?_
  intro e he
  obtain ⟨f, -, hf⟩ := List.mem_filterMap.mp he
  split_ifs at hf
  exact (parse_rollout_file_some hf).1

theorem mem_ids_scan {path root : Path} {lines : List Line} {id : Uuid} (archived : Bool)
    (hlines : disk.read path = some lines) (hname : is_rollout_name path = true)
    (hid : (summary lines).session_id = some id) (hpath : root <+: path)
    (hparent : ∃ home, Path.parent root = some home ∧ home <+: path) :
    id ∈ (scan_rollout_files disk root archived).ids := by
  obtain ⟨e, hparse, rfl⟩ := parse_rollout_file_of_summary archived hlines hid hparent
  unfold scan_rollout_files
  rw [mem_ids_foldl]
  refine .inl (List.mem_map_of_mem (List.mem_filterMap.mpr ?_))
  obtain ⟨f, hget, -⟩ := Option.map_eq_some_iff.mp hlines
  refine ⟨f, mem_of_get hget, ?_⟩
  rw [show f.1 = path from key_of_get hget, if_pos, hparse]
  simp [hname, hpath]

theorem parent_append_normal (home : Path) (name : Text) :
    Path.parent (home ++ [.Normal name]) = some home := by
  simp [Path.parent]

theorem sessions_root : Path.join code_home SESSIONS_SUBDIR = code_home ++ SESSIONS_SUBDIR := by
  rw [sessions_subdir, join_normal]

theorem archived_root :
    Path.join code_home ARCHIVED_SESSIONS_SUBDIR = code_home ++ ARCHIVED_SESSIONS_SUBDIR := by
  rw [archived_subdir, join_normal]

theorem exists_of_read {path p : Path} {lines : List Line} (hlines : disk.read path = some lines)
    (hp : p <+: path) : disk.exists p = true := by
  obtain ⟨f, hget, -⟩ := Option.map_eq_some_iff.mp hlines
  have hkey : f.1 = path := key_of_get hget
  unfold Disk.exists
  rw [Bool.or_eq_true, List.any_eq_true]
  exact .inl ⟨f, mem_of_get hget, by simpa [hkey] using hp⟩

/-- With a sessions directory, `reconcile` finds every session that has a rollout, and no
nickname. -/
theorem discovered_of_onDisk {id : Uuid} (hroot : disk.exists (code_home ++ SESSIONS_SUBDIR) = true)
    (h : OnDisk code_home disk id) : ∃ d, discovered_entries code_home disk = some d ∧
      id ∈ d.ids ∧ ∀ e ∈ d.entries, e.nickname = none := by
  obtain ⟨path, lines, hlines, hname, hid, hpath⟩ := h
  have hsessions : code_home ++ SESSIONS_SUBDIR <+: path →
      id ∈ (scan_rollout_files disk (code_home ++ SESSIONS_SUBDIR) false).ids := by
    intro hp
    refine mem_ids_scan false hlines hname hid hp ⟨code_home, ?_, (List.prefix_append _ _).trans hp⟩
    rw [sessions_subdir, parent_append_normal]
  have harchived : code_home ++ ARCHIVED_SESSIONS_SUBDIR <+: path →
      id ∈ (scan_rollout_files disk (code_home ++ ARCHIVED_SESSIONS_SUBDIR) true).ids := by
    intro hp
    refine mem_ids_scan true hlines hname hid hp ⟨code_home, ?_, (List.prefix_append _ _).trans hp⟩
    rw [archived_subdir, parent_append_normal]
  unfold discovered_entries
  rw [sessions_root, archived_root, if_pos hroot]
  by_cases harch : disk.exists (code_home ++ ARCHIVED_SESSIONS_SUBDIR) = true
  · rw [if_pos harch]
    refine ⟨_, rfl, ?_, nickname_foldl (nickname_scan _ _) (nickname_scan _ _)⟩
    rw [merge_discovered_entries, mem_ids_foldl]
    exact hpath.symm.imp harchived hsessions
  · rw [if_neg harch]
    refine ⟨_, rfl, ?_, nickname_scan _ _⟩
    rcases hpath with hp | hp
    · exact hsessions hp
    · exact absurd (exists_of_read hlines hp) harch

/-! ## The catalog file and the moves -/

theorem catalog_path_eq : catalog_path code_home = code_home ++
    [.Normal "sessions".toList, .Normal "index".toList, .Normal "catalog.jsonl".toList] := by
  have hindex : INDEX_SUBDIR = [.Normal "sessions".toList, .Normal "index".toList] := by decide
  have hname : CATALOG_FILENAME = [.Normal "catalog.jsonl".toList] := by decide
  rw [catalog_path, hindex, hname, join_normal, join_normal]
  simp

theorem file_name_catalog_path :
    Path.file_name (catalog_path code_home) = some "catalog.jsonl".toList := by
  simp [catalog_path_eq, Path.file_name]

/-- Saving the catalog leaves the rollouts alone. -/
theorem onDisk_save : OnDisk code_home (save_catalog code_home c disk) id ↔
    OnDisk code_home disk id := by
  have hother : ∀ path, is_rollout_name path = true →
      (save_catalog code_home c disk).read path = disk.read path := by
    intro path hname
    have hne : path ≠ catalog_path code_home := by
      rintro rfl
      rw [is_rollout_name, file_name_catalog_path] at hname
      revert hname
      decide
    rw [save_catalog, read_write, if_neg hne]
  unfold OnDisk
  refine exists_congr fun path => exists_congr fun lines => ?_
  by_cases hname : is_rollout_name path = true
  · rw [hother path hname]
  · simp [hname]

/-- A catalog file that gives a session is there, and so is its directory. -/
theorem exists_sessions_of_gives {n : Option Text} (h : Gives (load_catalog code_home disk) id n) :
    disk.exists (code_home ++ SESSIONS_SUBDIR) = true := by
  cases hread : disk.read (catalog_path code_home) with
  | none =>
    obtain ⟨entry, hget, -⟩ := h
    simp [load_catalog, hread, SessionCatalog.load, empty, SessionCatalog.get, keyed.get] at hget
  | some lines =>
    refine exists_of_read hread ?_
    rw [catalog_path_eq, sessions_subdir]
    exact (List.prefix_append_right_inj code_home).mpr (by simp)

/-- A move that neither starts nor ends at the file, or above it, leaves the file. -/
theorem read_move_file {disk' : Disk} {old new p : Path} (hold : ¬ old <+: p) (hnew : ¬ new <+: p)
    (h : disk.move_file old new = some disk') : disk'.read p = disk.read p := by
  have hmoved : ∀ q, Disk.moved old new q = p ↔ q = p := by
    intro q
    unfold Disk.moved
    split_ifs with hq
    · constructor
      · rintro rfl
        exact absurd (List.prefix_append _ _) hnew
      · rintro rfl
        exact absurd (by simpa using hq) hold
    · exact Iff.rfl
  have hfind : ∀ files : List (Path × List Line),
      (keyed.get Prod.fst (files.map fun f => (Disk.moved old new f.1, f.2)) p).map Prod.snd =
        (keyed.get Prod.fst files p).map Prod.snd := by
    intro files
    unfold keyed.get
    induction files with
    | nil => rfl
    | cons f files ih =>
      rw [List.map_cons, List.find?_cons, List.find?_cons]
      by_cases hf : f.1 = p
      · simp [hf, (hmoved p).mpr rfl]
      · simpa [hf, (hmoved f.1).not.mpr hf] using ih
  unfold Disk.move_file at h
  split_ifs at h with hfile
  · obtain rfl := Option.some.inj h
    unfold Disk.read
    rw [hfind, get_erase, if_neg]
    rintro rfl
    exact hnew (List.prefix_refl _)
  · obtain rfl := Option.some.inj h
    exact hfind disk.files

/-- The snapshot beside a path below the code home does not lie above the catalog file. -/
theorem snapshot_not_prefix {rel : Path} (hrel : rel ≠ [])
    (h : ¬ code_home ++ rel <+: catalog_path code_home) :
    ¬ Path.with_extension (code_home ++ rel) "snapshot.json".toList <+: catalog_path code_home := by
  unfold Path.with_extension
  cases Path.file_stem (code_home ++ rel) with
  | none => exact h
  | some stem =>
    have hlast : ∀ t : Text, stem ++ '.' :: "snapshot.json".toList = t → t.getLast? = some 'n' := by
      rintro t rfl
      rw [List.getLast?_append]
      rfl
    intro hp
    simp only at hp
    rw [catalog_path_eq, List.dropLast_append_of_ne_nil hrel, List.append_assoc,
      List.prefix_append_right_inj] at hp
    have hmem := hp.subset (List.mem_append_right _ (List.mem_singleton_self _))
    simp only [List.mem_cons, Component.Normal.injEq, List.not_mem_nil, or_false] at hmem
    rcases hmem with he | he | he
    · exact absurd (hlast _ he) (by decide)
    · exact absurd (hlast _ he) (by decide)
    · exact absurd (hlast _ he) (by decide)

/-- The moves of an archiving leave the catalog file, unless it is what the call names. -/
theorem read_move_rollout {rel suffix : Path} (hrel : rel ≠ [])
    (h : ¬ code_home ++ rel <+: catalog_path code_home) :
    (move_rollout disk (code_home ++ rel)
      (code_home ++ (ARCHIVED_SESSIONS_SUBDIR ++ suffix))).2.read (catalog_path code_home) =
    disk.read (catalog_path code_home) := by
  have hnew : ¬ code_home ++ (ARCHIVED_SESSIONS_SUBDIR ++ suffix) <+: catalog_path code_home := by
    rw [catalog_path_eq, archived_subdir, List.prefix_append_right_inj]
    intro hp
    simp at hp
  have hsnapshot := snapshot_not_prefix code_home hrel h
  have hsnapshot' := snapshot_not_prefix code_home (by simp [archived_subdir]) hnew
  unfold move_rollout
  dsimp only
  split
  next => rfl
  next moved hmove =>
    have hread := read_move_file h hnew hmove
    split_ifs
    · split
      next => exact hread
      next moved' hmove' =>
        have hread' := read_move_file hsnapshot hsnapshot' hmove'
        exact hread'.trans hread
    · exact hread

/-! ## One call of a process -/

variable {code_home}

/-- The file gives the session the nickname, and a rollout of the session is there. -/
structure Held (code_home : Path) (disk : Disk) (id : Uuid) (nickname : Option Text) : Prop where
  file : Gives (load_catalog code_home disk) id nickname
  rollout : OnDisk code_home disk id

/-- A cache that does not stand against the file: what it says of the session's nickname. -/
structure Cached (c : SessionCatalog) (id : Uuid) (nickname : Option Text) : Prop where
  once : Once SessionIndexEntry.session_id c.entries
  nickname : nickname_of c id = nickname

theorem Held.save {n : Option Text} (h : OnDisk code_home disk id)
    (honce : Once SessionIndexEntry.session_id c.entries) (hc : Gives c id n) :
    Held code_home (save_catalog code_home c disk) id n := by
  refine ⟨?_, (onDisk_save code_home).mpr h⟩
  unfold Gives
  rw [get_load_save code_home honce]
  exact hc

/-- Loading keeps the nickname, in the catalog it gives and in the file it may write. -/
theorem Held.load_inner {s : Facade} {n : Option Text} (h : Held code_home s.disk id n)
    (hcache : ∀ c, s.cache = some c → Cached c id n) :
    Once SessionIndexEntry.session_id (load_inner code_home s).1.entries ∧
      Gives (load_inner code_home s).1 id n ∧
      Held code_home (load_inner code_home s).2.disk id n := by
  obtain ⟨hfile, hrollout⟩ := h
  have hc : Cached (s.cache.getD (load_catalog code_home s.disk)) id n := by
    cases hs : s.cache with
    | none => exact ⟨once_load _, hfile.nickname_of⟩
    | some c => exact hcache c hs
  obtain ⟨d, hd, hid, hnone⟩ :=
    discovered_of_onDisk code_home (exists_sessions_of_gives code_home hfile) hrollout
  have honce := once_reconcile hc.once (some d)
  have hgives : Gives (reconcile (s.cache.getD (load_catalog code_home s.disk)) (some d)).catalog
      id n := by
    obtain ⟨entry, hget⟩ := Option.isSome_iff_exists.mp (get_reconcile_isSome
      (c := s.cache.getD (load_catalog code_home s.disk)) hid)
    refine ⟨entry, hget, ?_⟩
    rw [← hc.nickname, ← nickname_of_reconcile hnone hid]
    simp [nickname_of, hget]
  unfold rollout_catalog.load_inner reconcile_disk
  rw [hd]
  refine ⟨honce, hgives, ?_⟩
  dsimp only
  split_ifs
  · exact Held.save hrollout honce hgives
  · exact ⟨hfile, hrollout⟩

end Ecode.rollout_catalog
