-- Several processes over one code home, each with its own cached catalog: when
-- a nickname that was given stays (core/src/session_catalog.rs).
import Ecode.CatalogNicknames
import Ecode.Runs

namespace Ecode.rollout_catalog

open keyed runs

/-- The processes share the disk; each has a cache of its own. -/
structure Shared (P : Type) where
  disk : Disk
  cache : P → Option SessionCatalog

/-- A call of a process, or what else happens to the files of the code home. -/
inductive Call where
  | query (q : SessionQuery)
  | set_nickname (session_id : Uuid) (nickname : Option Text)
  | archive_conversation (session_id : Uuid) (rollout_path : Path)
  | update_catalog_entry (rollout_path : Path) (session_id : Uuid) (last_timestamp : Text)
  | files (disk : Disk)

section calls

variable {P : Type} [DecidableEq P] (code_home : Path)

def Shared.facade (s : Shared P) (p : P) : Facade := { disk := s.disk, cache := s.cache p }

def Shared.put (s : Shared P) (p : P) (f : Facade) : Shared P :=
  { disk := f.disk, cache := Function.update s.cache p f.cache }

/-- One call, with its reads and writes of files taken together. -/
def call (s : Shared P) (p : P) : Call → Shared P
  | .query q => s.put p ((s.facade p).query code_home q).2
  | .set_nickname session_id nickname =>
    s.put p ((s.facade p).set_nickname code_home session_id nickname).2
  | .archive_conversation session_id rollout_path =>
    s.put p ((s.facade p).archive_conversation code_home session_id rollout_path).2
  | .update_catalog_entry rollout_path session_id last_timestamp =>
    { s with disk :=
        update_catalog_entry code_home s.disk rollout_path session_id last_timestamp }
  | .files disk => { s with disk := disk }

def step (s : Shared P) (a : P × Call) : Option (Shared P) := some (call code_home s a.1 a.2)

/-- What may happen until the nickname is given anew or its rollout goes: no other call gives the
session a nickname, its rollout stays, only the calls write the catalog file, and the recorder
updates the session of the file it writes. -/
def Allowed (id : Uuid) (s : Shared P) (a : P × Call) : Prop :=
  OnDisk code_home (call code_home s a.1 a.2).disk id ∧
    match a.2 with
    | .set_nickname session_id nickname => session_id = id →
      ((s.facade a.1).set_nickname code_home session_id nickname).1 = false
    | .update_catalog_entry rollout_path session_id _ => ∀ lines,
      s.disk.read rollout_path = some lines →
        ∀ other, (summary lines).session_id = some other → other = session_id
    | .files disk => disk.read (catalog_path code_home) = s.disk.read (catalog_path code_home)
    | _ => True

/-- The call does not start from a cache that gives the session another nickname than the file
does, and is not told to archive the catalog file. -/
def UpToDate (id : Uuid) (s : Shared P) (a : P × Call) : Prop :=
  match a.2 with
  | .query _ | .set_nickname _ _ => ∀ c, s.cache a.1 = some c →
    nickname_of c id = nickname_of (load_catalog code_home s.disk) id
  | .archive_conversation _ rollout_path => ¬ rollout_path <+: catalog_path code_home ∧
    ∀ c, s.cache a.1 = some c →
      nickname_of c id = nickname_of (load_catalog code_home s.disk) id
  | _ => True

end calls

variable {code_home : Path} {c : SessionCatalog} {e : SessionIndexEntry} {id : Uuid}
  {n : Option Text}

theorem Gives.upsert (h : Gives c id n) (he : e.session_id = id → e.nickname = n) :
    Gives (upsert c e) id n := by
  unfold Gives
  rw [get_upsert]
  split_ifs with hid
  · exact ⟨e, rfl, he hid.symm⟩
  · exact h

theorem Gives.set_nickname {c' : SessionCatalog} {session_id : Uuid} {nickname : Option Text}
    (h : Gives c id n) (hset : set_nickname c session_id nickname = some c')
    (hid : session_id = id → nickname = n) : Gives c' id n := by
  obtain ⟨entry, hget, hn⟩ := h
  unfold Gives
  rw [get_set_nickname hset]
  split_ifs with hk
  · exact ⟨{ entry with nickname := nickname }, by simp [hget], hid hk.symm⟩
  · exact ⟨entry, hget, hn⟩

/-- An entry that was taken out comes back with its nickname. -/
theorem Gives.renew {session_id : Uuid} {entry new : SessionIndexEntry} (h : Gives c id n)
    (hget : c.get session_id = some entry) (hsession : new.session_id = entry.session_id)
    (hnick : new.nickname = entry.nickname) :
    Gives (rollout_catalog.upsert
      { c with entries := erase SessionIndexEntry.session_id c.entries session_id } new) id n := by
  have hkey : entry.session_id = session_id := key_of_get hget
  obtain ⟨found, hfound, rfl⟩ := h
  unfold Gives
  rw [get_upsert, hsession, hkey]
  split_ifs with hid
  · rw [hid, hget] at hfound
    rw [← Option.some.inj hfound]
    exact ⟨new, rfl, hnick⟩
  · refine ⟨found, ?_, rfl⟩
    unfold SessionCatalog.get at hfound ⊢
    rw [get_erase, if_neg hid, hfound]

theorem once_set_nickname {c' : SessionCatalog} {session_id : Uuid} {nickname : Option Text}
    (h : Once SessionIndexEntry.session_id c.entries)
    (hset : set_nickname c session_id nickname = some c') :
    Once SessionIndexEntry.session_id c'.entries := by
  unfold set_nickname at hset
  obtain ⟨old, -, rfl⟩ := Option.map_eq_some_iff.mp hset
  apply h.map
  intro e
  split_ifs <;> rfl

/-! ## One lemma for each call -/

/-- The cache has each session once. -/
def Sound (s : Facade) : Prop := ∀ c, s.cache = some c → Once SessionIndexEntry.session_id c.entries

theorem Sound.load_inner {s : Facade} (h : Sound s) :
    Once SessionIndexEntry.session_id (load_inner code_home s).1.entries := by
  apply once_reconcile
  cases hs : s.cache with
  | none => exact once_load _
  | some c => exact h c hs

theorem Sound.query {s : Facade} (h : Sound s) (q : SessionQuery) :
    Sound (s.query code_home q).2 := by
  rintro c ⟨⟩
  exact h.load_inner

theorem Sound.set_nickname {s : Facade} (h : Sound s) (session_id : Uuid)
    (nickname : Option Text) : Sound (s.set_nickname code_home session_id nickname).2 := by
  unfold Facade.set_nickname
  dsimp only
  cases hc : rollout_catalog.set_nickname (rollout_catalog.load_inner code_home s).1 session_id
    nickname with
  | none =>
    rintro c ⟨⟩
    exact h.load_inner
  | some c =>
    rintro c ⟨⟩
    exact once_set_nickname h.load_inner hc

theorem join_archived (suffix : Path) : Path.join code_home (ARCHIVED_SESSIONS_SUBDIR ++ suffix) =
    code_home ++ (ARCHIVED_SESSIONS_SUBDIR ++ suffix) := by
  rw [archived_subdir]
  exact join_normal _ _ _

variable (code_home) in
/-- How an archiving ends: with an error and no more than its moves, or with the entry after
them. -/
theorem archive_cases (s : Facade) (session_id : Uuid) (rollout_path : Path) : ∃ disk : Disk,
    (¬ rollout_path <+: catalog_path code_home →
      disk.read (catalog_path code_home) = s.disk.read (catalog_path code_home)) ∧
      ((s.archive_conversation code_home session_id rollout_path).2 = { s with disk := disk } ∨
        ∃ new_rel new_abs, (s.archive_conversation code_home session_id rollout_path).2
          = (({ s with disk := disk } : Facade).archive_entry code_home session_id new_rel
            new_abs).2) := by
  unfold Facade.archive_conversation
  split_ifs
  · exact ⟨s.disk, fun _ => rfl, .inl rfl⟩
  · cases hrel : Path.strip_prefix rollout_path code_home with
    | none => exact ⟨s.disk, fun _ => rfl, .inl rfl⟩
    | some rel =>
      obtain rfl : rollout_path = code_home ++ rel := by
        unfold Path.strip_prefix at hrel
        split_ifs at hrel with hp
        obtain ⟨rest, rfl⟩ := List.isPrefixOf_iff_prefix.mp hp
        simpa using hrel
      dsimp only
      split
      next => exact ⟨s.disk, fun _ => rfl, .inl rfl⟩
      next =>
        split
        next => exact ⟨s.disk, fun _ => rfl, .inl rfl⟩
        next suffix hsuffix =>
          have hrel : rel ≠ [] := by
            rintro rfl
            revert hsuffix
            simp [Path.starts_with, sessions_subdir, archived_subdir]
          have hread : ∀ (stays : Bool) (error : Option Text) (disk : Disk),
              (if stays then (none, s.disk) else move_rollout s.disk (code_home ++ rel)
                (Path.join code_home (ARCHIVED_SESSIONS_SUBDIR ++ suffix))) = (error, disk) →
              ¬ code_home ++ rel <+: catalog_path code_home →
              disk.read (catalog_path code_home) = s.disk.read (catalog_path code_home) := by
            intro stays error disk hmoves hpath
            rw [join_archived] at hmoves
            have hdisk := congrArg Prod.snd hmoves
            dsimp only at hdisk
            rw [← hdisk]
            split_ifs
            · rfl
            · exact read_move_rollout code_home hrel hpath
          split
          next e disk hmoves => exact ⟨disk, hread _ _ _ hmoves, .inl rfl⟩
          next disk hmoves => exact ⟨disk, hread _ _ _ hmoves, .inr ⟨_, _, rfl⟩⟩

theorem Sound.archive_entry {s : Facade} (h : Sound s) (session_id : Uuid)
    (new_rel new_abs : Path) :
    Sound (s.archive_entry code_home session_id new_rel new_abs).2 := by
  unfold Facade.archive_entry
  dsimp only
  cases hget : (rollout_catalog.load_inner code_home s).1.get session_id with
  | none =>
    rintro c ⟨⟩
    exact h.load_inner
  | some entry =>
    rintro c ⟨⟩
    exact once_upsert h.load_inner _

theorem Sound.archive_conversation {s : Facade} (h : Sound s) (session_id : Uuid)
    (rollout_path : Path) : Sound (s.archive_conversation code_home session_id rollout_path).2 := by
  obtain ⟨disk, -, hend | ⟨new_rel, new_abs, hend⟩⟩ :=
    archive_cases code_home s session_id rollout_path
  · rw [hend]
    exact h
  · rw [hend]
    exact Sound.archive_entry (s := { s with disk := disk }) h session_id new_rel new_abs

theorem load_catalog_congr {disk disk' : Disk}
    (h : disk'.read (catalog_path code_home) = disk.read (catalog_path code_home)) :
    load_catalog code_home disk' = load_catalog code_home disk := by
  unfold load_catalog
  rw [h]

section

variable {s : Facade} {session_id : Uuid}

theorem Held.query (h : Held code_home s.disk id n)
    (hcache : ∀ c, s.cache = some c → Cached c id n) (q : SessionQuery) :
    Held code_home (s.query code_home q).2.disk id n :=
  (h.load_inner hcache).2.2

theorem Held.set_nickname (h : Held code_home s.disk id n)
    (hcache : ∀ c, s.cache = some c → Cached c id n) {nickname : Option Text}
    (hset : session_id = id → (s.set_nickname code_home session_id nickname).1 = false) :
    Held code_home (s.set_nickname code_home session_id nickname).2.disk id n := by
  obtain ⟨honce, hgives, hheld⟩ := h.load_inner hcache
  unfold Facade.set_nickname at hset ⊢
  dsimp only at hset ⊢
  cases hc : rollout_catalog.set_nickname (rollout_catalog.load_inner code_home s).1 session_id
    nickname with
  | none => exact hheld
  | some c =>
    rw [hc] at hset
    have hne : session_id = id → nickname = n := fun he => Bool.noConfusion (hset he)
    exact Held.save hheld.rollout (once_set_nickname honce hc) (hgives.set_nickname hc hne)

/-- The entry keeps its nickname when it is marked as archived. -/
theorem Held.archive_entry (h : Held code_home s.disk id n)
    (hcache : ∀ c, s.cache = some c → Cached c id n) (new_rel new_abs : Path) :
    Held code_home (s.archive_entry code_home session_id new_rel new_abs).2.disk id n := by
  obtain ⟨honce, hgives, hheld⟩ := h.load_inner hcache
  unfold Facade.archive_entry
  dsimp only
  cases hget : (rollout_catalog.load_inner code_home s).1.get session_id with
  | none => exact hheld
  | some entry =>
    refine Held.save hheld.rollout (once_upsert honce _) (hgives.upsert ?_)
    intro he
    have hkey : entry.session_id = session_id := key_of_get hget
    have hid : session_id = id := hkey.symm.trans he
    obtain ⟨entry', hget', rfl⟩ := hgives
    rw [hid, hget'] at hget
    rw [Option.some.inj hget]
    rfl

theorem onDisk_load_inner : OnDisk code_home (load_inner code_home s).2.disk id ↔
    OnDisk code_home s.disk id := by
  unfold load_inner reconcile_disk
  dsimp only
  split_ifs
  · exact onDisk_save code_home
  · exact Iff.rfl

/-- A rollout that is there after the end of an archiving was there when the catalog was
loaded. -/
theorem onDisk_of_archive_entry {new_rel new_abs : Path}
    (h : OnDisk code_home (s.archive_entry code_home session_id new_rel new_abs).2.disk id) :
    OnDisk code_home s.disk id := by
  unfold Facade.archive_entry at h
  dsimp only at h
  rw [← onDisk_load_inner]
  cases hget : (load_inner code_home s).1.get session_id with
  | none =>
    rw [hget] at h
    exact h
  | some entry =>
    rw [hget] at h
    exact (onDisk_save code_home).mp h

theorem Held.archive_conversation (h : Held code_home s.disk id n)
    (hcache : ∀ c, s.cache = some c → Cached c id n) {rollout_path : Path}
    (hpath : ¬ rollout_path <+: catalog_path code_home)
    (hafter : OnDisk code_home
      (s.archive_conversation code_home session_id rollout_path).2.disk id) :
    Held code_home (s.archive_conversation code_home session_id rollout_path).2.disk id n := by
  obtain ⟨disk, hread, hend | ⟨new_rel, new_abs, hend⟩⟩ :=
    archive_cases code_home s session_id rollout_path
  · rw [hend] at hafter ⊢
    exact ⟨load_catalog_congr (hread hpath) ▸ h.file, hafter⟩
  · rw [hend] at hafter ⊢
    have hdisk : Held code_home disk id n :=
      ⟨load_catalog_congr (hread hpath) ▸ h.file, onDisk_of_archive_entry hafter⟩
    exact Held.archive_entry (s := { s with disk := disk }) hdisk hcache new_rel new_abs

/-- The recorder's update starts from the file, and brings no nickname. -/
theorem Held.update_catalog_entry {disk : Disk} (h : Held code_home disk id n) {path : Path}
    (hpath : ∀ lines, disk.read path = some lines →
      ∀ other, (summary lines).session_id = some other → other = session_id) (timestamp : Text) :
    Held code_home (update_catalog_entry code_home disk path session_id timestamp) id n := by
  obtain ⟨hfile, hrollout⟩ := h
  have honce : Once SessionIndexEntry.session_id (load_catalog code_home disk).entries :=
    once_load _
  unfold rollout_catalog.update_catalog_entry
  dsimp only
  cases hget : (load_catalog code_home disk).get session_id with
  | none =>
    cases hparse : parse_rollout_file disk path
      (if Path.starts_with path (Path.join code_home ARCHIVED_SESSIONS_SUBDIR) then
        Path.join code_home ARCHIVED_SESSIONS_SUBDIR else Path.join code_home SESSIONS_SUBDIR)
      (Path.starts_with path (Path.join code_home ARCHIVED_SESSIONS_SUBDIR)) with
    | none => exact ⟨hfile, hrollout⟩
    | some e =>
      obtain ⟨-, lines, hlines, hid⟩ := parse_rollout_file_some hparse
      refine Held.save hrollout (once_upsert honce e) (hfile.upsert fun he => ?_)
      obtain ⟨entry, hentry, -⟩ := hfile
      rw [← he, hpath lines hlines _ hid, hget] at hentry
      cases hentry
  | some entry =>
    refine Held.save hrollout (once_upsert (honce.erase session_id) _) (hfile.renew hget ?_ ?_)
    · cases parse_rollout_file disk path _ _ <;> rfl
    · cases parse_rollout_file disk path _ _ <;> rfl

/-- A nickname that was given is in the file. -/
theorem gives_of_set_nickname {s : Facade} (hs : Sound s)
    (h : (s.set_nickname code_home id n).1 = true) :
    Gives (load_catalog code_home (s.set_nickname code_home id n).2.disk) id n := by
  unfold Facade.set_nickname at h ⊢
  dsimp only at h ⊢
  cases hc : rollout_catalog.set_nickname (rollout_catalog.load_inner code_home s).1 id n with
  | none => simp [hc] at h
  | some c =>
    have hget := get_set_nickname hc id
    rw [if_pos rfl] at hget
    obtain ⟨old, hold, -⟩ := Option.map_eq_some_iff.mp hc
    have hold : (load_inner code_home s).1.get id = some old := hold
    unfold Gives
    dsimp only
    rw [get_load_save code_home (once_set_nickname hs.load_inner hc), hget, hold]
    exact ⟨_, rfl, rfl⟩

end

/-! ## Runs of many processes -/

variable {P : Type} [DecidableEq P]

variable (code_home) in
/-- The state after a list of calls. -/
def run_calls (s : Shared P) (as : List (P × Call)) : Shared P :=
  as.foldl (fun s a => call code_home s a.1 a.2) s

theorem foldlM_step (s : Shared P) (as : List (P × Call)) :
    as.foldlM (step code_home) s = some (run_calls code_home s as) := by
  induction as generalizing s with
  | nil => rfl
  | cons a as ih => exact ih (call code_home s a.1 a.2)

/-- No process has a cache yet. -/
def fresh (disk : Disk) : Shared P := { disk := disk, cache := fun _ => none }

/-- Every cache has each session once. -/
def AllSound (s : Shared P) : Prop := ∀ p, Sound (s.facade p)

theorem AllSound.put {s : Shared P} (h : AllSound s) {p : P} {f : Facade} (hf : Sound f) :
    AllSound (s.put p f) := by
  intro q c hc
  unfold Shared.put Shared.facade at hc
  dsimp only at hc
  rw [Function.update_apply] at hc
  split_ifs at hc
  · exact hf c hc
  · exact h q c hc

theorem AllSound.call {s : Shared P} (h : AllSound s) (p : P) (a : Call) :
    AllSound (call code_home s p a) := by
  cases a with
  | query q => exact h.put ((h p).query q)
  | set_nickname session_id nickname => exact h.put ((h p).set_nickname session_id nickname)
  | archive_conversation session_id rollout_path =>
    exact h.put ((h p).archive_conversation session_id rollout_path)
  | update_catalog_entry rollout_path session_id last_timestamp => exact h
  | files disk => exact h

theorem AllSound.run {s : Shared P} (h : AllSound s) (as : List (P × Call)) :
    AllSound (run_calls code_home s as) := by
  refine List.foldlRecOn (motive := AllSound) as _ h ?_
  intro s hs a _
  exact hs.call a.1 a.2

omit [DecidableEq P] in
theorem allSound_fresh (disk : Disk) : AllSound (fresh disk : Shared P) := by
  rintro p c ⟨⟩

/-- A call that is allowed and up to date keeps the nickname. -/
theorem Held.call {s : Shared P} (hs : AllSound s) (h : Held code_home s.disk id n) {a : P × Call}
    (hallowed : Allowed code_home id s a) (hcache : UpToDate code_home id s a) :
    Held code_home (call code_home s a.1 a.2).disk id n := by
  obtain ⟨p, a⟩ := a
  obtain ⟨hafter, hallowed⟩ := hallowed
  have hcached : (∀ c, s.cache p = some c →
      nickname_of c id = nickname_of (load_catalog code_home s.disk) id) →
      ∀ c, (s.facade p).cache = some c → Cached c id n := by
    intro hagree c hc
    exact ⟨hs p c hc, (hagree c hc).trans h.file.nickname_of⟩
  cases a with
  | query q => exact Held.query (s := s.facade p) h (hcached hcache) q
  | set_nickname session_id nickname =>
    exact Held.set_nickname (s := s.facade p) h (hcached hcache) hallowed
  | archive_conversation session_id rollout_path =>
    exact Held.archive_conversation (s := s.facade p) h (hcached hcache.2) hcache.1 hafter
  | update_catalog_entry rollout_path session_id last_timestamp =>
    exact h.update_catalog_entry hallowed last_timestamp
  | files disk => exact ⟨load_catalog_congr hallowed ▸ h.file, hafter⟩

/-- In every run, whatever came before: once a call has given a session a nickname, the catalog
file gives it as long as each call starts up to date. -/
theorem nickname_stays {disk : Disk} {before after : List (P × Call)} {p : P}
    {s : Shared P} (hs : s = run_calls code_home (fresh disk) before)
    (hset : ((s.facade p).set_nickname code_home id n).1 = true)
    (hrollout : OnDisk code_home (call code_home s p (.set_nickname id n)).disk id)
    (hafter : Guarded (step code_home)
      (fun s a => Allowed code_home id s a ∧ UpToDate code_home id s a)
      (call code_home s p (.set_nickname id n)) after) :
    Gives (load_catalog code_home
      (run_calls code_home (call code_home s p (.set_nickname id n)) after).disk) id n := by
  have hsound : AllSound s := hs ▸ (allSound_fresh disk).run before
  have hheld : Held code_home (call code_home s p (.set_nickname id n)).disk id n :=
    ⟨gives_of_set_nickname (hsound p) hset, hrollout⟩
  have hend := hafter.invariant (I := fun s => AllSound s ∧ Held code_home s.disk id n) ?_
    ⟨hsound.call p (.set_nickname id n), hheld⟩ (foldlM_step _ after)
  · exact hend.2.file
  · rintro s a s' ⟨hs, hheld⟩ ⟨hallowed, hcache⟩ hstep
    obtain rfl := Option.some.inj hstep
    exact ⟨hs.call a.1 a.2, hheld.call hs hallowed hcache⟩

/-! ## One process alone -/

/-- The cache gives every session the nickname that the file gives it. -/
def Agrees (code_home : Path) (s : Facade) : Prop := ∀ c, s.cache = some c → ∀ id,
  nickname_of c id = nickname_of (load_catalog code_home s.disk) id

theorem nickname_of_load_save (h : Once SessionIndexEntry.session_id c.entries) (disk : Disk)
    (id : Uuid) :
    nickname_of c id = nickname_of (load_catalog code_home (save_catalog code_home c disk)) id := by
  unfold nickname_of
  rw [get_load_save code_home h]

/-- What is loaded agrees with the file that loading leaves: it was saved if it changed. -/
theorem Agrees.load_inner {s : Facade} (hs : Sound s) (h : Agrees code_home s) (id : Uuid) :
    nickname_of (load_inner code_home s).1 id =
      nickname_of (load_catalog code_home (load_inner code_home s).2.disk) id := by
  have honce : Once SessionIndexEntry.session_id
      (rollout_catalog.load_inner code_home s).1.entries := hs.load_inner
  unfold rollout_catalog.load_inner reconcile_disk at honce ⊢
  dsimp only at honce ⊢
  split_ifs with hchanged
  · exact nickname_of_load_save honce s.disk id
  · rw [reconcile_unchanged _ (by simpa using hchanged)]
    cases hc : s.cache with
    | none => rfl
    | some c => exact h c hc id

theorem Agrees.query {s : Facade} (hs : Sound s) (h : Agrees code_home s) (q : SessionQuery) :
    Agrees code_home (s.query code_home q).2 := by
  rintro c ⟨⟩
  exact h.load_inner hs

theorem Agrees.set_nickname {s : Facade} (hs : Sound s) (h : Agrees code_home s)
    (session_id : Uuid) (nickname : Option Text) :
    Agrees code_home (s.set_nickname code_home session_id nickname).2 := by
  unfold Facade.set_nickname
  dsimp only
  cases hc : rollout_catalog.set_nickname (rollout_catalog.load_inner code_home s).1 session_id
    nickname with
  | none =>
    rintro c ⟨⟩
    exact h.load_inner hs
  | some c =>
    rintro c ⟨⟩
    exact nickname_of_load_save (once_set_nickname hs.load_inner hc) _

theorem Agrees.archive_entry {s : Facade} (hs : Sound s) (h : Agrees code_home s)
    (session_id : Uuid) (new_rel new_abs : Path) :
    Agrees code_home (s.archive_entry code_home session_id new_rel new_abs).2 := by
  unfold Facade.archive_entry
  dsimp only
  cases hget : (rollout_catalog.load_inner code_home s).1.get session_id with
  | none =>
    rintro c ⟨⟩
    exact h.load_inner hs
  | some entry =>
    rintro c ⟨⟩
    exact nickname_of_load_save (once_upsert hs.load_inner _) _

theorem Agrees.archive_conversation {s : Facade} (hs : Sound s) (h : Agrees code_home s)
    (session_id : Uuid) {rollout_path : Path} (hpath : ¬ rollout_path <+: catalog_path code_home) :
    Agrees code_home (s.archive_conversation code_home session_id rollout_path).2 := by
  obtain ⟨disk, hread, hend | ⟨new_rel, new_abs, hend⟩⟩ :=
    archive_cases code_home s session_id rollout_path
  all_goals
    have hdisk : Agrees code_home { s with disk := disk } := by
      intro c hc id
      rw [load_catalog_congr (hread hpath)]
      exact h c hc id
    rw [hend]
  · exact hdisk
  · exact Agrees.archive_entry (s := { s with disk := disk }) hs hdisk session_id new_rel new_abs

/-- The recorder's update leaves every nickname in the file. -/
theorem nickname_of_update {disk : Disk} {path : Path} {session_id : Uuid}
    (hpath : ∀ lines, disk.read path = some lines →
      ∀ other, (summary lines).session_id = some other → other = session_id) (timestamp : Text)
    (id : Uuid) :
    nickname_of (load_catalog code_home
        (update_catalog_entry code_home disk path session_id timestamp)) id =
      nickname_of (load_catalog code_home disk) id := by
  have honce : Once SessionIndexEntry.session_id (load_catalog code_home disk).entries :=
    once_load _
  unfold update_catalog_entry
  dsimp only
  cases hget : (load_catalog code_home disk).get session_id with
  | none =>
    cases hparse : parse_rollout_file disk path
      (if Path.starts_with path (Path.join code_home ARCHIVED_SESSIONS_SUBDIR) then
        Path.join code_home ARCHIVED_SESSIONS_SUBDIR else Path.join code_home SESSIONS_SUBDIR)
      (Path.starts_with path (Path.join code_home ARCHIVED_SESSIONS_SUBDIR)) with
    | none => rfl
    | some e =>
      obtain ⟨hnone, lines, hlines, hid⟩ := parse_rollout_file_some hparse
      have hsession := hpath lines hlines _ hid
      dsimp only
      rw [← nickname_of_load_save (once_upsert honce e)]
      unfold nickname_of
      rw [get_upsert, hsession]
      split_ifs with hk
      · simp [hk, hget, hnone]
      · rfl
  | some entry =>
    have hkey : entry.session_id = session_id := key_of_get hget
    generalize load_catalog code_home disk = c at honce hget
    have hrenew : ∀ new : SessionIndexEntry, new.session_id = entry.session_id →
        new.nickname = entry.nickname →
        nickname_of (load_catalog code_home (save_catalog code_home (upsert
          { c with entries := erase SessionIndexEntry.session_id c.entries session_id } new)
          disk)) id = nickname_of c id := by
      intro new hsession hnick
      rw [← nickname_of_load_save (once_upsert (honce.erase session_id) new)]
      unfold nickname_of
      rw [get_upsert, hsession, hkey]
      split_ifs with hk
      · simp [hk, hget, hnick]
      · unfold SessionCatalog.get
        rw [get_erase, if_neg hk]
    apply hrenew
    · cases parse_rollout_file disk path _ _ <;> rfl
    · cases parse_rollout_file disk path _ _ <;> rfl

/-- What a process that is alone is promised: the catalog file is not archived, only its calls
write it, and its recorder updates the session of the file it writes. -/
def Promised (code_home : Path) (s : Shared P) : Call → Prop
  | .archive_conversation _ rollout_path => ¬ rollout_path <+: catalog_path code_home
  | .update_catalog_entry rollout_path session_id _ => ∀ lines,
    s.disk.read rollout_path = some lines →
      ∀ other, (summary lines).session_id = some other → other = session_id
  | .files disk => disk.read (catalog_path code_home) = s.disk.read (catalog_path code_home)
  | _ => True

theorem facade_put (s : Shared P) (p : P) (f : Facade) : (s.put p f).facade p = f := by
  simp [Shared.put, Shared.facade]

theorem Agrees.call {s : Shared P} (hs : AllSound s) {p : P} (h : Agrees code_home (s.facade p))
    {a : Call} (ha : Promised code_home s a) :
    Agrees code_home ((call code_home s p a).facade p) := by
  cases a with
  | query q =>
    unfold rollout_catalog.call
    rw [facade_put]
    exact h.query (hs p) q
  | set_nickname session_id nickname =>
    unfold rollout_catalog.call
    rw [facade_put]
    exact h.set_nickname (hs p) session_id nickname
  | archive_conversation session_id rollout_path =>
    unfold rollout_catalog.call
    rw [facade_put]
    exact h.archive_conversation (hs p) session_id ha
  | update_catalog_entry rollout_path session_id last_timestamp =>
    intro c hc id
    exact (h c hc id).trans (nickname_of_update ha last_timestamp id).symm
  | files disk =>
    intro c hc id
    exact (h c hc id).trans (congrArg (nickname_of · id) (load_catalog_congr ha).symm)

/-- A process that is alone with its code home starts every call up to date. -/
theorem alone_up_to_date {disk : Disk} {p : P} {as : List (P × Call)}
    (has : Guarded (step code_home) (fun s a => a.1 = p ∧ Promised code_home s a.2)
      (fresh disk) as) {a : Call}
    (ha : Promised code_home (run_calls code_home (fresh disk) as) a) :
    UpToDate code_home id (run_calls code_home (fresh disk) as) (p, a) := by
  have hend := has.invariant (I := fun s => AllSound s ∧ Agrees code_home (s.facade p)) ?_
    ⟨allSound_fresh disk, by rintro c ⟨⟩⟩ (foldlM_step (fresh disk) as)
  · have hagree : ∀ c, (run_calls code_home (fresh disk) as).cache p = some c →
        nickname_of c id =
          nickname_of (load_catalog code_home (run_calls code_home (fresh disk) as).disk) id :=
      fun c hc => hend.2 c hc id
    cases a with
    | query q => exact hagree
    | set_nickname session_id nickname => exact hagree
    | archive_conversation session_id rollout_path => exact ⟨ha, hagree⟩
    | update_catalog_entry rollout_path session_id last_timestamp => trivial
    | files disk => trivial
  · rintro s a s' ⟨hs, hagree⟩ ⟨rfl, hpromised⟩ hstep
    obtain rfl := Option.some.inj hstep
    exact ⟨hs.call a.1 a.2, hagree.call hs hpromised⟩

/-! ### Two processes and two sessions -/

def small_rollout (id : Uuid) : Path := create_log_file small_home id small_start

/-- The disk after the recorder wrote the first lines of the sessions 7 and 8. -/
def two_sessions : Disk :=
  let line (id : Uuid) : Line := .rollout {
    timestamp := small_session.created_at
    item := .SessionMeta id small_session.cwd_real .Cli none }
  let disk : Disk := { files := [(small_rollout 7, [line 7]), (small_rollout 8, [line 8])] }
  let disk := update_catalog_entry small_home disk (small_rollout 7) 7 small_session.created_at
  update_catalog_entry small_home disk (small_rollout 8) 8 small_session.created_at

theorem onDisk_of_read {home : Path} {disk : Disk} {id : Uuid} (path : Path)
    (hid : (disk.read path).map (fun lines => (summary lines).session_id) = some (some id))
    (hname : is_rollout_name path = true) (hpath : home ++ SESSIONS_SUBDIR <+: path) :
    OnDisk home disk id := by
  obtain ⟨lines, hlines, hid⟩ := Option.map_eq_some_iff.mp hid
  exact ⟨path, lines, hlines, hname, hid, .inl hpath⟩

def small_name : Option Text := some "x".toList

/-- One process has looked at the catalog before the other one gives session 7 a nickname. -/
def looked : Shared Bool := run_calls small_home (fresh two_sessions) [(false, .query {})]

def named : Shared Bool := call small_home looked true (.set_nickname 7 small_name)

theorem named_true : ((looked.facade true).set_nickname small_home 7 small_name).1 = true := by
  decide

theorem named_onDisk : OnDisk small_home named.disk 7 := by
  refine onDisk_of_read (small_rollout 7) ?_ ?_ ?_
  · decide
  · decide
  · decide

theorem renamed_allowed : Allowed small_home 7 named (false, .set_nickname 8 small_name) := by
  refine ⟨onDisk_of_read (small_rollout 7) ?_ ?_ ?_, ?_⟩
  · decide
  · decide
  · decide
  · intro h
    exact absurd h (by decide)

/-- The other process then names session 8 from its cache, and session 7 has no nickname in the
file any more. -/
theorem nickname_lost : ¬ ∀ (before after : List (Bool × Call)) (p : Bool) (id : Uuid)
    (n : Option Text) (s : Shared Bool), s = run_calls small_home (fresh two_sessions) before →
    ((s.facade p).set_nickname small_home id n).1 = true →
    OnDisk small_home (call small_home s p (.set_nickname id n)).disk id →
    Guarded (step small_home) (Allowed small_home id)
      (call small_home s p (.set_nickname id n)) after →
    Gives (load_catalog small_home
      (run_calls small_home (call small_home s p (.set_nickname id n)) after).disk) id n := by
  intro h
  have hgives := h [(false, .query {})] [(false, .set_nickname 8 small_name)] true 7 small_name
    looked rfl named_true named_onDisk (guarded_one renamed_allowed)
  have hlost : nickname_of (load_catalog small_home
      (run_calls small_home named [(false, .set_nickname 8 small_name)]).disk) 7 = none := by
    decide
  exact absurd (hgives.nickname_of.symm.trans hlost) (by decide)

theorem first_allowed :
    Allowed small_home 7 (call small_home (fresh two_sessions) true (.set_nickname 7 small_name))
      (false, .set_nickname 8 small_name) := by
  refine ⟨onDisk_of_read (small_rollout 7) ?_ ?_ ?_, ?_⟩
  · decide
  · decide
  · decide
  · intro h
    exact absurd h (by decide)

/-- Had the other process not looked before, both nicknames would stand. -/
theorem nickname_stays_small : Gives (load_catalog small_home (run_calls small_home
    (call small_home (fresh two_sessions) true (.set_nickname 7 small_name))
      [(false, .set_nickname 8 small_name)]).disk) 7 small_name := by
  have hstart : (fresh two_sessions : Shared Bool) =
      run_calls small_home (fresh two_sessions) [] := rfl
  refine nickname_stays hstart (by decide) ?_ (guarded_one ⟨first_allowed, ?_⟩)
  · refine onDisk_of_read (small_rollout 7) ?_ ?_ ?_
    · decide
    · decide
    · decide
  · rintro c ⟨⟩

end Ecode.rollout_catalog
