-- Queries through the two indexes of the session catalog against a plain scan
-- of its entries, after any run of its operations.
import Ecode.SessionCatalog

namespace Ecode.rollout_catalog

open keyed SessionCatalog

/-! ## What a query is for -/

/-- The rows that pass, in the global order, cut to the limit. -/
def scan (c : SessionCatalog) (q : SessionQuery) : List SessionIndexEntry :=
  let rows := (all_ordered c).filter q.passes
  match q.limit with
  | some limit => rows.take limit
  | none => rows

theorem collect_rows_eq (q : SessionQuery) (rows candidates : List SessionIndexEntry) :
    collect_rows q rows candidates = rows ++
      match q.limit with
      | some limit => (candidates.filter q.passes).take (max (limit - rows.length) 1)
      | none => candidates.filter q.passes := by
  induction candidates generalizing rows with
  | nil => cases h : q.limit <;> simp [collect_rows]
  | cons e candidates ih =>
    unfold collect_rows
    by_cases hp : q.passes e
    · rw [if_pos hp, List.filter_cons_of_pos hp]
      cases hl : q.limit with
      | none => simp [ih, hl]
      | some limit =>
        simp only [Option.any_some, List.length_append, List.length_singleton, decide_eq_true_iff]
        split_ifs with hfull
        · have hone : max (limit - rows.length) 1 = 1 := by omega
          rw [hone]
          simp
        · have hmore : max (limit - rows.length) 1 = max (limit - (rows.length + 1)) 1 + 1 := by
            omega
          rw [ih, hl, hmore]
          simp
    · rw [if_neg hp, List.filter_cons_of_neg hp, ih]

/-! ## The indexes -/

/-- Each session has one entry, and the indexes list the entries of each place. -/
structure Indexed (c : SessionCatalog) : Prop where
  once : Once SessionIndexEntry.session_id c.entries
  by_cwd : Exact SessionIndexEntry.session_id (fun e => some e.cwd_real) c.entries c.by_cwd
  by_git_root :
    Exact SessionIndexEntry.session_id SessionIndexEntry.git_project_root c.entries c.by_git_root

theorem indexed_empty : Indexed SessionCatalog.empty :=
  ⟨List.nodup_nil, exact_nil, exact_nil⟩

variable {c : SessionCatalog} {e old : SessionIndexEntry} {id : Uuid}

theorem index_entry_by_cwd : (c.index_entry e).by_cwd =
    note SessionIndexEntry.session_id (fun e => some e.cwd_real) c.by_cwd e := by
  funext p
  simp [SessionCatalog.index_entry, SessionCatalog.push_id, note]

theorem index_entry_by_git_root : (c.index_entry e).by_git_root =
    note SessionIndexEntry.session_id SessionIndexEntry.git_project_root c.by_git_root e := by
  funext p
  cases h : e.git_project_root <;>
    simp [SessionCatalog.index_entry, SessionCatalog.push_id, note, h]

theorem remove_from_indexes_by_cwd : (remove_from_indexes c e.session_id e).by_cwd =
    forget SessionIndexEntry.session_id (fun e => some e.cwd_real) c.by_cwd e := by
  funext p
  simp [remove_from_indexes, SessionCatalog.retain_other, forget]

theorem remove_from_indexes_by_git_root : (remove_from_indexes c e.session_id e).by_git_root =
    forget SessionIndexEntry.session_id SessionIndexEntry.git_project_root c.by_git_root e := by
  funext p
  cases h : e.git_project_root <;>
    simp [remove_from_indexes, SessionCatalog.retain_other, forget, h]

theorem Indexed.index_entry (h : Indexed c) (hnew : c.get e.session_id = none) :
    Indexed (c.index_entry e) := by
  have hfresh := get_eq_none.mp hnew
  refine ⟨h.once.insert e, ?_, ?_⟩
  · rw [index_entry_by_cwd]
    exact h.by_cwd.note hfresh
  · rw [index_entry_by_git_root]
    exact h.by_git_root.note hfresh

theorem get_remove (c : SessionCatalog) (id k : Uuid) :
    (remove c id).get k = if k = id then none else c.get k := by
  unfold remove
  cases h : c.get id with
  | none =>
    split_ifs with hk
    · rw [hk, h]
    · rfl
  | some e => exact get_erase

theorem Indexed.remove (h : Indexed c) (id : Uuid) : Indexed (remove c id) := by
  unfold rollout_catalog.remove
  cases hget : c.get id with
  | none => exact h
  | some e =>
    obtain rfl : e.session_id = id := key_of_get hget
    have he : e ∈ c.entries := mem_of_get hget
    refine ⟨h.once.erase e.session_id, ?_, ?_⟩
    · have hids := @remove_from_indexes_by_cwd
        { c with entries := erase SessionIndexEntry.session_id c.entries e.session_id } e
      rw [hids]
      exact h.by_cwd.forget h.once he
    · have hids := @remove_from_indexes_by_git_root
        { c with entries := erase SessionIndexEntry.session_id c.entries e.session_id } e
      rw [hids]
      exact h.by_git_root.forget h.once he

/-- Leaving the indexes and coming back is leaving the catalog and coming back: the new entry
takes the old one's place among the entries anyway. -/
theorem index_entry_remove_from_indexes (hold : c.get e.session_id = some old) :
    (remove_from_indexes c e.session_id old).index_entry e
      = (remove c e.session_id).index_entry e := by
  unfold rollout_catalog.remove
  rw [hold]
  unfold SessionCatalog.index_entry remove_from_indexes
  congr 1
  simp [keyed.insert, keyed.erase]

theorem Indexed.replace (h : Indexed c) (hold : c.get e.session_id = some old) :
    Indexed ((remove_from_indexes c e.session_id old).index_entry e) := by
  rw [index_entry_remove_from_indexes hold]
  apply (h.remove e.session_id).index_entry
  rw [get_remove, if_pos rfl]

/-! ## One lemma for each operation -/

theorem Indexed.upsert (h : Indexed c) (e : SessionIndexEntry) : Indexed (upsert c e) := by
  unfold rollout_catalog.upsert
  cases hget : c.get e.session_id with
  | none => exact h.index_entry hget
  | some old => exact h.replace hget

theorem Indexed.set_nickname (h : Indexed c) (id : Uuid) (nickname : Option Text) :
    Indexed ((set_nickname c id nickname).getD c) := by
  unfold rollout_catalog.set_nickname
  cases c.get id with
  | none => exact h
  | some e =>
    have hkey : ∀ e : SessionIndexEntry, (if e.session_id = id then { e with nickname := nickname }
        else e).session_id = e.session_id := by
      intro e
      split_ifs <;> rfl
    refine ⟨h.once.map hkey, h.by_cwd.map hkey ?_, h.by_git_root.map hkey ?_⟩
    · intro e
      split_ifs <;> rfl
    · intro e
      split_ifs <;> rfl

theorem Indexed.remove_missing {r : Reconciling} (h : Indexed r.catalog) (ids : List Uuid)
    (id : Uuid) : Indexed (remove_missing ids r id).catalog := by
  unfold rollout_catalog.remove_missing
  split_ifs
  · exact h
  · exact h.remove id
  · exact h

theorem Indexed.upsert_discovered {r : Reconciling} (h : Indexed r.catalog)
    (e : SessionIndexEntry) : Indexed (upsert_discovered r e).catalog := by
  unfold rollout_catalog.upsert_discovered
  cases hget : r.catalog.get e.session_id with
  | none => exact h.index_entry hget
  | some existing =>
    simp only
    split_ifs with hreplace hnick
    · exact Indexed.replace (e := { e with nickname := existing.nickname }) h hget
    · exact h.replace hget
    · exact h

theorem Indexed.reconcile (h : Indexed c) (discovered : Option Discovered) :
    Indexed (reconcile c discovered).catalog := by
  cases discovered with
  | none => exact h
  | some d =>
    exact reconcile_keeps (fun r id hr => hr.remove_missing d.ids id)
      (fun r e _ hr => hr.upsert_discovered e) h

/-! ## Loading a file -/

/-- The entries of the lines that parse. -/
def parsed (lines : List (Option SessionIndexEntry)) : List SessionIndexEntry :=
  lines.filterMap fun line => line

/-- No session is on two lines of the file. -/
def RepeatsNoSession (lines : List (Option SessionIndexEntry)) : Prop :=
  Once SessionIndexEntry.session_id (parsed lines)

theorem load_eq (lines : List (Option SessionIndexEntry)) :
    load lines = (parsed lines).foldl index_entry empty := by
  unfold load
  generalize empty = c
  induction lines generalizing c with
  | nil => rfl
  | cons line lines ih =>
    cases line with
    | none => exact ih c
    | some e => exact ih (c.index_entry e)

theorem get_index_entry (c : SessionCatalog) (e : SessionIndexEntry) (k : Uuid) :
    (c.index_entry e).get k = if k = e.session_id then some e else c.get k := get_insert

/-- An index lists what the lines name, line after line. -/
theorem load_by_cwd (lines : List (Option SessionIndexEntry)) (p : Path) : (load lines).by_cwd p =
    ((parsed lines).filter fun e => e.cwd_real = p).map SessionIndexEntry.session_id := by
  rw [load_eq]
  induction parsed lines using List.reverseRecOn with
  | nil => rfl
  | append_singleton es e ih =>
    rw [List.foldl_append, List.foldl_cons, List.foldl_nil, index_entry_by_cwd, List.filter_append]
    unfold note
    rw [ih]
    by_cases hp : e.cwd_real = p <;> simp [hp]

theorem once_load (lines : List (Option SessionIndexEntry)) :
    Once SessionIndexEntry.session_id (load lines).entries := by
  rw [load_eq]
  induction parsed lines using List.reverseRecOn with
  | nil => exact List.nodup_nil
  | append_singleton es e ih =>
    rw [List.foldl_append]
    exact ih.insert e

/-- The sessions of the catalog are those of the lines. -/
theorem get_indexed_isSome {es : List SessionIndexEntry} {id : Uuid} :
    ((es.foldl index_entry empty).get id).isSome ↔ id ∈ es.map SessionIndexEntry.session_id := by
  induction es using List.reverseRecOn with
  | nil => simp [empty, SessionCatalog.get, keyed.get]
  | append_singleton es e ih =>
    rw [List.foldl_append, List.foldl_cons, List.foldl_nil, get_index_entry]
    split_ifs with h
    · simp [h]
    · rw [ih]
      simp [h]

theorem indexed_load {lines : List (Option SessionIndexEntry)} (h : RepeatsNoSession lines) :
    Indexed (load lines) := by
  unfold RepeatsNoSession at h
  rw [load_eq]
  generalize parsed lines = es at h
  induction es using List.reverseRecOn with
  | nil => exact indexed_empty
  | append_singleton es e ih =>
    unfold Once at h
    rw [List.map_append, List.map_singleton, List.nodup_append] at h
    obtain ⟨hes, -, hnew⟩ := h
    rw [List.foldl_append, List.foldl_cons, List.foldl_nil]
    apply (ih hes).index_entry
    have hnone : ¬ ((es.foldl SessionCatalog.index_entry empty).get e.session_id).isSome := by
      rw [get_indexed_isSome]
      intro hmem
      exact hnew _ hmem _ (List.mem_singleton_self _) rfl
    simpa using hnone

/-! ## The rows -/

/-- Two entries of the catalog have keys of their own in the global order. -/
theorem Indexed.ordering_key (h : Indexed c) : ∀ v ∈ c.entries, ∀ w ∈ c.entries,
    v.ordering_key = w.ordering_key → v = w := by
  intro v hv w hw he
  apply h.once.eq_of_mem hv hw
  simp only [SessionIndexEntry.ordering_key, EmbeddingLike.apply_eq_iff_eq, Prod.mk.injEq] at he
  exact he.2.2

theorem Indexed.listed {place : SessionIndexEntry → Option Path} {ids : Path → List Uuid}
    (h : Indexed c) (hids : Exact SessionIndexEntry.session_id place c.entries ids) (p : Path) :
    c.listed (ids p) = (all_ordered c).filter fun e => place e = some p := by
  have hfound := hids.found h.once p
  unfold all_ordered
  rw [filter_sort_by_key h.ordering_key]
  refine sort_by_key_congr ?_ hfound
  intro v hv w hw
  exact h.ordering_key v (List.mem_of_mem_filter hv) w (List.mem_of_mem_filter hw)

theorem passes_cwd {q : SessionQuery} {e : SessionIndexEntry} {cwd : Path} (hq : q.cwd = some cwd)
    (h : q.passes e) : e.cwd_real = cwd := by
  by_contra hne
  simp [SessionQuery.passes, hq, hne] at h

theorem passes_git_root {q : SessionQuery} {e : SessionIndexEntry} {git_root : Path}
    (hq : q.git_root = some git_root) (h : q.passes e) : e.git_project_root = some git_root := by
  by_contra hne
  simp [SessionQuery.passes, hq, hne] at h

/-- Whichever index a query goes through, the rows that pass are those of the plain scan. -/
theorem Indexed.candidates (h : Indexed c) (q : SessionQuery) :
    (candidates c q).filter q.passes = (all_ordered c).filter q.passes := by
  unfold rollout_catalog.candidates
  split
  next cwd hcwd =>
    rw [rollout_catalog.by_cwd, h.listed h.by_cwd, List.filter_filter]
    apply List.filter_congr
    intro e _
    by_cases hp : q.passes e
    · simp [hp, passes_cwd hcwd hp]
    · simp [hp]
  next git_root _ hroot =>
    rw [rollout_catalog.by_git_root, h.listed h.by_git_root, List.filter_filter]
    apply List.filter_congr
    intro e _
    by_cases hp : q.passes e
    · simp [hp, passes_git_root hroot hp]
    · simp [hp]
  next => rfl

theorem Indexed.query (h : Indexed c) (q : SessionQuery) : query c q =
    match q.limit with
    | some limit => ((all_ordered c).filter q.passes).take (max limit 1)
    | none => (all_ordered c).filter q.passes := by
  unfold rollout_catalog.query
  rw [collect_rows_eq, h.candidates]
  simp

/-- The newest session that passes. -/
theorem Indexed.get_latest (h : Indexed c) (q : SessionQuery) :
    get_latest c q = ((all_ordered c).filter q.passes).head? := by
  unfold rollout_catalog.get_latest
  have hpasses : ({ q with limit := some 1 } : SessionQuery).passes = q.passes := rfl
  rw [h.query, hpasses]
  cases (all_ordered c).filter q.passes <;> simp

theorem query_eq_scan_iff (h : Indexed c) (q : SessionQuery) : query c q = scan c q ↔
    ¬ (q.limit = some 0 ∧ ∃ e ∈ c.entries, q.passes e) := by
  rw [h.query]
  unfold scan
  cases hl : q.limit with
  | none => simp
  | some limit =>
    cases limit with
    | zero =>
      simp only [zero_le, sup_of_le_right, List.take_zero, true_and]
      rw [List.take_eq_nil_iff]
      simp [all_ordered]
    | succ limit => simp

/-! ## A session that the file repeats -/

/-- All sessions of a working directory. -/
def whole (cwd : Path) : SessionQuery :=
  { cwd := some cwd, include_archived := true, include_deleted := true }

theorem passes_whole (e : SessionIndexEntry) : (whole e.cwd_real).passes e := by
  simp [SessionQuery.passes, whole]

theorem query_whole (c : SessionCatalog) (cwd : Path) :
    query c (whole cwd) = (rollout_catalog.by_cwd c cwd).filter (whole cwd).passes :=
  collect_rows_eq (whole cwd) [] (candidates c (whole cwd))

/-- An entry whose session stands twice in its list comes twice. -/
theorem query_listed_twice (honce : Once SessionIndexEntry.session_id c.entries)
    (he : e ∈ c.entries) (htwice : 2 ≤ (c.by_cwd e.cwd_real).count e.session_id) :
    query c (whole e.cwd_real) ≠ scan c (whole e.cwd_real) := by
  have hrows : 2 ≤ (query c (whole e.cwd_real)).count e := by
    rw [query_whole, List.count_filter (passes_whole e), rollout_catalog.by_cwd, listed,
      (sort_by_key_perm _).count_eq, List.count, List.countP_filterMap]
    refine htwice.trans (List.countP_mono_left fun id _ hid => ?_)
    obtain rfl : id = e.session_id := by simpa using hid
    have hget : c.get e.session_id = some e := honce.get_iff.mpr ⟨he, rfl⟩
    simp [hget]
  have hscan : (scan c (whole e.cwd_real)).count e ≤ 1 := by
    have hnodup : c.entries.Nodup := List.Nodup.of_map _ honce
    apply List.nodup_iff_count_le_one.mp
    exact (((sort_by_key_perm c.entries).nodup_iff).mpr hnodup).filter _
  intro heq
  rw [heq] at hrows
  omega

theorem once_upsert (honce : Once SessionIndexEntry.session_id c.entries) (e : SessionIndexEntry) :
    Once SessionIndexEntry.session_id (upsert c e).entries := by
  unfold upsert
  cases c.get e.session_id with
  | none => exact honce.insert e
  | some old => exact honce.insert e

/-- A file that repeats a session lists it twice: at once when both lines have one working
directory, else when the session comes back to the directory it left. -/
theorem repeated_session_shows {lines : List (Option SessionIndexEntry)}
    (h : ¬ RepeatsNoSession lines) :
    ∃ cwd, query (load lines) (whole cwd) ≠ scan (load lines) (whole cwd) ∨
      ∃ e, query (upsert (load lines) e) (whole cwd) ≠
        scan (upsert (load lines) e) (whole cwd) := by
  unfold RepeatsNoSession Once at h
  rw [List.nodup_iff_count_le_one] at h
  push Not at h
  obtain ⟨id, hid⟩ := h
  have hmem : id ∈ (parsed lines).map SessionIndexEntry.session_id :=
    List.count_pos_iff.mp (by omega)
  obtain ⟨e, hget⟩ : ∃ e, (load lines).get id = some e := by
    rw [← Option.isSome_iff_exists, load_eq, get_indexed_isSome]
    exact hmem
  obtain rfl : e.session_id = id := key_of_get hget
  by_cases hsame : ∀ x ∈ parsed lines, x.session_id = e.session_id → x.cwd_real = e.cwd_real
  · refine ⟨e.cwd_real, .inl ?_⟩
    apply query_listed_twice (once_load lines) (mem_of_get hget)
    rw [load_by_cwd, List.count, List.countP_map, List.countP_filter]
    rw [List.count, List.countP_map] at hid
    refine le_trans hid (List.countP_mono_left fun x hx hxid => ?_)
    have hxid : x.session_id = e.session_id := by simpa using hxid
    simp [hxid, hsame x hx hxid]
  · push Not at hsame
    obtain ⟨x, hx, hsession, hcwd⟩ := hsame
    refine ⟨x.cwd_real, .inr ⟨{ e with cwd_real := x.cwd_real }, ?_⟩⟩
    have hupsert : upsert (load lines) { e with cwd_real := x.cwd_real } =
        (remove_from_indexes (load lines) e.session_id e).index_entry
          { e with cwd_real := x.cwd_real } := by
      simp [upsert, hget]
    refine query_listed_twice (e := { e with cwd_real := x.cwd_real })
      (once_upsert (once_load lines) _) ?_ ?_
    · rw [hupsert]
      exact mem_insert.mpr (.inl rfl)
    · have hstale : e.session_id ∈ (load lines).by_cwd x.cwd_real := by
        rw [load_by_cwd, ← hsession]
        exact List.mem_map_of_mem (List.mem_filter.mpr ⟨hx, by simp⟩)
      have hkept : (remove_from_indexes (load lines) e.session_id e).by_cwd x.cwd_real =
          (load lines).by_cwd x.cwd_real := by
        rw [remove_from_indexes_by_cwd]
        simp [forget, Ne.symm hcwd]
      rw [hupsert, index_entry_by_cwd]
      have hcount := List.count_pos_iff.mpr hstale
      simp [note, hkept]
      omega

/-! ## Runs -/

inductive Op where
  | load (lines : List (Option SessionIndexEntry))
  | upsert (entry : SessionIndexEntry)
  | set_nickname (session_id : Uuid) (nickname : Option Text)
  | remove (session_id : Uuid)
  | reconcile (discovered : Option Discovered)

def Op.apply (c : SessionCatalog) : Op → SessionCatalog
  | .load lines => SessionCatalog.load lines
  | .upsert entry => rollout_catalog.upsert c entry
  | .set_nickname session_id nickname => (rollout_catalog.set_nickname c session_id nickname).getD c
  | .remove session_id => rollout_catalog.remove c session_id
  | .reconcile discovered => (rollout_catalog.reconcile c discovered).catalog

def run (c : SessionCatalog) (ops : List Op) : SessionCatalog := ops.foldl Op.apply c

theorem Indexed.run (h : Indexed c) {ops : List Op}
    (hloads : ∀ lines, Op.load lines ∈ ops → RepeatsNoSession lines) : Indexed (run c ops) := by
  refine List.foldlRecOn (motive := Indexed) ops Op.apply h fun c hc op hop => ?_
  cases op with
  | load lines => exact indexed_load (hloads lines hop)
  | upsert entry => exact hc.upsert entry
  | set_nickname session_id nickname => exact hc.set_nickname session_id nickname
  | remove session_id => exact hc.remove session_id
  | reconcile discovered => exact hc.reconcile discovered

/-- After the load of a file, every query in every run is answered as by a scan, the queries with
limit zero that find something apart, exactly when the file repeats no session. -/
theorem queries_eq_scan_iff (lines : List (Option SessionIndexEntry)) :
    (∀ ops, (∀ later, Op.load later ∈ ops → RepeatsNoSession later) → ∀ q,
      query (run (load lines) ops) q = scan (run (load lines) ops) q ↔
        ¬ (q.limit = some 0 ∧ ∃ e ∈ (run (load lines) ops).entries, q.passes e)) ↔
    RepeatsNoSession lines := by
  constructor
  · intro h
    by_contra hrepeats
    obtain ⟨cwd, hfails | ⟨e, hfails⟩⟩ := repeated_session_shows hrepeats
    · apply hfails
      apply (h [] (by simp) (whole cwd)).mpr
      simp [whole]
    · apply hfails
      apply (h [.upsert e] (by simp) (whole cwd)).mpr
      simp [whole]
  · intro h ops hloads q
    exact query_eq_scan_iff ((indexed_load h).run hloads) q

/-- The one session of a small catalog. -/
def small_session : SessionIndexEntry where
  session_id := 7
  rollout_path := Path.of_text "sessions/2025/01/01/rollout-a.jsonl".toList
  snapshot_path := none
  created_at := "2025-01-01T10:00:00.000Z".toList
  last_event_at := "2025-01-01T10:05:00.000Z".toList
  cwd_real := Path.of_text "/w".toList
  cwd_display := "/w".toList
  git_project_root := none
  git_branch := none
  model_provider := none
  session_source := .Cli
  message_count := 2
  user_message_count := 1
  last_user_snippet := none
  nickname := none
  sync_origin_device := none
  sync_version := 0
  archived := false
  deleted := false

/-- A file with the session on two lines, and a query of its directory: it is listed twice. -/
theorem repeated_session_listed_twice :
    query (run (load [some small_session, some small_session]) []) (whole small_session.cwd_real)
        = [small_session, small_session] ∧
      ¬ ∀ lines ops q, query (run (load lines) ops) q = scan (run (load lines) ops) q := by
  refine ⟨by decide, fun h => ?_⟩
  have heq := h [some small_session, some small_session] [] (whole small_session.cwd_real)
  revert heq
  decide

end Ecode.rollout_catalog
