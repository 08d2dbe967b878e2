-- Which stage-1 outputs a consolidation works on, and the files written for
-- them (core/src/memories/mod.rs and storage.rs).
import Ecode.MemoryUsage
import Ecode.SessionIds

namespace Ecode.memories

open keyed rollout_catalog

structure Stage1OutputRef where
  session_id : Uuid
  source_updated_at : DateTime
  rollout_slug : Option Text
  deriving DecidableEq

def Stage1OutputRef.from (output : Stage1Output) : Stage1OutputRef where
  session_id := output.session_id
  source_updated_at := output.source_updated_at
  rollout_slug := output.rollout_slug

structure Phase2Selection where
  selected : List Stage1Output
  retained_artifacts : List Stage1Output
  removed : List Stage1OutputRef

/-! ## The selection -/

def Stage1Output.anchor (item : Stage1Output) : DateTime :=
  item.last_usage.getD item.generated_at

/-- The outputs used lately enough; the clock is read anew for each. -/
def unexpired (now : Uuid → DateTime) (outputs : List Stage1Output) (max_unused_days : Int) :
    List Stage1Output :=
  outputs.filter fun item => now item.session_id - item.anchor ≤ days (max max_unused_days 0)

/-- Most used first, then last used, then last updated. -/
def usage_rank (item : Stage1Output) : (Nat ×ₗ DateTime ×ₗ DateTime)ᵒᵈ :=
  OrderDual.toDual (toLex (item.usage_count, toLex (item.anchor, item.source_updated_at)))

/-- Last updated first. -/
def date_rank (item : Stage1Output) : DateTimeᵒᵈ := OrderDual.toDual item.source_updated_at

/-- `dedup_by` drops an item that is the same as the one before it. -/
def dedup_artifacts (items : List Stage1Output) : List Stage1Output :=
  items.destutter fun b a =>
    ¬ (a.session_id = b.session_id ∧ a.source_updated_at = b.source_updated_at)

def build_phase2_selection (now : Uuid → DateTime) (outputs : List Stage1Output)
    (max_raw_memories : Nat) (max_unused_days : Int)
    (previous_selection : List Stage1OutputRef) : Phase2Selection :=
  let sorted := sort_by_key usage_rank (unexpired now outputs max_unused_days)
  let selected := sorted.take max_raw_memories
  let selected_refs := selected.map Stage1OutputRef.from
  let retained_artifacts := selected ++ sorted.filter fun output =>
    Stage1OutputRef.from output ∈ previous_selection ∧
      Stage1OutputRef.from output ∉ selected_refs
  { selected
    retained_artifacts := dedup_artifacts (sort_by_key date_rank retained_artifacts)
    removed := previous_selection.filter (· ∉ selected_refs) }

/-! ## The files -/

/-- What chrono prints: a date by `%Y-%m-%dT%H-%M-%S`, and a date by RFC 3339. -/
structure DateFormats where
  format : DateTime → Text
  to_rfc3339 : DateTime → Text

variable (dates : DateFormats)

def rollout_summary_file_stem_parts (session_id : Uuid) (source_updated_at : DateTime)
    (rollout_slug : Option Text) : Text :=
  let stem_prefix := dates.format source_updated_at ++ '-' :: (Uuid.simple session_id).take 4
  match rollout_slug with
  | none => stem_prefix
  | some slug =>
    let slug := Text.trim_matches '_' ((slug.take 60).map fun ch =>
      if ch.isAlphanum then ch.toLower else '_')
    if slug.isEmpty then stem_prefix else stem_prefix ++ '-' :: slug

def rollout_summary_file_stem (memory : Stage1Output) : Text :=
  rollout_summary_file_stem_parts dates memory.session_id memory.source_updated_at
    memory.rollout_slug

/-- The name of a file under `rollout_summaries`. -/
def rollout_summary_file (memory : Stage1Output) : Text :=
  rollout_summary_file_stem dates memory ++ ".md".toList

/-- The directory of the memories. `raw_memories.md` is kept as the memories its sections are
about. -/
structure MemoryFiles where
  rollout_summaries : List (Text × Text)
  raw_memories : Option (List Stage1Output)
  memory_md : Option Text

def raw_memories_section (memory : Stage1Output) : Text :=
  "## Session ".toList ++ '\x60' :: Uuid.to_string memory.session_id ++
    "\x60\nupdated_at: ".toList ++ dates.to_rfc3339 memory.source_updated_at ++
    "\ncwd: ".toList ++ Path.display memory.cwd ++
    "\nrollout_path: ".toList ++ Path.display memory.rollout_path ++
    "\nrollout_summary_file: ".toList ++ rollout_summary_file dates memory ++ "\n\n".toList ++
    Text.trim memory.raw_memory ++ "\n\n".toList

/-- The text of `raw_memories.md`. -/
def raw_memories_text (sections : List Stage1Output) : Text :=
  "# Raw Memories\n\n".toList ++
    if sections.isEmpty then "No raw memories yet.\n".toList
    else "Merged stage-1 raw memories (latest first):\n\n".toList ++
      sections.flatMap (raw_memories_section dates)

def rebuild_raw_memories_file (files : MemoryFiles) (memories : List Stage1Output)
    (max_raw_memories : Nat) : MemoryFiles :=
  { files with raw_memories := some (memories.take (min memories.length max_raw_memories)) }

/-- A file without the extension stays. -/
def prune_rollout_summaries (files : List (Text × Text)) (keep : List Text) : List (Text × Text) :=
  files.filter fun file => ( Text.strip_suffix file.1 ".md".toList).all (· ∈ keep)

/-- The name and the contents of a memory's summary file. -/
def rollout_summary (memory : Stage1Output) : Text × Text :=
  (rollout_summary_file dates memory,
    "session_id: ".toList ++ Uuid.to_string memory.session_id ++ "\nupdated_at: ".toList ++
      dates.to_rfc3339 memory.source_updated_at ++ "\nrollout_path: ".toList ++
      Path.display memory.rollout_path ++ "\ncwd: ".toList ++ Path.display memory.cwd ++
      "\n".toList ++
      (memory.git_branch.elim [] fun branch => "git_branch: ".toList ++ branch ++ "\n".toList) ++
      "\n".toList ++ Text.trim memory.rollout_summary ++ "\n".toList)

def write_rollout_summary (files : List (Text × Text)) (memory : Stage1Output) :
    List (Text × Text) :=
  keyed.insert Prod.fst files (rollout_summary dates memory)

def sync_rollout_summaries (files : MemoryFiles) (memories : List Stage1Output) : MemoryFiles :=
  let keep := memories.map (rollout_summary_file_stem dates)
  { files with
    rollout_summaries := memories.foldl (write_rollout_summary dates)
      (prune_rollout_summaries files.rollout_summaries keep)
    memory_md := if memories.isEmpty then none else files.memory_md }

/-- The first steps of `run_phase2`: the selection and the files before the consolidation. -/
def run_phase2 (now : Uuid → DateTime) (files : MemoryFiles) (outputs : List Stage1Output)
    (max_raw_memories : Nat) (max_unused_days : Int) (previous : List Stage1OutputRef) :
    Phase2Selection × MemoryFiles :=
  let selection := build_phase2_selection now outputs max_raw_memories max_unused_days previous
  let files := sync_rollout_summaries dates files selection.retained_artifacts
  (selection, rebuild_raw_memories_file files selection.retained_artifacts max_raw_memories)

/-- The line of the consolidation prompt that names a memory's summary file. -/
def selected_line (selection : Phase2Selection) (item : Stage1Output) : Text :=
  let retained := selection.removed.all fun removed => removed.session_id ≠ item.session_id
  "- [".toList ++ (if retained then "selected" else "retained").toList ++ "] session_id=".toList ++
    Uuid.to_string item.session_id ++ ", rollout_summary_file=rollout_summaries/".toList ++
    rollout_summary_file dates item

/-! ## What is to be written -/

/-- The memory has its section, and the file the prompt names for it holds its summary. -/
structure Written (selection : Phase2Selection) (files : MemoryFiles) (m : Stage1Output) :
    Prop where
  own_section : ∃ sections, files.raw_memories = some sections ∧ m ∈ sections
  named : ∃ start, selected_line dates selection m =
    start ++ "rollout_summary_file=rollout_summaries/".toList ++ rollout_summary_file dates m
  own_file : keyed.get Prod.fst files.rollout_summaries (rollout_summary_file dates m) =
    some (rollout_summary dates m)

/-- The first items of the usage order, up to a limit. -/
structure FirstUsed (items selected : List Stage1Output) (limit : Nat) : Prop where
  within : selected.length = min limit items.length
  order : ∃ rest, (selected ++ rest).Perm items ∧
    (selected ++ rest).Pairwise fun v w => usage_rank v ≤ usage_rank w

theorem section_infix {m : Stage1Output} {sections : List Stage1Output} (h : m ∈ sections) :
    raw_memories_section dates m <:+: raw_memories_text dates sections := by
  have hsome : sections.isEmpty = false := by
    cases sections with
    | nil => cases h
    | cons v vs => rfl
  obtain ⟨before, after, rfl⟩ := List.append_of_mem h
  unfold raw_memories_text
  rw [hsome]
  simp only [Bool.false_eq_true, if_false, List.flatMap_append, List.flatMap_cons]
  refine (List.IsInfix.trans ?_ (List.suffix_append _ _).isInfix).trans
    (List.suffix_append _ _).isInfix
  exact ⟨_, _, (List.append_assoc _ _ _)⟩

theorem prompt_names_file (selection : Phase2Selection) (m : Stage1Output) :
    ∃ start, selected_line dates selection m =
      start ++ "rollout_summary_file=rollout_summaries/".toList ++
        rollout_summary_file dates m := by
  refine ⟨"- [".toList ++ (if selection.removed.all fun removed => removed.session_id ≠ m.session_id
    then "selected" else "retained").toList ++ "] session_id=".toList ++
      Uuid.to_string m.session_id ++ ", ".toList, ?_⟩
  have hcomma : ", rollout_summary_file=rollout_summaries/".toList =
      ", ".toList ++ "rollout_summary_file=rollout_summaries/".toList := by decide
  unfold selected_line
  rw [hcomma]
  simp only [List.append_assoc]

/-- Summaries of different sessions differ. -/
theorem rollout_summary_inj {a b : Stage1Output}
    (h : rollout_summary dates a = rollout_summary dates b) : a.session_id = b.session_id := by
  have hbody := congrArg Prod.snd h
  unfold rollout_summary at hbody
  simp only [List.append_assoc] at hbody
  have hids := List.append_cancel_left hbody
  apply to_string_inj
  exact List.append_inj_left hids (by rw [length_to_string, length_to_string])

/-! ## Which outputs are written -/

section selection

variable (now : Uuid → DateTime) (outputs : List Stage1Output) (max_raw_memories : Nat)
  (max_unused_days : Int) (previous : List Stage1OutputRef)

def usage_order : List Stage1Output :=
  sort_by_key usage_rank (unexpired now outputs max_unused_days)

def first_used : List Stage1Output :=
  (usage_order now outputs max_unused_days).take max_raw_memories

/-- The outputs past the limit that an earlier selection had. -/
def selected_before : List Stage1Output :=
  ((usage_order now outputs max_unused_days).drop max_raw_memories).filter fun output =>
    Stage1OutputRef.from output ∈ previous

/-- No output of an earlier selection is newer than one that is selected now, and no two of these
outputs share the file of one that is selected now. -/
structure Undisturbed : Prop where
  newest : ∀ m ∈ first_used now outputs max_raw_memories max_unused_days,
    ∀ x ∈ selected_before now outputs max_raw_memories max_unused_days previous,
      x.source_updated_at ≤ m.source_updated_at
  own_file : ∀ m ∈ first_used now outputs max_raw_memories max_unused_days,
    ∀ x ∈ first_used now outputs max_raw_memories max_unused_days ++
        selected_before now outputs max_raw_memories max_unused_days previous,
      rollout_summary_file_stem dates x = rollout_summary_file_stem dates m → x = m

end selection

variable {now : Uuid → DateTime} {outputs : List Stage1Output} {max_raw_memories : Nat}
  {max_unused_days : Int} {previous : List Stage1OutputRef}

theorem selected_eq :
    (build_phase2_selection now outputs max_raw_memories max_unused_days previous).selected =
      first_used now outputs max_raw_memories max_unused_days := rfl

theorem first_used_spec :
    FirstUsed (unexpired now outputs max_unused_days)
      (first_used now outputs max_raw_memories max_unused_days) max_raw_memories where
  within := by
    unfold first_used usage_order
    rw [List.length_take, (sort_by_key_perm _).length_eq]
  order := by
    refine ⟨(usage_order now outputs max_unused_days).drop max_raw_memories, ?_⟩
    unfold first_used
    rw [List.take_append_drop]
    exact ⟨sort_by_key_perm _, sort_by_key_sorted _⟩

theorem once_usage_order (h : Once Stage1Output.session_id outputs) :
    Once Stage1Output.session_id (usage_order now outputs max_unused_days) := by
  have hfresh : Once Stage1Output.session_id (unexpired now outputs max_unused_days) :=
    List.Nodup.sublist (List.filter_sublist.map _) h
  exact ((sort_by_key_perm _).map _).nodup_iff.mpr hfresh

theorem once_artifacts (h : Once Stage1Output.session_id outputs) :
    Once Stage1Output.session_id (first_used now outputs max_raw_memories max_unused_days ++
      selected_before now outputs max_raw_memories max_unused_days previous) := by
  have horder : Once Stage1Output.session_id (usage_order now outputs max_unused_days) :=
    once_usage_order h
  unfold Once at horder ⊢
  rw [← List.take_append_drop max_raw_memories (usage_order now outputs max_unused_days)] at horder
  exact horder.sublist ((List.filter_sublist.append_left _).map _)

theorem dedup_artifacts_of_once {items : List Stage1Output}
    (h : Once Stage1Output.session_id items) : dedup_artifacts items = items := by
  unfold dedup_artifacts
  rw [List.destutter_eq_self_iff]
  apply List.Pairwise.isChain
  apply (List.pairwise_map.mp h).imp
  intro b a hne hsame
  exact hne hsame.1.symm

/-- An output past the limit is not one of the selected ones. -/
theorem selected_before_eq (h : Once Stage1Output.session_id outputs) :
    (usage_order now outputs max_unused_days).filter (fun output =>
      Stage1OutputRef.from output ∈ previous ∧ Stage1OutputRef.from output ∉
        (first_used now outputs max_raw_memories max_unused_days).map Stage1OutputRef.from) =
      selected_before now outputs max_raw_memories max_unused_days previous := by
  have horder : Once Stage1Output.session_id (usage_order now outputs max_unused_days) :=
    once_usage_order h
  unfold selected_before first_used
  have hsplit :=
    List.take_append_drop max_raw_memories (usage_order now outputs max_unused_days)
  generalize (usage_order now outputs max_unused_days).take max_raw_memories = chosen at *
  generalize (usage_order now outputs max_unused_days).drop max_raw_memories = others at *
  rw [← hsplit] at horder ⊢
  have hfirst : chosen.filter (fun output => Stage1OutputRef.from output ∈ previous ∧
      Stage1OutputRef.from output ∉ chosen.map Stage1OutputRef.from) = [] := by
    apply List.filter_eq_nil_iff.mpr
    intro output houtput
    simp [List.mem_map_of_mem houtput]
  rw [List.filter_append, hfirst, List.nil_append]
  apply List.filter_congr
  intro output houtput
  have hnew : Stage1OutputRef.from output ∉ chosen.map Stage1OutputRef.from := by
    intro hin
    obtain ⟨twin, htwin, heq⟩ := List.mem_map.mp hin
    have hid : twin.session_id = output.session_id := congrArg Stage1OutputRef.session_id heq
    rw [Once, List.map_append] at horder
    exact List.disjoint_of_nodup_append horder (hid ▸ List.mem_map_of_mem htwin)
      (List.mem_map_of_mem houtput)
  simp [hnew]

/-- The artifacts are the outputs selected now or before, by date. -/
theorem retained_artifacts_eq (h : Once Stage1Output.session_id outputs) :
    (build_phase2_selection now outputs max_raw_memories max_unused_days
        previous).retained_artifacts =
      sort_by_key date_rank (first_used now outputs max_raw_memories max_unused_days ++
        selected_before now outputs max_raw_memories max_unused_days previous) := by
  have honce : Once Stage1Output.session_id (sort_by_key date_rank
      (first_used now outputs max_raw_memories max_unused_days ++
        selected_before now outputs max_raw_memories max_unused_days previous)) :=
    ((sort_by_key_perm _).map _).nodup_iff.mpr (once_artifacts h)
  rw [← dedup_artifacts_of_once honce, ← selected_before_eq h]
  rfl

theorem first_used_full
    (h : selected_before now outputs max_raw_memories max_unused_days previous ≠ []) :
    (first_used now outputs max_raw_memories max_unused_days).length = max_raw_memories := by
  have hdrop : (usage_order now outputs max_unused_days).drop max_raw_memories ≠ [] := by
    intro hnil
    apply h
    unfold selected_before
    rw [hnil, List.filter_nil]
  have hlt := List.length_pos_iff.mpr hdrop
  rw [List.length_drop] at hlt
  unfold first_used
  rw [List.length_take]
  omega

/-- Every selected output has a section exactly if none that was selected before is newer. -/
theorem sections_iff (h : Once Stage1Output.session_id outputs) :
    first_used now outputs max_raw_memories max_unused_days ⊆
      (build_phase2_selection now outputs max_raw_memories max_unused_days
        previous).retained_artifacts.take max_raw_memories ↔
    ∀ m ∈ first_used now outputs max_raw_memories max_unused_days,
      ∀ x ∈ selected_before now outputs max_raw_memories max_unused_days previous,
        x.source_updated_at ≤ m.source_updated_at := by
  have hle : (first_used now outputs max_raw_memories max_unused_days).length ≤ max_raw_memories :=
    List.length_take_le _ _
  rw [retained_artifacts_eq h]
  exact subset_take_of_full (List.Nodup.of_map _ (once_artifacts h)) hle first_used_full

theorem rollout_summary_file_inj {a b : Stage1Output} :
    rollout_summary_file dates a = rollout_summary_file dates b ↔
      rollout_summary_file_stem dates a = rollout_summary_file_stem dates b :=
  List.append_left_inj _

/-- A summary file holds what was written to it last. -/
theorem last_written {memories : List Stage1Output} {x : Stage1Output} (hx : x ∈ memories)
    (files : List (Text × Text)) :
    ∃ y ∈ memories, rollout_summary_file_stem dates y = rollout_summary_file_stem dates x ∧
      keyed.get Prod.fst (memories.foldl (write_rollout_summary dates) files)
        (rollout_summary_file dates x) = some (rollout_summary dates y) := by
  have hfold : memories.foldl (write_rollout_summary dates) files =
      (memories.map (rollout_summary dates)).foldl (keyed.insert Prod.fst) files := by
    rw [List.foldl_map]
    rfl
  have hwritten : rollout_summary dates x ∈ memories.map (rollout_summary dates) :=
    List.mem_map_of_mem hx
  obtain ⟨v, hv, hname, hget⟩ : ∃ v ∈ memories.map (rollout_summary dates),
      v.1 = (rollout_summary dates x).1 ∧
        keyed.get Prod.fst ((memories.map (rollout_summary dates)).foldl
          (keyed.insert Prod.fst) files) (rollout_summary dates x).1 = some v :=
    stored_last hwritten files
  obtain ⟨y, hy, rfl⟩ := List.mem_map.mp hv
  refine ⟨y, hy, (rollout_summary_file_inj dates).mp hname, ?_⟩
  rw [hfold]
  exact hget

/-- When summaries are written by date and the extras are the oldest, the chosen ones keep their
files exactly if no other output takes one. -/
theorem own_files_iff {chosen extras : List Stage1Output}
    (h : Once Stage1Output.session_id (chosen ++ extras))
    (hnewest : ∀ m ∈ chosen, ∀ x ∈ extras, date_rank m ≤ date_rank x)
    (files : List (Text × Text)) :
    (∀ m ∈ chosen, keyed.get Prod.fst ((sort_by_key date_rank (chosen ++ extras)).foldl
      (write_rollout_summary dates) files) (rollout_summary_file dates m) =
        some (rollout_summary dates m)) ↔
    ∀ m ∈ chosen, ∀ x ∈ chosen ++ extras,
      rollout_summary_file_stem dates x = rollout_summary_file_stem dates m → x = m := by
  constructor
  · intro hown m hm x hx hstem
    have hfile := (rollout_summary_file_inj dates).mpr hstem
    have hsame : ∀ y ∈ chosen ++ extras, rollout_summary dates y = rollout_summary dates m →
        y = m := by
      intro y hy heq
      exact h.eq_of_mem hy (List.mem_append_left extras hm) (rollout_summary_inj dates heq)
    have hkept := hown m hm
    rcases List.mem_append.mp hx with hchosen | hextra
    · have hother := hown x hchosen
      rw [hfile, hkept] at hother
      exact hsame x hx (Option.some.inj hother).symm
    · -- The extras are written last, so the file of `x` is one of theirs.
      rw [sort_by_key_append hnewest, List.foldl_append] at hkept
      have hwritten : x ∈ sort_by_key date_rank extras := mem_sort_by_key.mpr hextra
      obtain ⟨y, hy, -, hget⟩ := last_written dates hwritten
        ((sort_by_key date_rank chosen).foldl (write_rollout_summary dates) files)
      have hextra' := mem_sort_by_key.mp hy
      rw [hfile, hkept] at hget
      have hym := hsame y (List.mem_append_right chosen hextra') (Option.some.inj hget).symm
      subst hym
      exact absurd hextra' (List.disjoint_of_nodup_append (List.Nodup.of_map _ h) hm)
  · intro hown m hm
    have hwritten : m ∈ sort_by_key date_rank (chosen ++ extras) :=
      mem_sort_by_key.mpr (List.mem_append_left extras hm)
    obtain ⟨y, hy, hstem, hget⟩ := last_written dates hwritten files
    rw [hget, hown m hm y (mem_sort_by_key.mp hy) hstem]

theorem written_iff (files : MemoryFiles) (m : Stage1Output) :
    Written dates (run_phase2 dates now files outputs max_raw_memories max_unused_days previous).1
      (run_phase2 dates now files outputs max_raw_memories max_unused_days previous).2 m ↔
    m ∈ (build_phase2_selection now outputs max_raw_memories max_unused_days
        previous).retained_artifacts.take max_raw_memories ∧
      keyed.get Prod.fst ((build_phase2_selection now outputs max_raw_memories max_unused_days
        previous).retained_artifacts.foldl (write_rollout_summary dates)
          (prune_rollout_summaries files.rollout_summaries
            ((build_phase2_selection now outputs max_raw_memories max_unused_days
              previous).retained_artifacts.map (rollout_summary_file_stem dates))))
        (rollout_summary_file dates m) = some (rollout_summary dates m) := by
  have hcut : ∀ items : List Stage1Output,
      items.take (min items.length max_raw_memories) = items.take max_raw_memories := by
    intro items
    rw [List.take_eq_take_min, Nat.min_comm items.length, Nat.min_assoc, Nat.min_self,
      ← List.take_eq_take_min]
  rw [← hcut]
  constructor
  · rintro ⟨⟨sections, hraw, hm⟩, -, hfile⟩
    rw [← Option.some.inj hraw] at hm
    exact ⟨hm, hfile⟩
  · rintro ⟨hm, hfile⟩
    exact ⟨⟨_, rfl, hm⟩, prompt_names_file dates _ m, hfile⟩

/-! ## The result -/

/-- After the first steps of `run_phase2` the outputs used most are selected, and each of them is
written out exactly if none that was selected before is newer and no other one has its file. -/
theorem selected_written_iff (honce : Once Stage1Output.session_id outputs) (files : MemoryFiles) :
    (FirstUsed (unexpired now outputs max_unused_days)
        (run_phase2 dates now files outputs max_raw_memories max_unused_days previous).1.selected
        max_raw_memories ∧
      ∀ m ∈ (run_phase2 dates now files outputs max_raw_memories max_unused_days
          previous).1.selected,
        Written dates
          (run_phase2 dates now files outputs max_raw_memories max_unused_days previous).1
          (run_phase2 dates now files outputs max_raw_memories max_unused_days previous).2 m) ↔
    Undisturbed dates now outputs max_raw_memories max_unused_days previous := by
  constructor
  · rintro ⟨-, hwritten⟩
    have hnewest := (sections_iff honce).mp fun m hm =>
      ((written_iff dates files m).mp (hwritten m hm)).1
    refine ⟨hnewest, ?_⟩
    apply (own_files_iff dates (once_artifacts honce) hnewest _).mp
    intro m hm
    rw [← retained_artifacts_eq honce]
    exact ((written_iff dates files m).mp (hwritten m hm)).2
  · rintro ⟨hnewest, hown⟩
    refine ⟨first_used_spec, fun m hm => (written_iff dates files m).mpr ⟨?_, ?_⟩⟩
    · exact (sections_iff honce).mpr hnewest hm
    · rw [retained_artifacts_eq honce]
      exact (own_files_iff dates (once_artifacts honce) hnewest _).mpr hown m hm

/-! ### A memory cut by one that was selected before -/

def some_dates : DateFormats where
  format t := List.replicate t.natAbs 'T'
  to_rfc3339 t := List.replicate t.natAbs 'Z'

def some_memory (session_id : Uuid) (source_updated_at : DateTime) (usage_count : Nat) :
    Stage1Output where
  session_id := session_id
  rollout_path := Path.of_text "/h/rollout-a.jsonl".toList
  cwd := Path.of_text "/w".toList
  git_branch := none
  source_updated_at := source_updated_at
  generated_at := 4
  raw_memory := "raw".toList
  rollout_summary := "summary".toList
  rollout_slug := none
  usage_count := usage_count
  last_usage := none

def no_files : MemoryFiles where
  rollout_summaries := []
  raw_memories := none
  memory_md := none

/-- With room for one memory, the newer of two was selected before, and is used most now. -/
theorem newer_memory_written :
    FirstUsed (unexpired (fun _ => 5) [some_memory 7 1 0, some_memory 8 3 2] 30)
        (run_phase2 some_dates (fun _ => 5) no_files [some_memory 7 1 0, some_memory 8 3 2] 1 30
          [Stage1OutputRef.from (some_memory 7 1 0)]).1.selected 1 ∧
      ∀ m ∈ (run_phase2 some_dates (fun _ => 5) no_files [some_memory 7 1 0, some_memory 8 3 2] 1
          30 [Stage1OutputRef.from (some_memory 7 1 0)]).1.selected,
        Written some_dates
          (run_phase2 some_dates (fun _ => 5) no_files [some_memory 7 1 0, some_memory 8 3 2] 1 30
            [Stage1OutputRef.from (some_memory 7 1 0)]).1
          (run_phase2 some_dates (fun _ => 5) no_files [some_memory 7 1 0, some_memory 8 3 2] 1 30
            [Stage1OutputRef.from (some_memory 7 1 0)]).2 m := by
  have honce : Once Stage1Output.session_id [some_memory 7 1 0, some_memory 8 3 2] := by
    simp [Once, some_memory]
  refine (selected_written_iff some_dates honce no_files).mpr ⟨?_, ?_⟩
  · decide
  · decide

/-- The older memory is used most now, and the one selected before takes its section. -/
theorem older_memory_cut :
    ¬ ∀ (dates : DateFormats) (now : Uuid → DateTime) (files : MemoryFiles)
      (outputs : List Stage1Output) (max_raw_memories : Nat) (max_unused_days : Int)
      (previous : List Stage1OutputRef), Once Stage1Output.session_id outputs →
      ∀ m ∈ (run_phase2 dates now files outputs max_raw_memories max_unused_days
          previous).1.selected,
        Written dates
          (run_phase2 dates now files outputs max_raw_memories max_unused_days previous).1
          (run_phase2 dates now files outputs max_raw_memories max_unused_days previous).2 m := by
  intro h
  have hwritten := h some_dates (fun _ => 5) no_files [some_memory 7 1 2, some_memory 8 3 0] 1 30
    [Stage1OutputRef.from (some_memory 8 3 0)] (by simp [Once, some_memory]) (some_memory 7 1 2) (by decide)
  obtain ⟨sections, hraw, hm⟩ := hwritten.own_section
  have hsections : sections = [some_memory 8 3 0] := by
    rw [← Option.some.inj hraw]
    decide
  rw [hsections] at hm
  revert hm
  decide

end Ecode.memories
