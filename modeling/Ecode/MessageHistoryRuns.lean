-- What holds of the message history in any order of the steps of its appends, its lookups and its
-- counts (core/src/message_history.rs).
import Ecode.MessageHistory

namespace Ecode.message_history

open runs

def HistoryAction.is_death {W : Type} : HistoryAction W → Bool
  | .append_die _ => true
  | _ => false

namespace History

variable {W : Type} {from_str : Text → Option HistoryEntry} {s t : History W}

/-- While no append dies, the file is made of whole entries, up to the one that is being
written. -/
structure Stored (s : History W) : Prop where
  held : ∀ w, s.writer = some w ↔ ∃ entry rest, s.appends w = some (.writing entry rest)
  excluded : s.writer ≠ none → s.reading = []
  whole : s.writer = none → s.contents = file s.appended
  part : ∀ w entry rest, s.appends w = some (.writing entry rest) →
    rest = [] ∧ s.contents = file s.appended ∧ (w, entry) ∈ s.appended ∨
    rest ≠ [] ∧ ∃ written, written ++ rest = to_json entry ++ ['\n'] ∧
      s.contents = file s.appended ++ written
  once : (s.appended.map Prod.fst).Nodup
  by_call : ∀ w entry, (w, entry) ∈ s.appended →
    s.appends w = some (.writing entry []) ∨ s.appends w = some (.returned entry)
  returned : ∀ w entry, s.appends w = some (.returned entry) → (w, entry) ∈ s.appended
  scans : ∀ scan ∈ s.scanning, scan.position ≤ s.contents.length ∧
    scan.count = (s.contents.take scan.position).count '\n' ∧ scan.since ≤ s.appended.length
  counted : ∀ c ∈ s.counts, c.1 ≤ c.2 ∧ c.2 ≤ s.appended.length

theorem stored_new (ino : Nat) : Stored (new ino : History W) where
  held := by simp [new]
  excluded _ := rfl
  whole _ := rfl
  part := by simp [new]
  once := List.nodup_nil
  by_call := by simp [new]
  returned := by simp [new]
  scans := by simp [new]
  counted := by simp [new]

/-- The file grows at its end. -/
theorem scans_append {scan : Scan} {contents more : Text} {n m : Nat} (hnm : n ≤ m)
    (h : scan.position ≤ contents.length ∧
      scan.count = (contents.take scan.position).count '\n' ∧ scan.since ≤ n) :
    scan.position ≤ (contents ++ more).length ∧
      scan.count = ((contents ++ more).take scan.position).count '\n' ∧ scan.since ≤ m := by
  obtain ⟨hposition, hcount, hsince⟩ := h
  refine ⟨?_, ?_, hsince.trans hnm⟩
  · rw [List.length_append]
    omega
  · rw [List.take_append_of_le_length hposition]
    exact hcount

/-- The line feeds of the file are those of its whole entries. -/
theorem Stored.count_contents (h : Stored s) : s.contents.count '\n' = s.appended.length := by
  cases hwriter : s.writer with
  | none => rw [h.whole hwriter, count_file]
  | some w =>
    obtain ⟨entry, rest, hw⟩ := (h.held w).mp hwriter
    rcases h.part w entry rest hw with ⟨-, hcontents, -⟩ | ⟨hrest, written, hline, hcontents⟩
    · rw [hcontents, count_file]
    · have hnone : '\n' ∉ written := by
        obtain ⟨front, last, rfl⟩ : ∃ front last, rest = front ++ [last] :=
          ⟨rest.dropLast, rest.getLast hrest, (List.dropLast_append_getLast hrest).symm⟩
        rw [← List.append_assoc] at hline
        have hfront : written ++ front = to_json entry := (List.append_inj' hline rfl).1
        intro hmem
        refine line_feed_not_mem entry ?_
        rw [← hfront]
        exact List.mem_append_left _ hmem
      rw [hcontents, List.count_append, count_file, List.count_eq_zero_of_not_mem hnone, Nat.add_zero]

/-- Only one call writes. -/
theorem Stored.one_writer (h : Stored s) {w w' : W} {entry entry' : HistoryEntry}
    {rest rest' : Text} (hw : s.appends w = some (.writing entry rest))
    (hw' : s.appends w' = some (.writing entry' rest')) : w' = w := by
  have hheld := (h.held w).mpr ⟨_, _, hw⟩
  have hheld' := (h.held w').mpr ⟨_, _, hw'⟩
  exact Option.some.inj (hheld'.symm.trans hheld)

/-- An entry that is not written to its end is not among the whole ones. -/
theorem Stored.not_appended (h : Stored s) {w : W} {entry entry' : HistoryEntry} {rest : Text}
    (hw : s.appends w = some (.writing entry rest)) (hrest : rest ≠ []) :
    (w, entry') ∉ s.appended := by
  intro hmem
  have hcall := h.by_call w entry' hmem
  rw [hw] at hcall
  simp [hrest] at hcall

/-- Lookups and counts leave the file alone. -/
theorem Stored.read (h : Stored s) {reading : List Nat} {scanning : List Scan}
    {answers : List (Nat × Option HistoryEntry)} {counts : List (Nat × Nat)}
    (hreading : s.writer ≠ none → reading = [])
    (hscanning : ∀ scan ∈ scanning, scan.position ≤ s.contents.length ∧
      scan.count = (s.contents.take scan.position).count '\n' ∧ scan.since ≤ s.appended.length)
    (hcounts : ∀ c ∈ counts, c.1 ≤ c.2 ∧ c.2 ≤ s.appended.length) :
    Stored { s with
      reading := reading, scanning := scanning, answers := answers, counts := counts } where
  held := h.held
  excluded := hreading
  whole := h.whole
  part := h.part
  once := h.once
  by_call := h.by_call
  returned := h.returned
  scans := hscanning
  counted := hcounts

/-! ## Between two states -/

/-- How far the history has come from one state to another: the file and the list of entries grew,
and a lookup answered with the entry at its offset, if there was one. -/
structure Since (s t : History W) : Prop where
  contents : s.contents <+: t.contents
  appended : s.appended <+: t.appended
  answers : ∃ new, t.answers = s.answers ++ new ∧ ∀ a ∈ new,
    (∃ entry, a.2 = some entry ∧ t.appended[a.1]?.map Prod.snd = some entry) ∨
      a.2 = none ∧ s.appended.length ≤ a.1

theorem Since.same (hcontents : t.contents = s.contents) (happended : t.appended = s.appended)
    (hanswers : t.answers = s.answers) : Since s t :=
  ⟨hcontents ▸ List.prefix_refl _, happended ▸ List.prefix_refl _, [], by simp [hanswers], by simp⟩

theorem Since.trans {u : History W} (h : Since s t) (h' : Since t u) : Since s u := by
  obtain ⟨new, hnew, hanswers⟩ := h.answers
  obtain ⟨new', hnew', hanswers'⟩ := h'.answers
  refine ⟨h.contents.trans h'.contents, h.appended.trans h'.appended, new ++ new', ?_, ?_⟩
  · rw [hnew', hnew, List.append_assoc]
  · intro a ha
    rcases List.mem_append.mp ha with hold | hlast
    · refine (hanswers a hold).imp_left fun ⟨entry, hentry, hat⟩ => ⟨entry, hentry, ?_⟩
      obtain ⟨x, hx, hxe⟩ := Option.map_eq_some_iff.mp hat
      obtain ⟨more, hmore⟩ := h'.appended
      rw [← hmore, List.getElem?_append_left (List.getElem?_eq_some_iff.mp hx).1, hx]
      exact congrArg some hxe
    · exact (hanswers' a hlast).imp_right fun ⟨hnone, hle⟩ => ⟨hnone, h.appended.length_le.trans hle⟩

/-- Under the shared lock a lookup finds the entry at its offset. -/
theorem Stored.lookup (h : Stored s) (hfrom : ∀ entry, from_str (to_json entry) = some entry)
    {offset : Nat} (hlocked : offset ∈ s.reading) :
    (Text.lines s.contents)[offset]?.bind from_str = s.appended[offset]?.map Prod.snd := by
  have hfree : s.writer = none := by
    by_contra hheld
    rw [h.excluded hheld] at hlocked
    cases hlocked
  rw [h.whole hfree, lines_file, List.getElem?_map]
  cases s.appended[offset]? with
  | none => rfl
  | some a => exact hfrom a.2

/-! ## Steps -/

variable [DecidableEq W]

/-- Calls that hold no lock change their state. -/
theorem Stored.appends (h : Stored s) {w : W} {a : Append}
    (hw : ∀ entry rest, s.appends w ≠ some (.writing entry rest))
    (hw' : ∀ entry, s.appends w ≠ some (.returned entry))
    (ha : ∀ entry rest, a ≠ .writing entry rest) (ha' : ∀ entry, a ≠ .returned entry) :
    Stored { s with appends := Function.update s.appends w (some a) } := by
  have hwriting : ∀ w' entry rest,
      Function.update s.appends w (some a) w' = some (.writing entry rest) ↔
        s.appends w' = some (.writing entry rest) := by
    intro w' entry rest
    by_cases hww : w' = w
    · subst hww
      rw [Function.update_self]
      exact iff_of_false (fun heq => ha entry rest (Option.some.inj heq)) (hw entry rest)
    · rw [Function.update_of_ne hww]
  have hreturned : ∀ w' entry,
      Function.update s.appends w (some a) w' = some (.returned entry) ↔
        s.appends w' = some (.returned entry) := by
    intro w' entry
    by_cases hww : w' = w
    · subst hww
      rw [Function.update_self]
      exact iff_of_false (fun heq => ha' entry (Option.some.inj heq)) (hw' entry)
    · rw [Function.update_of_ne hww]
  exact {
    held := fun w' => by simp only [hwriting]; exact h.held w'
    excluded := h.excluded
    whole := h.whole
    part := fun w' entry rest hw' => h.part w' entry rest ((hwriting ..).mp hw')
    once := h.once
    by_call := fun w' entry hmem => (h.by_call w' entry hmem).imp (hwriting ..).mpr (hreturned ..).mpr
    returned := fun w' entry hw' => h.returned w' entry ((hreturned ..).mp hw')
    scans := h.scans
    counted := h.counted }

theorem Stored.append_lock (h : Stored s) {w : W} {entry : HistoryEntry}
    (hw : s.appends w = some (.waiting entry)) (hwriter : s.writer = none)
    (hreading : s.reading = []) :
    Stored { s with
      writer := some w
      appends := Function.update s.appends w
        (some (.writing entry (to_json entry ++ ['\n']))) } where
  held w' := by
    dsimp only
    by_cases hww : w' = w
    · subst hww
      rw [Function.update_self]
      simp
    · rw [Function.update_of_ne hww, ← h.held w', hwriter]
      simp [Ne.symm hww]
  excluded _ := hreading
  whole hnone := by cases hnone
  part w' entry' rest hw' := by
    right
    dsimp only at hw' ⊢
    by_cases hww : w' = w
    · subst hww
      rw [Function.update_self] at hw'
      cases hw'
      exact ⟨by simp, [], rfl, by rw [h.whole hwriter, List.append_nil]⟩
    · rw [Function.update_of_ne hww] at hw'
      have hheld := (h.held w').mpr ⟨_, _, hw'⟩
      rw [hwriter] at hheld
      cases hheld
  once := h.once
  by_call w' entry' hmem := by
    have hcall := h.by_call w' entry' hmem
    have hww : w' ≠ w := by
      rintro rfl
      rw [hw] at hcall
      simp at hcall
    dsimp only
    rwa [Function.update_of_ne hww]
  returned w' entry' hw' := by
    dsimp only at hw'
    by_cases hww : w' = w
    · subst hww
      rw [Function.update_self] at hw'
      cases hw'
    · rw [Function.update_of_ne hww] at hw'
      exact h.returned w' entry' hw'
  scans := h.scans
  counted := h.counted

theorem Stored.append_write (h : Stored s) {w : W} {entry : HistoryEntry} {rest : Text}
    (hw : s.appends w = some (.writing entry rest)) {n : Nat} (hn : 0 < n) (hle : n ≤ rest.length) :
    Stored { s with
      contents := s.contents ++ rest.take n
      appends := Function.update s.appends w (some (.writing entry (rest.drop n)))
      appended := if rest.length = n then s.appended ++ [(w, entry)] else s.appended } := by
  have hrest : rest ≠ [] := List.ne_nil_of_length_pos (hn.trans_le hle)
  have hwriter := (h.held w).mpr ⟨_, _, hw⟩
  have hnew : ∀ entry', (w, entry') ∉ s.appended := fun entry' => h.not_appended hw hrest
  obtain ⟨written, hline, hcontents⟩ :
      ∃ written, written ++ rest = to_json entry ++ ['\n'] ∧
        s.contents = file s.appended ++ written := by
    rcases h.part w entry rest hw with ⟨hnil, -⟩ | ⟨-, hpart⟩
    · exact absurd hnil hrest
    · exact hpart
  have hlength : s.appended.length ≤
      (if rest.length = n then s.appended ++ [(w, entry)] else s.appended).length := by
    split_ifs <;> simp
  have hother : ∀ w' a, s.appends w' = some a → w' ≠ w →
      Function.update s.appends w (some (.writing entry (rest.drop n))) w' = some a := by
    intro w' a ha hww
    rw [Function.update_of_ne hww]
    exact ha
  exact {
    held := fun w' => by
      dsimp only
      by_cases hww : w' = w
      · subst hww
        rw [Function.update_self]
        simp [hwriter]
      · rw [Function.update_of_ne hww]
        exact h.held w'
    excluded := h.excluded
    whole := fun hnone => by
      dsimp only at hnone
      rw [hwriter] at hnone
      cases hnone
    part := fun w' entry' rest' hw' => by
      have hww : w' = w := by
        by_contra hww
        dsimp only at hw'
        rw [Function.update_of_ne hww] at hw'
        exact hww (h.one_writer hw hw')
      subst hww
      dsimp only at hw' ⊢
      rw [Function.update_self] at hw'
      cases hw'
      by_cases hend : rest.length = n
      · left
        rw [if_pos hend, ← hend, List.take_length, List.drop_length, file_snoc, hcontents,
          List.append_assoc, hline]
        exact ⟨rfl, rfl, List.mem_append_right _ (List.mem_singleton_self _)⟩
      · right
        rw [if_neg hend]
        refine ⟨?_, written ++ rest.take n, ?_, ?_⟩
        · intro hnil
          have hlen := congrArg List.length hnil
          rw [List.length_drop, List.length_nil] at hlen
          omega
        · rw [List.append_assoc, List.take_append_drop, hline]
        · rw [hcontents, List.append_assoc]
    once := by
      dsimp only
      split_ifs
      · rw [List.map_append]
        refine List.nodup_append.mpr ⟨h.once, by simp, ?_⟩
        rintro w' hw' _ hlast rfl
        obtain ⟨a, ha, rfl⟩ := List.mem_map.mp hw'
        obtain rfl : a.1 = w := by simpa using hlast
        exact hnew a.2 ha
      · exact h.once
    by_call := fun w' entry' hmem => by
      dsimp only at hmem ⊢
      have hcases : (w', entry') ∈ s.appended ∨ rest.length = n ∧ w' = w ∧ entry' = entry := by
        split_ifs at hmem with hend
        · simpa [hend] using hmem
        · exact .inl hmem
      rcases hcases with hold | ⟨hend, rfl, rfl⟩
      · have hww : w' ≠ w := by
          rintro rfl
          exact hnew _ hold
        exact (h.by_call w' entry' hold).imp (hother _ _ · hww) (hother _ _ · hww)
      · left
        rw [Function.update_self, ← hend, List.drop_length]
    returned := fun w' entry' hw' => by
      dsimp only at hw' ⊢
      by_cases hww : w' = w
      · subst hww
        rw [Function.update_self] at hw'
        cases hw'
      · rw [Function.update_of_ne hww] at hw'
        have hold := h.returned w' entry' hw'
        split_ifs
        · exact List.mem_append_left _ hold
        · exact hold
    scans := fun scan hscan => scans_append hlength (h.scans scan hscan)
    counted := fun c hc => ⟨(h.counted c hc).1, (h.counted c hc).2.trans hlength⟩ }

theorem Stored.append_unlock (h : Stored s) {w : W} {entry : HistoryEntry}
    (hw : s.appends w = some (.writing entry [])) :
    Stored { s with
      writer := none
      appends := Function.update s.appends w (some (.returned entry)) } := by
  have hwriter := (h.held w).mpr ⟨_, _, hw⟩
  obtain ⟨hcontents, hmem⟩ : s.contents = file s.appended ∧ (w, entry) ∈ s.appended := by
    rcases h.part w entry [] hw with ⟨-, hwhole⟩ | ⟨hne, -⟩
    · exact hwhole
    · exact absurd rfl hne
  have hnone : ∀ w' entry' rest,
      Function.update s.appends w (some (.returned entry)) w' ≠ some (.writing entry' rest) := by
    intro w' entry' rest hw'
    by_cases hww : w' = w
    · subst hww
      rw [Function.update_self] at hw'
      cases hw'
    · rw [Function.update_of_ne hww] at hw'
      exact hww (h.one_writer hw hw')
  exact {
    held := fun w' => iff_of_false (by simp) fun ⟨entry', rest, hw'⟩ => hnone w' entry' rest hw'
    excluded := fun hne => absurd rfl hne
    whole := fun _ => hcontents
    part := fun w' entry' rest hw' => absurd hw' (hnone w' entry' rest)
    once := h.once
    by_call := fun w' entry' hmem' => by
      right
      dsimp only
      have hcall := h.by_call w' entry' hmem'
      by_cases hww : w' = w
      · subst hww
        rw [hw] at hcall
        rw [Function.update_self]
        simpa using hcall
      · rw [Function.update_of_ne hww]
        refine hcall.resolve_left fun hw' => hww (h.one_writer hw hw')
    returned := fun w' entry' hw' => by
      dsimp only at hw'
      by_cases hww : w' = w
      · subst hww
        rw [Function.update_self] at hw'
        cases hw'
        exact hmem
      · rw [Function.update_of_ne hww] at hw'
        exact h.returned w' entry' hw'
    scans := h.scans
    counted := h.counted }

theorem Stored.step (h : Stored s) {a : HistoryAction W} (ha : a.is_death = false)
    (hstep : s.step from_str a = some t) : Stored t := by
  cases a with
  | append_open w entry =>
    simp only [History.step] at hstep
    split at hstep
    · next hw =>
      obtain rfl := Option.some.inj hstep
      exact h.appends (by simp [hw]) (by simp [hw]) (by simp) (by simp)
    · cases hstep
  | append_lock w =>
    simp only [History.step] at hstep
    split at hstep
    · next hw =>
      obtain ⟨⟨hwriter, hreading⟩, hstep⟩ := Option.ite_none_right_eq_some.mp hstep
      obtain rfl := Option.some.inj hstep
      exact h.append_lock hw hwriter hreading
    · cases hstep
  | append_write w n =>
    simp only [History.step] at hstep
    split at hstep
    · next hw =>
      obtain ⟨⟨hn, hle⟩, hstep⟩ := Option.ite_none_right_eq_some.mp hstep
      obtain rfl := Option.some.inj hstep
      exact h.append_write hw hn hle
    · cases hstep
  | append_unlock w =>
    simp only [History.step] at hstep
    split at hstep
    · next hw =>
      obtain rfl := Option.some.inj hstep
      exact h.append_unlock hw
    · cases hstep
  | append_give_up w =>
    simp only [History.step] at hstep
    split at hstep
    · next hw =>
      obtain rfl := Option.some.inj hstep
      exact h.appends (by simp [hw]) (by simp [hw]) (by simp) (by simp)
    · cases hstep
  | append_die w => cases ha
  | lookup_lock log_id offset =>
    obtain ⟨⟨-, hwriter⟩, hstep⟩ := Option.ite_none_right_eq_some.mp hstep
    obtain rfl := Option.some.inj hstep
    exact h.read (fun hne => absurd hwriter hne) h.scans h.counted
  | lookup_answer offset =>
    obtain ⟨-, hstep⟩ := Option.ite_none_right_eq_some.mp hstep
    obtain rfl := Option.some.inj hstep
    exact h.read (fun hne => by rw [h.excluded hne]; rfl) h.scans h.counted
  | metadata_open =>
    obtain rfl := Option.some.inj hstep
    refine h.read h.excluded (fun scan hscan => ?_) h.counted
    rcases List.mem_cons.mp hscan with rfl | hold
    · exact ⟨Nat.zero_le _, rfl, le_refl _⟩
    · exact h.scans scan hold
  | metadata_read scan n =>
    obtain ⟨⟨hmem, hle⟩, hstep⟩ := Option.ite_none_right_eq_some.mp hstep
    obtain rfl := Option.some.inj hstep
    refine h.read h.excluded (fun scan' hscan' => ?_) h.counted
    rcases List.mem_cons.mp hscan' with rfl | hold
    · obtain ⟨-, hcount, hsince⟩ := h.scans scan hmem
      refine ⟨hle, ?_, hsince⟩
      dsimp only
      rw [List.take_add, List.count_append, hcount]
    · exact h.scans scan' (List.mem_of_mem_erase hold)
  | metadata_return scan =>
    obtain ⟨⟨hmem, hend⟩, hstep⟩ := Option.ite_none_right_eq_some.mp hstep
    obtain rfl := Option.some.inj hstep
    refine h.read h.excluded (fun scan' hscan' => h.scans scan' (List.mem_of_mem_erase hscan'))
      fun c hc => ?_
    rcases List.mem_append.mp hc with hold | hnew
    · exact h.counted c hold
    · obtain rfl := List.mem_singleton.mp hnew
      obtain ⟨-, hcount, hsince⟩ := h.scans scan hmem
      rw [hend, List.take_length, h.count_contents] at hcount
      exact ⟨hsince.trans hcount.ge, hcount.le⟩

theorem Stored.since_step (h : Stored s) (hfrom : ∀ entry, from_str (to_json entry) = some entry)
    {a : HistoryAction W} (hstep : s.step from_str a = some t) : Since s t := by
  cases a with
  | append_open w entry =>
    simp only [History.step] at hstep
    split at hstep
    · obtain rfl := Option.some.inj hstep
      exact Since.same rfl rfl rfl
    · cases hstep
  | append_lock w =>
    simp only [History.step] at hstep
    split at hstep
    · obtain ⟨-, hstep⟩ := Option.ite_none_right_eq_some.mp hstep
      obtain rfl := Option.some.inj hstep
      exact Since.same rfl rfl rfl
    · cases hstep
  | append_write w n =>
    simp only [History.step] at hstep
    split at hstep
    · obtain ⟨-, hstep⟩ := Option.ite_none_right_eq_some.mp hstep
      obtain rfl := Option.some.inj hstep
      refine ⟨List.prefix_append _ _, ?_, [], by simp, by simp⟩
      dsimp only
      split_ifs
      · exact List.prefix_append _ _
      · exact List.prefix_refl _
    · cases hstep
  | append_unlock w =>
    simp only [History.step] at hstep
    split at hstep
    · obtain rfl := Option.some.inj hstep
      exact Since.same rfl rfl rfl
    · cases hstep
  | append_give_up w =>
    simp only [History.step] at hstep
    split at hstep
    · obtain rfl := Option.some.inj hstep
      exact Since.same rfl rfl rfl
    · cases hstep
  | append_die w =>
    obtain ⟨-, hstep⟩ := Option.ite_none_right_eq_some.mp hstep
    obtain rfl := Option.some.inj hstep
    exact Since.same rfl rfl rfl
  | lookup_lock log_id offset =>
    obtain ⟨-, hstep⟩ := Option.ite_none_right_eq_some.mp hstep
    obtain rfl := Option.some.inj hstep
    exact Since.same rfl rfl rfl
  | lookup_answer offset =>
    obtain ⟨hlocked, hstep⟩ := Option.ite_none_right_eq_some.mp hstep
    obtain rfl := Option.some.inj hstep
    refine ⟨List.prefix_refl _, List.prefix_refl _, _, rfl, fun a ha => ?_⟩
    obtain rfl := List.mem_singleton.mp ha
    dsimp only
    rw [h.lookup hfrom hlocked]
    cases hat : s.appended[offset]? with
    | none => exact .inr ⟨rfl, List.getElem?_eq_none_iff.mp hat⟩
    | some x => exact .inl ⟨x.2, rfl, rfl⟩
  | metadata_open =>
    obtain rfl := Option.some.inj hstep
    exact Since.same rfl rfl rfl
  | metadata_read scan n =>
    obtain ⟨-, hstep⟩ := Option.ite_none_right_eq_some.mp hstep
    obtain rfl := Option.some.inj hstep
    exact Since.same rfl rfl rfl
  | metadata_return scan =>
    obtain ⟨-, hstep⟩ := Option.ite_none_right_eq_some.mp hstep
    obtain rfl := Option.some.inj hstep
    exact Since.same rfl rfl rfl

/-- By induction on the run, with the invariant of its first state. -/
theorem Stored.run (h : Stored s) (hfrom : ∀ entry, from_str (to_json entry) = some entry)
    {actions : List (HistoryAction W)} (halive : ∀ a ∈ actions, a.is_death = false)
    (hrun : actions.foldlM (History.step from_str) s = some t) :
    Stored t ∧ Since s t :=
  Guarded.invariant (I := fun t => Stored t ∧ Since s t) (G := fun _ a => a.is_death = false)
    (fun _ _ _ hu ha hstep => ⟨hu.1.step ha hstep, hu.2.trans (hu.1.since_step hfrom hstep)⟩)
    (guarded_of_forall (fun a ha _ => halive a ha) s) ⟨h, Since.same rfl rfl rfl⟩ hrun

end History

end Ecode.message_history

namespace Ecode

open message_history

def first_entry : HistoryEntry := ⟨"s".toList, 1, "a\nb".toList⟩

def second_entry : HistoryEntry := ⟨"t".toList, 2, "c".toList⟩

/-- A message is appended and counted, and a second one is written in two parts. -/
def appended_and_counted : List (HistoryAction Bool) :=
  [.append_open false first_entry, .append_open true second_entry, .append_lock false,
    .append_write false 40, .append_unlock false, .append_lock true, .append_write true 20,
    .metadata_open, .metadata_read ⟨0, 0, 1⟩ 60, .metadata_return ⟨60, 1, 1⟩]

def looked_up : List (HistoryAction Bool) :=
  [.append_write true 17, .append_unlock true, .lookup_lock 9 0, .lookup_lock 9 5,
    .lookup_answer 5, .lookup_answer 0]

end Ecode
