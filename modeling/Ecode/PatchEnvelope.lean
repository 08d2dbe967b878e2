-- A patch text read once more (apply-patch/src/parser.rs): the text that `parse_patch` keeps
-- beside the hunks, and the patch inside a heredoc.
import Ecode.PatchCopy

namespace Ecode.apply_patch

open Text (bare bare_eq_self lines_append lines_last)

/-! ## What was accepted -/

/-- The lines of the patch, without the lines of a heredoc around them. -/
def accepted_lines (patch : Text) : List Text :=
  let lines := Text.lines (Text.trim patch)
  if check_patch_boundaries_strict lines = .ok () then lines else lines.tail.dropLast

/-- The lines between the markers. -/
def hunk_lines (lines : List Text) : List Text := lines.dropLast.tail

theorem strict_eq_ok {lines : List Text} : check_patch_boundaries_strict lines = .ok () ↔
    lines.head? = some BEGIN_PATCH_MARKER ∧ lines.getLast? = some END_PATCH_MARKER := by
  unfold check_patch_boundaries_strict check_start_and_end_lines_strict
  split
  · next h => exact iff_of_true rfl h
  · next h =>
    refine iff_of_false ?_ h
    split <;> nofun

/-- Between the markers there are the lines of the hunks. -/
theorem exists_between {lines : List Text} (h : check_patch_boundaries_strict lines = .ok ()) :
    lines = (BEGIN_PATCH_MARKER :: hunk_lines lines) ++ [END_PATCH_MARKER] := by
  obtain ⟨hhead, hlast⟩ := strict_eq_ok.mp h
  obtain ⟨front, rfl⟩ := List.getLast?_eq_some_iff.mp hlast
  unfold hunk_lines
  rw [List.dropLast_concat]
  cases front with
  | nil => exact absurd (Option.some.inj hhead) (by decide)
  | cons first front =>
    obtain rfl := Option.some.inj hhead
    rw [List.tail_cons]

theorem strict_between (lines : List Text) :
    check_patch_boundaries_strict ((BEGIN_PATCH_MARKER :: lines) ++ [END_PATCH_MARKER]) =
      .ok () := by
  rw [strict_eq_ok, List.getLast?_concat]
  exact ⟨rfl, rfl⟩

/-- What is done with the lines whose markers stand at their ends. -/
def read_lines (lines : List Text) : Except ParseError ApplyPatchArgs := do
  let hunks ← parse_hunks (hunk_lines lines).length (hunk_lines lines) 2
  .ok { patch := Text.join ['\n'] lines, hunks, workdir := none }

theorem read_lines_eq_ok {lines : List Text} {args : ApplyPatchArgs}
    (h : read_lines lines = .ok args) :
    parse_hunks (hunk_lines lines).length (hunk_lines lines) 2 = .ok args.hunks ∧
      args.patch = Text.join ['\n'] lines := by
  unfold read_lines at h
  cases hhunks : parse_hunks (hunk_lines lines).length (hunk_lines lines) 2 with
  | error e =>
    rw [hhunks] at h
    cases h
  | ok hunks =>
    rw [hhunks] at h
    cases h
    exact ⟨rfl, rfl⟩

/-- The hunks are all that is read of the lines between the markers. -/
theorem hunks_read_lines {lines : List Text} :
    (read_lines lines).map ApplyPatchArgs.hunks =
      parse_hunks (hunk_lines lines).length (hunk_lines lines) 2 := by
  unfold read_lines
  cases parse_hunks (hunk_lines lines).length (hunk_lines lines) 2 <;> rfl

theorem parse_patch_strict {patch : Text}
    (h : check_patch_boundaries_strict (Text.lines (Text.trim patch)) = .ok ()) :
    parse_patch patch = read_lines (Text.lines (Text.trim patch)) := by
  unfold parse_patch
  dsimp only
  rw [h]
  rfl

theorem parse_patch_lenient {patch : Text} {e : ParseError}
    (h : check_patch_boundaries_strict (Text.lines (Text.trim patch)) = .error e) :
    parse_patch patch =
      check_patch_boundaries_lenient (Text.lines (Text.trim patch)) e >>= read_lines := by
  unfold parse_patch
  dsimp only
  rw [h]
  rfl

/-- The first lines of a heredoc. -/
def heredoc_openers : List Text := ["<<EOF".toList, "<<'EOF'".toList, "<<\"EOF\"".toList]

/-- A heredoc is taken off when its inner lines have the markers. -/
theorem lenient_eq_ok {first : Text} {rest inner : List Text} {e : ParseError} :
    check_patch_boundaries_lenient (first :: rest) e = .ok inner ↔
      first ∈ heredoc_openers ∧ Text.ends_with (rest.getLastD []) "EOF".toList = true ∧
      inner = rest.dropLast ∧ check_patch_boundaries_strict inner = .ok () := by
  cases rest with
  | nil =>
    refine iff_of_false nofun ?_
    rintro ⟨-, -, rfl, h⟩
    cases h
  | cons second rest =>
    have hlast : (first :: second :: rest).getLastD [] = (second :: rest).getLastD [] := rfl
    unfold check_patch_boundaries_lenient
    dsimp only
    rw [hlast, List.tail_cons]
    split
    · next h =>
      cases hstrict : check_patch_boundaries_strict (second :: rest).dropLast with
      | error e =>
        refine iff_of_false nofun ?_
        rintro ⟨-, -, rfl, hok⟩
        rw [hstrict] at hok
        cases hok
      | ok u =>
        constructor
        · intro hok
          cases hok
          exact ⟨h.1, h.2.1, rfl, hstrict⟩
        · rintro ⟨-, -, rfl, -⟩
          rfl
    · next h =>
      refine iff_of_false nofun ?_
      rintro ⟨hfirst, hend, rfl, hstrict⟩
      apply h
      refine ⟨hfirst, hend, ?_⟩
      have hlen := congrArg List.length (exists_between hstrict)
      simp only [List.length_dropLast, List.length_cons, List.length_append, List.length_nil]
        at hlen ⊢
      omega

/-- What an accepted patch text is read from. -/
theorem accepted {patch : Text} {args : ApplyPatchArgs} (h : parse_patch patch = .ok args) :
    check_patch_boundaries_strict (accepted_lines patch) = .ok () ∧
      read_lines (accepted_lines patch) = .ok args ∧
      ∀ l ∈ accepted_lines patch, '\n' ∉ l := by
  unfold accepted_lines
  dsimp only
  cases hstrict : check_patch_boundaries_strict (Text.lines (Text.trim patch)) with
  | ok u =>
    rw [if_pos rfl]
    rw [parse_patch_strict hstrict] at h
    exact ⟨hstrict, h, fun l hl => Text.not_mem_lines hl⟩
  | error e =>
    rw [if_neg nofun]
    rw [parse_patch_lenient hstrict] at h
    cases hlenient : check_patch_boundaries_lenient (Text.lines (Text.trim patch)) e with
    | error e' =>
      rw [hlenient] at h
      cases h
    | ok inner =>
      rw [hlenient] at h
      cases hlines : Text.lines (Text.trim patch) with
      | nil =>
        rw [hlines] at hlenient
        cases hlenient
      | cons first rest =>
        rw [hlines] at hlenient
        obtain ⟨-, -, rfl, hinner⟩ := lenient_eq_ok.mp hlenient
        refine ⟨hinner, h, fun l hl => Text.not_mem_lines (t := Text.trim patch) ?_⟩
        rw [hlines]
        exact List.mem_cons_of_mem _ (List.dropLast_subset _ hl)

/-! ## The text that is kept -/

/-- A marker with or without a carriage return. -/
theorem head_of_bare {first : Text} (h : bare first = BEGIN_PATCH_MARKER) :
    first.head? = some '*' := by
  rcases Text.bare_cases first with ⟨-, hself⟩ | hreturn
  · rw [← hself, h]
    decide
  · rw [hreturn, h]
    decide

/-- The lines of a text between the markers, with blanks after it. -/
theorem lines_trim_between {first : Text} {mid : List Text} {w : Text}
    (hfirst : bare first = BEGIN_PATCH_MARKER) (hlines : ∀ l ∈ first :: mid, '\n' ∉ l)
    (hw : ∀ c ∈ w, Text.is_whitespace c = true) :
    Text.lines (Text.trim (Text.terminated (first :: mid) ++ END_PATCH_MARKER ++ w)) =
      (BEGIN_PATCH_MARKER :: mid.map bare) ++ [END_PATCH_MARKER] := by
  have hend : END_PATCH_MARKER.getLast? = some 'h' := by decide
  rw [Text.trim_append _ _ _ hw, lines_append hlines, lines_last (by decide) (by decide),
    List.map_cons, hfirst]
  · exact List.append_ne_nil_of_right_ne_nil _ (by decide)
  · intro c hc
    have hhead : (Text.terminated (first :: mid) ++ END_PATCH_MARKER).head? = some '*' := by
      rw [Text.terminated_cons_append, List.head?_append, head_of_bare hfirst]
      rfl
    rw [hhead] at hc
    obtain rfl := Option.some.inj hc
    decide
  · intro c hc
    rw [List.getLast?_append_of_ne_nil _ (by decide), hend] at hc
    obtain rfl := Option.some.inj hc
    decide

theorem hunk_lines_between (lines : List Text) :
    hunk_lines ((BEGIN_PATCH_MARKER :: lines) ++ [END_PATCH_MARKER]) = lines := by
  unfold hunk_lines
  rw [List.dropLast_concat, List.tail_cons]

/-- Lines between the markers that have no line feed are read as the bare ones. -/
theorem parse_patch_join {lines : List Text} (hlines : ∀ l ∈ lines, '\n' ∉ l)
    (hstrict : check_patch_boundaries_strict lines = .ok ()) :
    (parse_patch (Text.join ['\n'] lines)).map ApplyPatchArgs.hunks =
      parse_hunks (hunk_lines lines).length ((hunk_lines lines).map bare) 2 := by
  have hbetween := exists_between hstrict
  have hsplit : Text.lines (Text.trim (Text.join ['\n'] lines)) =
      (BEGIN_PATCH_MARKER :: (hunk_lines lines).map bare) ++ [END_PATCH_MARKER] := by
    rw [hbetween] at hlines
    conv_lhs => rw [hbetween, Text.join_concat, ← List.append_nil (Text.terminated _ ++ _)]
    exact lines_trim_between (bare_eq_self (by decide))
      (fun l hl => hlines l (List.mem_append_left _ hl)) nofun
  rw [parse_patch_strict, hunks_read_lines, hsplit, hunk_lines_between, List.length_map]
  rw [hsplit]
  exact strict_between _

/-! ## The patch in a heredoc -/

/-- A text that ends in a line feed, as what stands in a heredoc does. -/
def ended (patch : Text) : Text :=
  if patch.getLast? = some '\n' then patch else patch ++ ['\n']

/-- The patch in a heredoc. -/
def heredoc (opener patch : Text) : Text := opener ++ ['\n'] ++ ended patch ++ "EOF".toList

theorem exists_ended (patch : Text) :
    ∃ ls, ended patch = Text.terminated ls ∧ ∀ l ∈ ls, '\n' ∉ l := by
  unfold ended
  split
  · next h =>
    obtain ⟨t, rfl⟩ := List.getLast?_eq_some_iff.mp h
    exact Text.exists_lines t
  · exact Text.exists_lines patch

theorem lines_ended {patch : Text} {ls : List Text} (h : ended patch = Text.terminated ls)
    (hls : ∀ l ∈ ls, '\n' ∉ l) : Text.lines (ended patch) = ls.map bare := by
  have happend := lines_append hls []
  rw [List.append_nil] at happend
  rw [h, happend]
  exact List.append_nil _

/-- The lines of a patch in a heredoc. -/
theorem lines_heredoc {opener : Text} (hopener : opener ∈ heredoc_openers) (patch : Text) :
    Text.lines (Text.trim (heredoc opener patch)) =
      opener :: (Text.lines (ended patch) ++ ["EOF".toList]) := by
  obtain ⟨ls, hls, hfeed⟩ := exists_ended patch
  have hmarks : opener.head? = some '<' ∧ '\n' ∉ opener ∧ bare opener = opener := by
    have hall : ∀ o ∈ heredoc_openers, o.head? = some '<' ∧ '\n' ∉ o ∧ bare o = o := by decide
    exact hall opener hopener
  have htext : heredoc opener patch = Text.terminated (opener :: ls) ++ "EOF".toList := by
    unfold heredoc
    rw [hls, Text.terminated_cons_append]
    simp
  have hfeed' : ∀ l ∈ opener :: ls, '\n' ∉ l := List.forall_mem_cons.mpr ⟨hmarks.2.1, hfeed⟩
  have htrim : Text.trim (Text.terminated (opener :: ls) ++ "EOF".toList) =
      Text.terminated (opener :: ls) ++ "EOF".toList := by
    apply Text.trim_eq_self
    · intro c hc
      rw [Text.terminated_cons_append, List.head?_append, hmarks.1] at hc
      obtain rfl := Option.some.inj hc
      decide
    · intro c hc
      rw [List.getLast?_append_of_ne_nil _ (by decide)] at hc
      obtain rfl := Option.some.inj hc
      decide
  rw [htext, htrim, lines_append hfeed', lines_last (by decide) (by decide), List.map_cons,
    hmarks.2.2, lines_ended hls hfeed]
  rfl

/-- A patch in a heredoc is read as the lines there, which must have the markers at their ends:
blanks around them are not taken off. -/
theorem parse_patch_heredoc_eq_ok {opener : Text} (hopener : opener ∈ heredoc_openers)
    {patch : Text} {args : ApplyPatchArgs} :
    parse_patch (heredoc opener patch) = .ok args ↔
      check_patch_boundaries_strict (Text.lines (ended patch)) = .ok () ∧
        read_lines (Text.lines (ended patch)) = .ok args := by
  have hlines := lines_heredoc hopener patch
  cases hstrict : check_patch_boundaries_strict (Text.lines (Text.trim (heredoc opener patch))) with
  | ok u =>
    have hhead := (strict_eq_ok.mp hstrict).1
    rw [hlines] at hhead
    have hall : BEGIN_PATCH_MARKER ∉ heredoc_openers := by decide
    exact absurd (Option.some.inj hhead ▸ hopener) hall
  | error e =>
    rw [parse_patch_lenient hstrict, hlines]
    cases hlenient : check_patch_boundaries_lenient
        (opener :: (Text.lines (ended patch) ++ ["EOF".toList])) e with
    | error e' =>
      refine iff_of_false nofun ?_
      rintro ⟨hinner, -⟩
      have hend : Text.ends_with ((Text.lines (ended patch) ++ ["EOF".toList]).getLastD [])
          "EOF".toList = true := by
        rw [List.getLastD_concat]
        decide
      have hok := (lenient_eq_ok (e := e)).mpr
        ⟨hopener, hend, List.dropLast_concat.symm, hinner⟩
      rw [hlenient] at hok
      cases hok
    | ok inner =>
      obtain ⟨-, -, rfl, hinner⟩ := lenient_eq_ok.mp hlenient
      rw [List.dropLast_concat] at hinner ⊢
      rw [and_iff_right hinner]
      rfl

/-- A text that has the markers at its ends already is trimmed of the end of its last line at
most. -/
theorem lines_trim_of_ended {patch : Text}
    (h : check_patch_boundaries_strict (Text.lines (ended patch)) = .ok ()) :
    Text.lines (Text.trim patch) = Text.lines (ended patch) := by
  obtain ⟨ls, hls, hfeed⟩ := exists_ended patch
  have hbetween := exists_between h
  generalize hunk_lines (Text.lines (ended patch)) = mid' at hbetween
  rw [lines_ended hls hfeed] at hbetween ⊢
  rw [hbetween]
  rw [List.map_eq_append_iff] at hbetween
  obtain ⟨front, back, rfl, hfront, hback⟩ := hbetween
  obtain ⟨first, mid, rfl, hfirst, rfl⟩ := List.map_eq_cons_iff.mp hfront
  obtain ⟨last, more, rfl, hlast, hmore⟩ := List.map_eq_cons_iff.mp hback
  obtain rfl := List.map_eq_nil_iff.mp hmore
  have hfeed' : ∀ l ∈ first :: mid, '\n' ∉ l := fun l hl => hfeed l (List.mem_append_left _ hl)
  -- the blanks after the last marker
  obtain ⟨w, hw, hpatch⟩ : ∃ w, (∀ c ∈ w, Text.is_whitespace c = true) ∧
      patch = Text.terminated (first :: mid) ++ END_PATCH_MARKER ++ w := by
    have hlast' : ∃ v, (∀ c ∈ v, Text.is_whitespace c = true) ∧ last = END_PATCH_MARKER ++ v := by
      rcases Text.bare_cases last with ⟨-, hself⟩ | hreturn
      · exact ⟨[], nofun, by rw [← hlast, hself, List.append_nil]⟩
      · refine ⟨['\r'], ?_, by rw [← hlast, ← hreturn]⟩
        intro c hc
        obtain rfl := List.mem_singleton.mp hc
        decide
    obtain ⟨v, hv, rfl⟩ := hlast'
    have htext : Text.terminated (first :: mid ++ [END_PATCH_MARKER ++ v]) =
        Text.terminated (first :: mid) ++ END_PATCH_MARKER ++ v ++ ['\n'] := by
      simp [Text.terminated]
    rw [htext] at hls
    unfold ended at hls
    split at hls
    · refine ⟨v ++ ['\n'], ?_, by rw [hls]; simp⟩
      intro c hc
      rcases List.mem_append.mp hc with hc | hc
      · exact hv c hc
      · obtain rfl := List.mem_singleton.mp hc
        decide
    · exact ⟨v, hv, List.append_cancel_right hls⟩
  rw [hpatch]
  exact lines_trim_between hfirst hfeed' hw

/-! ## Reading it once more -/

/-- What is read of a text stands for a patch: the text that is kept gives the same hunks
again, and so does the patch in a heredoc. -/
structure FaithfulCopy (patch : Text) (args : ApplyPatchArgs) : Prop where
  again : (parse_patch args.patch).map ApplyPatchArgs.hunks = .ok args.hunks
  wrapped : ∀ opener ∈ heredoc_openers,
    (parse_patch (heredoc opener patch)).map ApplyPatchArgs.hunks = .ok args.hunks

theorem map_eq_ok {ε α β : Type} {f : α → β} {x : Except ε α} {b : β} :
    x.map f = .ok b ↔ ∃ a, x = .ok a ∧ f a = b := by
  cases x with
  | error e => exact iff_of_false nofun (by rintro ⟨a, h, -⟩; cases h)
  | ok a =>
    constructor
    · intro h
      exact ⟨a, rfl, Except.ok.inj h⟩
    · rintro ⟨a', h, rfl⟩
      cases h
      rfl

/-- The copy is faithful just when no end of a line that is kept has a carriage return, and the
text needs no trimming and is in no heredoc itself. -/
theorem faithful_copy_iff {patch : Text} {args : ApplyPatchArgs}
    (h : parse_patch patch = .ok args) : FaithfulCopy patch args ↔
      NoReturnKept .header (hunk_lines (accepted_lines patch)) ∧
        check_patch_boundaries_strict (Text.lines (ended patch)) = .ok () := by
  obtain ⟨hstrict, hread, hlines⟩ := accepted h
  obtain ⟨hhunks, hpatch⟩ := read_lines_eq_ok hread
  have hagain : (parse_patch args.patch).map ApplyPatchArgs.hunks = .ok args.hunks ↔
      NoReturnKept .header (hunk_lines (accepted_lines patch)) := by
    rw [hpatch, parse_patch_join hlines hstrict]
    exact parse_hunks_bare_iff (Nat.le_refl _) hhunks
  constructor
  · intro hcopy
    refine ⟨hagain.mp hcopy.again, ?_⟩
    obtain ⟨inner, hinner, -⟩ :=
      map_eq_ok.mp (hcopy.wrapped "<<EOF".toList (by decide))
    exact ((parse_patch_heredoc_eq_ok (by decide)).mp hinner).1
  · rintro ⟨hkept, hended⟩
    refine ⟨hagain.mpr hkept, ?_⟩
    intro opener hopener
    have hsame : accepted_lines patch = Text.lines (ended patch) := by
      unfold accepted_lines
      dsimp only
      rw [lines_trim_of_ended hended, if_pos hended]
    rw [map_eq_ok]
    exact ⟨args, (parse_patch_heredoc_eq_ok hopener).mpr ⟨hended, hsame ▸ hread⟩, rfl⟩

theorem faithful_copy_of_delete :
    FaithfulCopy "*** Begin Patch\n*** Delete File: a\n*** End Patch\n".toList
      { patch := "*** Begin Patch\n*** Delete File: a\n*** End Patch".toList
        hunks := [.DeleteFile (Path.of_text "a".toList)]
        workdir := none } :=
  (faithful_copy_iff (by decide)).mpr (by decide)

/-- An added line that ends in a carriage return loses it, and a patch after a blank line is
none inside a heredoc. -/
theorem copy_differs :
    (∃ args, parse_patch "*** Begin Patch\n*** Add File: a\n+b\r\r\n*** End Patch".toList =
        .ok args ∧ (parse_patch args.patch).map ApplyPatchArgs.hunks ≠ .ok args.hunks) ∧
      ∃ args, parse_patch "\n*** Begin Patch\n*** Delete File: a\n*** End Patch".toList =
        .ok args ∧
      (parse_patch (heredoc "<<'EOF'".toList
        "\n*** Begin Patch\n*** Delete File: a\n*** End Patch".toList)).map
          ApplyPatchArgs.hunks ≠ .ok args.hunks := by
  constructor
  · refine ⟨{
      patch := "*** Begin Patch\n*** Add File: a\n+b\r\n*** End Patch".toList
      hunks := [.AddFile (Path.of_text "a".toList) "b\r\n".toList]
      workdir := none }, by decide, by decide⟩
  · refine ⟨{
      patch := "*** Begin Patch\n*** Delete File: a\n*** End Patch".toList
      hunks := [.DeleteFile (Path.of_text "a".toList)]
      workdir := none }, by decide, by decide⟩

end Ecode.apply_patch
