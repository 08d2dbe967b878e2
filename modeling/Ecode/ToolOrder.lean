-- The names of MCP tools when servers answer in another order (core/src/mcp_connection_manager.rs):
-- `list_all_tools` gives `qualify_tools` the tools of the server that answers first before those
-- of the others, so which tool is the first of a name depends on the run.
import Ecode.McpTools

namespace Ecode.mcp

variable {τ : Type} (sha1 : Sha1Hex)

/-- Whatever the order of the tools, each of them has the same entry in the map. -/
def NamesAreStable (tools : List (ToolInfo τ)) : Prop :=
  ∀ reordered : List (ToolInfo τ), reordered.Perm tools → ∀ name tool,
    (name, tool) ∈ qualify_tools sha1 reordered ↔ (name, tool) ∈ qualify_tools sha1 tools

/-! ## The first tool of a name keeps it -/

theorem mem_insert_tool {tools : List (Text × ToolInfo τ)} {name n : Text} (hne : n ≠ name)
    {t : ToolInfo τ} (tool : ToolInfo τ) (h : (n, t) ∈ tools) :
    (n, t) ∈ insert_tool tools name tool := by
  unfold insert_tool
  apply List.mem_append_left
  simp [h, hne]

/-- No later tool takes a name that is used. -/
theorem entry_stays_step {q : Qualified τ} {name : Text} {t : ToolInfo τ}
    (hentry : (name, t) ∈ q.qualified_tools) (hused : name ∈ q.used_names) (tool : ToolInfo τ) :
    (name, t) ∈ (qualify_tool sha1 q tool).qualified_tools ∧
      name ∈ (qualify_tool sha1 q tool).used_names := by
  have hadd : ∀ seen n, n ∉ q.used_names →
      (name, t) ∈ (Qualified.add { q with seen_raw_names := seen } n tool).qualified_tools ∧
        name ∈ (Qualified.add { q with seen_raw_names := seen } n tool).used_names := by
    intro seen n hfresh
    refine ⟨mem_insert_tool ?_ tool hentry, List.mem_cons_of_mem n hused⟩
    rintro rfl
    exact hfresh hused
  unfold qualify_tool
  dsimp only
  split_ifs with hraw hname hdigest
  · exact ⟨hentry, hused⟩
  · exact ⟨hentry, hused⟩
  · exact hadd _ _ hdigest
  · exact hadd _ _ hname

theorem entry_stays {q : Qualified τ} {name : Text} {t : ToolInfo τ}
    (hentry : (name, t) ∈ q.qualified_tools) (hused : name ∈ q.used_names)
    (tools : List (ToolInfo τ)) :
    (name, t) ∈ (tools.foldl (qualify_tool sha1) q).qualified_tools := by
  induction tools generalizing q with
  | nil => exact hentry
  | cons tool tools ih =>
    obtain ⟨hentry', hused'⟩ := entry_stays_step sha1 hentry hused tool
    exact ih hentry' hused'

theorem first_tool_keeps_its_name (t : ToolInfo τ) (tools : List (ToolInfo τ)) :
    (qualified_name sha1 t, t) ∈ qualify_tools sha1 (t :: tools) := by
  unfold qualify_tools
  rw [List.foldl_cons]
  apply entry_stays
  · simp [qualify_tool, Qualified.add, insert_tool]
  · simp [qualify_tool, Qualified.add]

/-- Every tool is the first in some order. -/
theorem keeps_its_name_in_some_order {tools : List (ToolInfo τ)} {t : ToolInfo τ} (h : t ∈ tools) :
    ∃ reordered : List (ToolInfo τ), reordered.Perm tools ∧
      (qualified_name sha1 t, t) ∈ qualify_tools sha1 reordered := by
  obtain ⟨before, after, rfl⟩ := List.append_of_mem h
  exact ⟨t :: (before ++ after), List.perm_middle.symm, first_tool_keeps_its_name sha1 t _⟩

/-! ## The map has one entry a name -/

theorem insert_tool_nodup {tools : List (Text × ToolInfo τ)} (h : (tools.map Prod.fst).Nodup)
    (name : Text) (tool : ToolInfo τ) : ((insert_tool tools name tool).map Prod.fst).Nodup := by
  unfold insert_tool
  rw [List.map_append, List.map_singleton, ← List.concat_eq_append]
  apply (h.sublist (List.Sublist.map _ List.filter_sublist)).concat
  intro hin
  obtain ⟨e, he, hname⟩ := List.mem_map.mp hin
  exact of_decide_eq_true (List.mem_filter.mp he).2 hname

theorem qualify_tool_nodup {q : Qualified τ} (h : (q.qualified_tools.map Prod.fst).Nodup)
    (tool : ToolInfo τ) : ((qualify_tool sha1 q tool).qualified_tools.map Prod.fst).Nodup := by
  unfold qualify_tool
  dsimp only
  split_ifs
  · exact h
  · exact h
  · exact insert_tool_nodup h _ tool
  · exact insert_tool_nodup h _ tool

theorem qualify_run_nodup {q : Qualified τ} (h : (q.qualified_tools.map Prod.fst).Nodup)
    (tools : List (ToolInfo τ)) :
    ((tools.foldl (qualify_tool sha1) q).qualified_tools.map Prod.fst).Nodup := by
  induction tools generalizing q with
  | nil => exact h
  | cons tool tools ih => exact ih (qualify_tool_nodup sha1 h tool)

theorem qualify_tools_nodup (tools : List (ToolInfo τ)) :
    ((qualify_tools sha1 tools).map Prod.fst).Nodup := by
  apply qualify_run_nodup
  simp

/-- Two tools do not share an entry. -/
theorem entry_unique {tools : List (ToolInfo τ)} {name : Text} {t u : ToolInfo τ}
    (ht : (name, t) ∈ qualify_tools sha1 tools) (hu : (name, u) ∈ qualify_tools sha1 tools) :
    t = u := by
  have h := List.inj_on_of_nodup_map (qualify_tools_nodup sha1 tools) ht hu rfl
  exact congrArg Prod.snd h

/-! ## Names that do not clash -/

/-- The entry of a tool whose name is not used. -/
def own_entry (tool : ToolInfo τ) : Text × ToolInfo τ := (qualified_name sha1 tool, tool)

theorem qualified_name_congr {t u : ToolInfo τ} (h : qualified_name_raw t = qualified_name_raw u) :
    qualified_name sha1 t = qualified_name sha1 u := by
  unfold qualified_name
  rw [h]

/-- The loop after tools whose names do not clash. -/
def distinct_state (earlier : List (ToolInfo τ)) : Qualified τ :=
  ⟨(earlier.map (qualified_name sha1)).reverse, (earlier.map qualified_name_raw).reverse,
    earlier.map (own_entry sha1)⟩

theorem distinct_step {earlier : List (ToolInfo τ)} {tool : ToolInfo τ}
    (hfresh : qualified_name sha1 tool ∉ earlier.map (qualified_name sha1)) :
    qualify_tool sha1 (distinct_state sha1 earlier) tool =
      distinct_state sha1 (earlier ++ [tool]) := by
  have hraw : qualified_name_raw tool ∉ (earlier.map qualified_name_raw).reverse := by
    intro hin
    obtain ⟨u, hu, heq⟩ := List.mem_map.mp (List.mem_reverse.mp hin)
    exact hfresh (List.mem_map.mpr ⟨u, hu, qualified_name_congr sha1 heq⟩)
  have hname : qualified_name sha1 tool ∉ (earlier.map (qualified_name sha1)).reverse := by
    rwa [List.mem_reverse]
  have hkeys : ∀ e ∈ earlier.map (own_entry sha1), e.1 ≠ qualified_name sha1 tool := by
    rintro e he heq
    obtain ⟨u, hu, rfl⟩ := List.mem_map.mp he
    exact hfresh (List.mem_map.mpr ⟨u, hu, heq⟩)
  unfold qualify_tool distinct_state
  simp only [if_neg hraw, if_neg hname, Qualified.add, insert_tool_fresh hkeys]
  simp [own_entry]

theorem distinct_run (earlier tools : List (ToolInfo τ))
    (h : ((earlier ++ tools).map (qualified_name sha1)).Nodup) :
    tools.foldl (qualify_tool sha1) (distinct_state sha1 earlier) =
      distinct_state sha1 (earlier ++ tools) := by
  induction tools generalizing earlier with
  | nil => simp
  | cons tool tools ih =>
    have hfresh : qualified_name sha1 tool ∉ earlier.map (qualified_name sha1) := by
      intro hin
      rw [List.map_append, List.nodup_append] at h
      exact h.2.2 _ hin _ (by simp) rfl
    have hassoc : earlier ++ tool :: tools = (earlier ++ [tool]) ++ tools := by simp
    rw [List.foldl_cons, distinct_step sha1 hfresh, hassoc]
    apply ih
    rwa [← hassoc]

theorem qualify_tools_distinct {tools : List (ToolInfo τ)}
    (h : (tools.map (qualified_name sha1)).Nodup) :
    qualify_tools sha1 tools = tools.map (own_entry sha1) := by
  have hrun := distinct_run sha1 [] tools h
  exact congrArg Qualified.qualified_tools hrun

/-- The order of the tools does not matter just if no two of them have the same name before one of
them is disambiguated: the one that comes first keeps that name. -/
theorem names_stable_iff_no_clash (tools : List (ToolInfo τ))
    (hpairs : (tools.map (fun t => (t.server_name, t.tool_name))).Nodup) :
    NamesAreStable sha1 tools ↔ (tools.map (qualified_name sha1)).Nodup := by
  constructor
  · intro hstable
    have hown : ∀ t ∈ tools, (qualified_name sha1 t, t) ∈ qualify_tools sha1 tools := by
      intro t ht
      obtain ⟨reordered, hperm, hentry⟩ := keeps_its_name_in_some_order sha1 ht
      exact (hstable reordered hperm _ _).mp hentry
    have htools : tools.Nodup := hpairs.of_map _
    apply htools.map_on
    intro t ht u hu heq
    have hshared := hown u hu
    rw [← heq] at hshared
    exact entry_unique sha1 (hown t ht) hshared
  · intro hnodup reordered hperm name tool
    have hreordered : (reordered.map (qualified_name sha1)).Nodup :=
      (hperm.map _).nodup_iff.mpr hnodup
    rw [qualify_tools_distinct sha1 hnodup, qualify_tools_distinct sha1 hreordered]
    exact (hperm.map _).mem_iff

/-- Two tools of a server with names of their own. -/
def read_and_write : List (ToolInfo Unit) :=
  [⟨"s".toList, "read".toList, ()⟩, ⟨"s".toList, "write".toList, ()⟩]

theorem read_and_write_are_stable : NamesAreStable known_sha1 read_and_write :=
  (names_stable_iff_no_clash known_sha1 read_and_write (by decide +kernel)).mpr
    (by decide +kernel)

/-- The tool `a_b` is called `s__a_b` only if it comes before `a.b`. -/
theorem dot_and_underscore_trade_names :
    ¬ ∀ tools : List (ToolInfo Unit),
      (tools.map (fun t => (t.server_name, t.tool_name))).Nodup →
        NamesAreStable known_sha1 tools := by
  intro hall
  have hstable := hall dot_and_underscore (by decide +kernel)
  have hsame := hstable dot_and_underscore.reverse (List.reverse_perm _) "s__a_b".toList
    ⟨"s".toList, "a_b".toList, ()⟩
  have hfirst : ("s__a_b".toList, ⟨"s".toList, "a_b".toList, ()⟩) ∈
      qualify_tools known_sha1 dot_and_underscore := by decide +kernel
  have hsecond : ("s__a_b".toList, ⟨"s".toList, "a_b".toList, ()⟩) ∉
      qualify_tools known_sha1 dot_and_underscore.reverse := by decide +kernel
  exact hsecond (hsame.mpr hfirst)

end Ecode.mcp
