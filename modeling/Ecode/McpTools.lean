-- The names of MCP tools (core/src/mcp_connection_manager.rs): how the tools of all
-- servers get names that the model may call, and which tools are lost on the way.
import Ecode.Text

namespace Ecode.mcp

def MCP_TOOL_NAME_DELIMITER : Text := "__".toList
def MAX_TOOL_NAME_LENGTH : Nat := 64

/-- The characters of a name that the Responses API takes. -/
def allowed (c : Char) : Bool := c.isAlphanum || c == '_' || c == '-'

def LOWER_HEX : List Char :=
  ['0', '1', '2', '3', '4', '5', '6', '7', '8', '9', 'a', 'b', 'c', 'd', 'e', 'f']

/-- `sha1_hex`, a digest of the `sha1` crate in lower case. -/
structure Sha1Hex where
  hex : Text → Text
  length : ∀ raw, (hex raw).length = 40
  digits : ∀ raw, ∀ c ∈ hex raw, c ∈ LOWER_HEX

structure ToolInfo (τ : Type) where
  server_name : Text
  tool_name : Text
  tool : τ
  deriving DecidableEq, Repr

def is_valid_mcp_server_name (server_name : Text) : Bool :=
  !server_name.isEmpty &&
    server_name.all (fun c => c.isAlphanum || c ∈ ['_', '-', ':', '@', '/', '.'])

def sanitize_responses_api_tool_name (name : Text) : Text :=
  let sanitized := name.map (fun c => if allowed c then c else '_')
  if sanitized.isEmpty then "_".toList else sanitized

variable {τ : Type} (sha1 : Sha1Hex)

/-- `append_sha1_suffix`. The base is sanitised, so its bytes are its characters. -/
def append_sha1_suffix (base raw : Text) : Text :=
  let sha1_str := sha1.hex raw
  let prefix_len := MAX_TOOL_NAME_LENGTH - Text.len sha1_str
  (if Text.len base > prefix_len then base.take prefix_len else base) ++ sha1_str

def qualified_name_raw (tool : ToolInfo τ) : Text :=
  tool.server_name ++ MCP_TOOL_NAME_DELIMITER ++ tool.tool_name

/-- The sanitised name, with a digest if it is too long. -/
def qualified_name (tool : ToolInfo τ) : Text :=
  let name := sanitize_responses_api_tool_name (qualified_name_raw tool)
  if Text.len name > MAX_TOOL_NAME_LENGTH then
    append_sha1_suffix sha1 name (qualified_name_raw tool)
  else name

/-- The name that a tool gets when its own is used. -/
def disambiguated_name (tool : ToolInfo τ) : Text :=
  append_sha1_suffix sha1 (qualified_name sha1 tool) (qualified_name_raw tool)

/-- The variables of the loop of `qualify_tools`; the map as a list of its entries. -/
structure Qualified (τ : Type) where
  used_names : List Text
  seen_raw_names : List Text
  qualified_tools : List (Text × ToolInfo τ)

/-- `HashMap::insert`. -/
def insert_tool (tools : List (Text × ToolInfo τ)) (name : Text) (tool : ToolInfo τ) :
    List (Text × ToolInfo τ) :=
  tools.filter (fun e => e.1 ≠ name) ++ [(name, tool)]

def Qualified.add (q : Qualified τ) (name : Text) (tool : ToolInfo τ) : Qualified τ :=
  { q with
    used_names := name :: q.used_names
    qualified_tools := insert_tool q.qualified_tools name tool }

/-- One tool of the loop. -/
def qualify_tool (q : Qualified τ) (tool : ToolInfo τ) : Qualified τ :=
  if qualified_name_raw tool ∈ q.seen_raw_names then q
  else
    let q := { q with seen_raw_names := qualified_name_raw tool :: q.seen_raw_names }
    if qualified_name sha1 tool ∈ q.used_names then
      if disambiguated_name sha1 tool ∈ q.used_names then q
      else q.add (disambiguated_name sha1 tool) tool
    else q.add (qualified_name sha1 tool) tool

def qualify_tools (tools : List (ToolInfo τ)) : List (Text × ToolInfo τ) :=
  (tools.foldl (qualify_tool sha1) ⟨[], [], []⟩).qualified_tools

def parse_tool_name (tools : List (Text × ToolInfo τ)) (tool_name : Text) : Option (Text × Text) :=
  (tools.find? (fun e => e.1 = tool_name)).map (fun e => (e.2.server_name, e.2.tool_name))

/-! ## Names -/

/-- What the Responses API takes as the name of a tool. -/
structure ValidName (name : Text) : Prop where
  nonempty : name ≠ []
  short : Text.len name ≤ MAX_TOOL_NAME_LENGTH
  allowed : ∀ c ∈ name, mcp.allowed c = true

theorem allowed_utf8Size {c : Char} (h : allowed c = true) : c.utf8Size = 1 := by
  rw [Char.utf8Size_eq_one_iff]
  simp only [allowed, Char.isAlphanum, Char.isAlpha, Char.isUpper, Char.isLower, Char.isDigit,
    Bool.or_eq_true, Bool.and_eq_true, decide_eq_true_eq, beq_iff_eq] at h
  rcases h with ((((⟨_, h⟩ | ⟨_, h⟩) | ⟨_, h⟩) | rfl) | rfl)
  · exact UInt32.le_trans h (by decide)
  · exact UInt32.le_trans h (by decide)
  · exact UInt32.le_trans h (by decide)
  · decide
  · decide

theorem len_allowed {t : Text} (h : ∀ c ∈ t, allowed c = true) : Text.len t = t.length := by
  induction t with
  | nil => rfl
  | cons c t ih =>
    have hc := allowed_utf8Size (h c List.mem_cons_self)
    have ht := ih (fun d hd => h d (List.mem_cons_of_mem c hd))
    unfold Text.len at ht ⊢
    simp only [List.map_cons, List.sum_cons, List.length_cons]
    omega

theorem sha1_allowed (raw : Text) : ∀ c ∈ sha1.hex raw, allowed c = true := by
  intro c hc
  have hdigits : LOWER_HEX.all allowed = true := by decide +kernel
  exact List.all_eq_true.mp hdigits c (sha1.digits raw c hc)

theorem sha1_len (raw : Text) : Text.len (sha1.hex raw) = 40 := by
  rw [len_allowed (sha1_allowed sha1 raw), sha1.length]

theorem sanitize_allowed (name : Text) :
    ∀ c ∈ sanitize_responses_api_tool_name name, allowed c = true := by
  intro c hc
  unfold sanitize_responses_api_tool_name at hc
  dsimp only at hc
  split_ifs at hc with hempty
  · obtain rfl : c = '_' := by simpa using hc
    decide
  · obtain ⟨d, _, rfl⟩ := List.mem_map.mp hc
    by_cases hd : allowed d = true
    · rw [if_pos hd]
      exact hd
    · rw [if_neg hd]
      decide

theorem sanitize_ne_nil (name : Text) : sanitize_responses_api_tool_name name ≠ [] := by
  unfold sanitize_responses_api_tool_name
  dsimp only
  split_ifs with hempty
  · decide
  · simpa using hempty

/-- What the digest is put after. -/
theorem append_sha1_suffix_eq {base : Text} (hbase : ∀ c ∈ base, allowed c = true) (raw : Text) :
    append_sha1_suffix sha1 base raw = base.take 24 ++ sha1.hex raw := by
  unfold append_sha1_suffix
  simp only [sha1_len, len_allowed hbase, MAX_TOOL_NAME_LENGTH]
  by_cases hlong : base.length > 24
  · simp [hlong]
  · simp [hlong, List.take_of_length_le (Nat.le_of_not_lt hlong)]

theorem append_sha1_suffix_valid {base : Text} (hbase : ∀ c ∈ base, allowed c = true)
    (raw : Text) : ValidName (append_sha1_suffix sha1 base raw) := by
  rw [append_sha1_suffix_eq sha1 hbase]
  have hall : ∀ c ∈ base.take 24 ++ sha1.hex raw, allowed c = true := by
    intro c hc
    rcases List.mem_append.mp hc with hc | hc
    · exact hbase c (List.mem_of_mem_take hc)
    · exact sha1_allowed sha1 raw c hc
  have hlength : (base.take 24 ++ sha1.hex raw).length ≤ 64 := by
    rw [List.length_append, List.length_take, sha1.length]
    omega
  refine ⟨?_, ?_, hall⟩
  · intro hnil
    have := congrArg List.length hnil
    rw [List.length_append, sha1.length] at this
    simp at this
  · rw [len_allowed hall]
    exact hlength

theorem qualified_name_valid (tool : ToolInfo τ) : ValidName (qualified_name sha1 tool) := by
  unfold qualified_name
  dsimp only
  split_ifs with hlong
  · exact append_sha1_suffix_valid sha1 (sanitize_allowed _) _
  · exact ⟨sanitize_ne_nil _, Nat.le_of_not_lt hlong, sanitize_allowed _⟩

theorem disambiguated_name_valid (tool : ToolInfo τ) :
    ValidName (disambiguated_name sha1 tool) :=
  append_sha1_suffix_valid sha1 (qualified_name_valid sha1 tool).allowed _

/-- A name with a digest tells the digest. -/
theorem disambiguated_name_digest {t u : ToolInfo τ}
    (h : disambiguated_name sha1 t = disambiguated_name sha1 u) :
    sha1.hex (qualified_name_raw t) = sha1.hex (qualified_name_raw u) := by
  unfold disambiguated_name at h
  rw [append_sha1_suffix_eq sha1 (qualified_name_valid sha1 t).allowed,
    append_sha1_suffix_eq sha1 (qualified_name_valid sha1 u).allowed] at h
  exact (List.append_inj' h (by rw [sha1.length, sha1.length])).2

/-! ## Which tools are lost -/

/-- The names that tools use, the last one first, when none of them is lost. -/
def Taken : List (ToolInfo τ) → Text → Prop
  | [], _ => False
  | tool :: earlier, name => Taken earlier name ∨ name = qualified_name sha1 tool ∨
      (Taken earlier (qualified_name sha1 tool) ∧ name = disambiguated_name sha1 tool)

/-- A tool after others, the last one first, keeps a name of its own: no raw name is the same,
and if its name is used, then no other tool is called like its name with the digest. -/
def Kept (earlier : List (ToolInfo τ)) (tool : ToolInfo τ) : Prop :=
  (∀ u ∈ earlier, qualified_name_raw u ≠ qualified_name_raw tool) ∧
    (Taken sha1 earlier (qualified_name sha1 tool) →
      ∀ u ∈ earlier, qualified_name sha1 u ≠ disambiguated_name sha1 tool)

/-- Every tool is kept after the ones before it. -/
def AllKept : List (ToolInfo τ) → List (ToolInfo τ) → Prop
  | _, [] => True
  | earlier, tool :: tools => Kept sha1 earlier tool ∧ AllKept (tool :: earlier) tools

theorem taken_of_mem {earlier : List (ToolInfo τ)} {u : ToolInfo τ} (h : u ∈ earlier) :
    Taken sha1 earlier (qualified_name sha1 u) := by
  induction earlier with
  | nil => cases h
  | cons t earlier ih =>
    rcases List.mem_cons.mp h with rfl | h
    · exact .inr (.inl rfl)
    · exact .inl (ih h)

/-- A name with a digest is only used by a tool that is called like this, as long as no other raw
name has the digest. -/
theorem taken_disambiguated {earlier : List (ToolInfo τ)} {tool : ToolInfo τ}
    (hdigest : ∀ u ∈ earlier,
      sha1.hex (qualified_name_raw u) ≠ sha1.hex (qualified_name_raw tool)) :
    Taken sha1 earlier (disambiguated_name sha1 tool) ↔
      ∃ u ∈ earlier, qualified_name sha1 u = disambiguated_name sha1 tool := by
  constructor
  · intro h
    induction earlier with
    | nil => cases h
    | cons t earlier ih =>
      rcases h with h | h | ⟨_, h⟩
      · obtain ⟨u, hu, heq⟩ := ih (fun u hu => hdigest u (List.mem_cons_of_mem t hu)) h
        exact ⟨u, List.mem_cons_of_mem t hu, heq⟩
      · exact ⟨t, List.mem_cons_self, h.symm⟩
      · exact absurd (disambiguated_name_digest sha1 h.symm) (hdigest t List.mem_cons_self)
  · rintro ⟨u, hu, heq⟩
    rw [← heq]
    exact taken_of_mem sha1 hu

/-! ## The loop -/

/-- The loop after tools, the last one first, of which none was lost. -/
structure Tracks (earlier : List (ToolInfo τ)) (q : Qualified τ) : Prop where
  seen : ∀ name, name ∈ q.seen_raw_names ↔ ∃ u ∈ earlier, qualified_name_raw u = name
  used : ∀ name, name ∈ q.used_names ↔ Taken sha1 earlier name
  keys : ∀ e ∈ q.qualified_tools, e.1 ∈ q.used_names ∧ ValidName e.1
  nodup : (q.qualified_tools.map Prod.fst).Nodup
  values : q.qualified_tools.map Prod.snd = earlier.reverse

theorem tracks_nil : Tracks sha1 [] (⟨[], [], []⟩ : Qualified τ) where
  seen := by simp
  used := by simp [Taken]
  keys := by simp
  nodup := by simp
  values := rfl

theorem insert_tool_length_le (tools : List (Text × ToolInfo τ)) (name : Text)
    (tool : ToolInfo τ) : (insert_tool tools name tool).length ≤ tools.length + 1 := by
  unfold insert_tool
  rw [List.length_append]
  have := List.length_filter_le (fun e : Text × ToolInfo τ => decide (e.1 ≠ name)) tools
  simp only [List.length_cons, List.length_nil]
  omega

theorem qualify_tool_length_le (q : Qualified τ) (tool : ToolInfo τ) :
    (qualify_tool sha1 q tool).qualified_tools.length ≤ q.qualified_tools.length + 1 := by
  unfold qualify_tool
  dsimp only
  split_ifs
  · exact Nat.le_succ _
  · exact Nat.le_succ _
  · exact insert_tool_length_le _ _ _
  · exact insert_tool_length_le _ _ _

theorem qualify_length_le (q : Qualified τ) (tools : List (ToolInfo τ)) :
    (tools.foldl (qualify_tool sha1) q).qualified_tools.length ≤
      q.qualified_tools.length + tools.length := by
  induction tools generalizing q with
  | nil => simp
  | cons tool tools ih =>
    have hstep := qualify_tool_length_le sha1 q tool
    have hrest := ih (qualify_tool sha1 q tool)
    simp only [List.foldl_cons, List.length_cons]
    omega

section step

variable {earlier : List (ToolInfo τ)} {q : Qualified τ}

theorem insert_tool_fresh {tools : List (Text × ToolInfo τ)} {name : Text}
    (h : ∀ e ∈ tools, e.1 ≠ name) (tool : ToolInfo τ) :
    insert_tool tools name tool = tools ++ [(name, tool)] := by
  unfold insert_tool
  rw [List.filter_eq_self.mpr]
  intro e he
  exact decide_eq_true (h e he)

/-- A tool that gets a name that is not used. -/
theorem Tracks.add (h : Tracks sha1 earlier q) {tool : ToolInfo τ} {name : Text}
    (hvalid : ValidName name) (hfresh : name ∉ q.used_names)
    (htaken : ∀ n, Taken sha1 (tool :: earlier) n ↔ n = name ∨ Taken sha1 earlier n) :
    Tracks sha1 (tool :: earlier) (Qualified.add
      { q with seen_raw_names := qualified_name_raw tool :: q.seen_raw_names } name tool) := by
  have hkeys : ∀ e ∈ q.qualified_tools, e.1 ≠ name := by
    rintro e he rfl
    exact hfresh (h.keys e he).1
  unfold Qualified.add
  simp only [insert_tool_fresh hkeys]
  refine ⟨?_, ?_, ?_, ?_, ?_⟩
  · intro n
    rw [List.mem_cons, h.seen n, List.exists_mem_cons_iff]
    exact or_congr_left eq_comm
  · intro n
    rw [htaken n, List.mem_cons, h.used n]
  · intro e he
    rcases List.mem_append.mp he with he | he
    · exact ⟨List.mem_cons_of_mem name (h.keys e he).1, (h.keys e he).2⟩
    · obtain rfl : e = (name, tool) := by simpa using he
      exact ⟨List.mem_cons_self, hvalid⟩
  · rw [List.map_append, List.map_singleton, ← List.concat_eq_append]
    apply h.nodup.concat
    intro hin
    obtain ⟨e, he, hname⟩ := List.mem_map.mp hin
    exact hkeys e he hname
  · simp [h.values]

/-- A tool that is kept gets an entry; one that is not kept changes nothing in the map. -/
theorem Tracks.step (h : Tracks sha1 earlier q) (tool : ToolInfo τ)
    (hdigest : ∀ u ∈ earlier, sha1.hex (qualified_name_raw u) = sha1.hex (qualified_name_raw tool) →
      qualified_name_raw u = qualified_name_raw tool) :
    (Kept sha1 earlier tool → Tracks sha1 (tool :: earlier) (qualify_tool sha1 q tool)) ∧
      (¬ Kept sha1 earlier tool →
        (qualify_tool sha1 q tool).qualified_tools = q.qualified_tools) := by
  unfold qualify_tool Kept
  dsimp only
  by_cases hraw : qualified_name_raw tool ∈ q.seen_raw_names
  · obtain ⟨u, hu, heq⟩ := (h.seen _).mp hraw
    rw [if_pos hraw]
    exact ⟨fun hkept => absurd heq (hkept.1 u hu), fun _ => rfl⟩
  · rw [if_neg hraw]
    have hnew : ∀ u ∈ earlier, qualified_name_raw u ≠ qualified_name_raw tool := by
      intro u hu heq
      exact hraw ((h.seen _).mpr ⟨u, hu, heq⟩)
    have hdisamb : Taken sha1 earlier (disambiguated_name sha1 tool) ↔
        ∃ u ∈ earlier, qualified_name sha1 u = disambiguated_name sha1 tool :=
      taken_disambiguated sha1 (fun u hu heq => hnew u hu (hdigest u hu heq))
    by_cases hin : qualified_name sha1 tool ∈ q.used_names
    · have hname := (h.used _).mp hin
      rw [if_pos hin]
      by_cases hdig : disambiguated_name sha1 tool ∈ q.used_names
      · rw [if_pos hdig]
        obtain ⟨u, hu, heq⟩ := hdisamb.mp ((h.used _).mp hdig)
        exact ⟨fun hkept => absurd heq (hkept.2 hname u hu), fun _ => rfl⟩
      · rw [if_neg hdig]
        have hother : ∀ u ∈ earlier, qualified_name sha1 u ≠ disambiguated_name sha1 tool := by
          intro u hu heq
          exact hdig ((h.used _).mpr (hdisamb.mpr ⟨u, hu, heq⟩))
        refine ⟨fun _ => ?_, fun hlost => absurd ⟨hnew, fun _ => hother⟩ hlost⟩
        refine h.add sha1 (disambiguated_name_valid sha1 tool) hdig ?_
        intro n
        rw [Taken]
        constructor
        · rintro (hn | rfl | ⟨_, rfl⟩)
          · exact .inr hn
          · exact .inr hname
          · exact .inl rfl
        · rintro (rfl | hn)
          · exact .inr (.inr ⟨hname, rfl⟩)
          · exact .inl hn
    · have hname : ¬ Taken sha1 earlier (qualified_name sha1 tool) := by
        rwa [← h.used]
      rw [if_neg hin]
      refine ⟨fun _ => ?_, fun hlost => absurd ⟨hnew, fun hused => absurd hused hname⟩ hlost⟩
      refine h.add sha1 (qualified_name_valid sha1 tool) hin ?_
      intro n
      rw [Taken]
      constructor
      · rintro (hn | rfl | ⟨hused, _⟩)
        · exact .inr hn
        · exact .inl rfl
        · exact absurd hused hname
      · rintro (rfl | hn)
        · exact .inr (.inl rfl)
        · exact .inl hn

end step

/-- All entries are made just if every tool is kept. -/
theorem qualify_run {earlier : List (ToolInfo τ)} {q : Qualified τ} (h : Tracks sha1 earlier q)
    (tools : List (ToolInfo τ))
    (hdigest : ∀ t ∈ tools, ∀ u, u ∈ earlier ∨ u ∈ tools →
      sha1.hex (qualified_name_raw u) = sha1.hex (qualified_name_raw t) →
        qualified_name_raw u = qualified_name_raw t) :
    ((tools.foldl (qualify_tool sha1) q).qualified_tools.length =
        q.qualified_tools.length + tools.length → AllKept sha1 earlier tools) ∧
      (AllKept sha1 earlier tools →
        Tracks sha1 (tools.reverse ++ earlier) (tools.foldl (qualify_tool sha1) q)) := by
  induction tools generalizing earlier q with
  | nil => exact ⟨fun _ => trivial, fun _ => h⟩
  | cons tool tools ih =>
    obtain ⟨hkeep, hlose⟩ := h.step sha1 tool
      (fun u hu => hdigest tool List.mem_cons_self u (.inl hu))
    have hrest : ∀ t ∈ tools, ∀ u, u ∈ tool :: earlier ∨ u ∈ tools →
        sha1.hex (qualified_name_raw u) = sha1.hex (qualified_name_raw t) →
          qualified_name_raw u = qualified_name_raw t := by
      intro t ht u hu
      refine hdigest t (List.mem_cons_of_mem tool ht) u ?_
      simp only [List.mem_cons] at hu ⊢
      tauto
    rw [List.foldl_cons]
    refine ⟨?_, ?_⟩
    · intro hlength
      by_cases hkept : Kept sha1 earlier tool
      · have hstep := hkeep hkept
        have hlen : (qualify_tool sha1 q tool).qualified_tools.length =
            q.qualified_tools.length + 1 := by
          have hnew := congrArg List.length hstep.values
          have hold := congrArg List.length h.values
          simp only [List.length_map, List.length_reverse, List.length_cons] at hnew hold
          omega
        refine ⟨hkept, (ih hstep hrest).1 ?_⟩
        rw [hlength, hlen, List.length_cons]
        omega
      · have hle := qualify_length_le sha1 (qualify_tool sha1 q tool) tools
        rw [hlose hkept] at hle
        rw [List.length_cons] at hlength
        omega
    · rintro ⟨hkept, hall⟩
      have htracks := (ih (hkeep hkept) hrest).2 hall
      simpa using htracks

/-- An entry of a map is found by its key. -/
theorem parse_tool_name_of_mem {tools : List (Text × ToolInfo τ)}
    (hnodup : (tools.map Prod.fst).Nodup) {e : Text × ToolInfo τ} (he : e ∈ tools) :
    parse_tool_name tools e.1 = some (e.2.server_name, e.2.tool_name) := by
  unfold parse_tool_name
  cases hfind : tools.find? (fun e' => e'.1 = e.1) with
  | none =>
    have := List.find?_eq_none.mp hfind e he
    simp at this
  | some e' =>
    have hkey : e'.1 = e.1 := by simpa using List.find?_some hfind
    obtain rfl := List.inj_on_of_nodup_map hnodup (List.mem_of_find?_eq_some hfind) he hkey
    rfl

/-- Every tool has one entry, under a valid name that leads back to its server and its own name. -/
def QualifiesAll (tools : List (ToolInfo τ)) : Prop :=
  ((qualify_tools sha1 tools).map Prod.snd).Perm tools ∧
    ((qualify_tools sha1 tools).map Prod.fst).Nodup ∧
    (∀ e ∈ qualify_tools sha1 tools, ValidName e.1) ∧
    ∀ e ∈ qualify_tools sha1 tools,
      parse_tool_name (qualify_tools sha1 tools) e.1 = some (e.2.server_name, e.2.tool_name)

/-- Where different raw names have different digests, no tool is lost just if every tool is kept
after the ones before it. -/
theorem qualifies_all_iff_all_kept (tools : List (ToolInfo τ))
    (hdigest : ∀ t ∈ tools, ∀ u ∈ tools,
      sha1.hex (qualified_name_raw u) = sha1.hex (qualified_name_raw t) →
        qualified_name_raw u = qualified_name_raw t) :
    QualifiesAll sha1 tools ↔ AllKept sha1 [] tools := by
  obtain ⟨hkept, htracks⟩ := qualify_run sha1 (tracks_nil sha1) tools (by
    intro t ht u hu
    exact hdigest t ht u (by simpa using hu))
  constructor
  · rintro ⟨hperm, _⟩
    apply hkept
    have hlength := hperm.length_eq
    simp only [List.length_map] at hlength
    simpa [qualify_tools] using hlength
  · intro hall
    have h := htracks hall
    have hvalues : (qualify_tools sha1 tools).map Prod.snd = tools := by
      have := h.values
      simpa [qualify_tools] using this
    refine ⟨by rw [hvalues], h.nodup, fun e he => (h.keys e he).2, ?_⟩
    intro e he
    exact parse_tool_name_of_mem h.nodup he

/-! ## Names with the delimiter in them -/

/-- The digests of the raw names below. -/
def known_digest (raw : Text) : Text :=
  if raw = "s__a.b".toList then "95734b1bfba63788da152bb873b22ce8d1c20e85".toList
  else if raw = "s__a_b".toList then "3690e81238d545be2a41d5a4db3ef71c1289da59".toList
  else "4a91c71dbcb525e603159e6b9bad9dfd9397830d".toList

def known_sha1 : Sha1Hex where
  hex := known_digest
  length raw := by
    unfold known_digest
    split_ifs <;> decide +kernel
  digits raw c hc := by
    have hall : (known_digest raw).all (fun c => decide (c ∈ LOWER_HEX)) = true := by
      unfold known_digest
      split_ifs <;> decide +kernel
    exact of_decide_eq_true (List.all_eq_true.mp hall c hc)

/-- Two tools whose names are the same once they are sanitised. -/
def dot_and_underscore : List (ToolInfo Unit) :=
  [⟨"s".toList, "a_b".toList, ()⟩, ⟨"s".toList, "a.b".toList, ()⟩]

theorem dot_and_underscore_are_kept : QualifiesAll known_sha1 dot_and_underscore := by
  refine (qualifies_all_iff_all_kept known_sha1 dot_and_underscore (by decide +kernel)).mpr ?_
  refine ⟨⟨by simp, fun htaken => htaken.elim⟩, ⟨by decide +kernel, ?_⟩, trivial⟩
  intro _ u hu
  rw [List.mem_singleton] at hu
  subst hu
  decide +kernel

/-- Two servers whose tools have the same raw name `a__b__c`. -/
def shared_raw_name : List (ToolInfo Unit) :=
  [⟨"a".toList, "b__c".toList, ()⟩, ⟨"a__b".toList, "c".toList, ()⟩]

/-- The second tool is taken for a duplicate of the first. -/
theorem tool_with_a_shared_raw_name_is_lost :
    ¬ ∀ tools : List (ToolInfo Unit),
      (∀ t ∈ tools, is_valid_mcp_server_name t.server_name = true) →
      (tools.map (fun t => (t.server_name, t.tool_name))).Nodup →
      (∀ t ∈ tools, ∀ u ∈ tools, known_sha1.hex (qualified_name_raw u) =
        known_sha1.hex (qualified_name_raw t) → qualified_name_raw u = qualified_name_raw t) →
      QualifiesAll known_sha1 tools := by
  intro hall
  have hperm := (hall shared_raw_name (by decide +kernel) (by decide +kernel) (by decide +kernel)).1
  have hlength : (qualify_tools known_sha1 shared_raw_name).length = 1 := by decide +kernel
  have := hperm.length_eq
  rw [List.length_map, hlength] at this
  simp [shared_raw_name] at this

end Ecode.mcp
