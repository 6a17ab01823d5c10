import Intentd.JsonValues
import Intentd.WorkspaceFiles

/-!
# The paths of an imported workspace

An archive brings rows of many tables. They are checked to be of the workspace that is imported, and
then rewritten for the daemon that imports them. A path of the daemon they come from keeps its last
name, below the directory of the workspace, and the sandboxes get directories of their own there.
The attachment files go where the rewritten workspace row says, and before each is written it is
checked that the place is below that root.

There is no git payload, and the tree has no links. The choice of a model for a session is a
parameter.
-/
namespace Intentd.ImportedPaths
open JsonValues UnixPaths WorkspaceFiles List Option

abbrev Rows := List (String × List Json)

def tableRows (table : String) (rows : Rows) : List Json :=
  (rows.filter (·.1 = table)).flatMap (·.2)

def field (row : Json) (key : String) : String := (row.strField key).getD ""

/-! ## The scope of the rows -/

structure ScriptMonitor where
  workspaceId : String
  monitorId : String
  agentId : String
  scriptId : String
  runId : String
  state : String

/-- How the texts in a row are read, and what is decided elsewhere. -/
structure Reading where
  scriptMonitor : String → Except String ScriptMonitor
  json : String → Except String Json
  resolveImportedSelection : Json → Json

section Scope

variable (reading : Reading) (workspaceId : String) (sessionIds messageIds : List String)

def monitorInScope (row : Json) : Except String Bool := do
  let monitor ← (reading.scriptMonitor (field row "row_json")).mapError
      ("invalid imported script monitor: " ++ ·)
  return field row "workspace_id" = workspaceId && monitor.workspaceId = workspaceId &&
    monitor.monitorId = field row "id" && monitor.agentId = field row "agent_id" &&
    monitor.scriptId = field row "script_id" && monitor.runId = field row "run_id" &&
    monitor.state = field row "state" && monitor.state = "active" &&
    sessionIds.contains monitor.agentId

def notificationInScope (isJob : Bool) (row : Json) : Except String Bool := do
  let value ← (reading.json (field row (if isJob then "metadata" else "payload"))).mapError
    ("invalid imported notification: " ++ ·)
  let metadata := if isJob then value else (value.get "messageMetadata").getD .null
  return field row "workspace_id" = workspaceId && sessionIds.contains (field row "agent_id") &&
    metadata.strField "type" = some "script_monitor_wake" &&
    metadata.strField "workspaceId" = some workspaceId &&
    (metadata.strField "agentId").all (· = field row "agent_id") &&
    (metadata.strField "monitorId").any
      (fun id => field row (if isJob then "wake_id" else "id") = "script-monitor:" ++ id)

def rowInScope (table : String) (row : Json) : Except String Bool :=
  match table with
  | "workspace" => .ok (field row "id" = workspaceId)
  | "script_monitor" => monitorInScope reading workspaceId sessionIds row
  | "script_notification_job" => notificationInScope reading workspaceId sessionIds true row
  | "agent_queue_admission" => notificationInScope reading workspaceId sessionIds false row
  | "agent_message" | "agent_usage_cell" | "agent_queue" =>
    .ok (sessionIds.contains (field row "agent_id"))
  | "agent_message_payload" =>
    .ok (sessionIds.contains (field row "agent_id") && messageIds.contains (field row "message_id"))
  | "completion_watch" =>
    .ok (field row "parent_workspace_id" = workspaceId ||
      field row "child_workspace_id" = workspaceId)
  | _ => .ok (field row "workspace_id" = workspaceId)

def validateRowScope (rows : Rows) : Except String Unit :=
  let sessionIds := (tableRows "agent_session" rows).filterMap (·.strField "id")
  let messageIds := (tableRows "agent_message" rows).filterMap (·.strField "id")
  rows.forM fun t => t.2.forM fun row => do
    unless ← rowInScope reading workspaceId sessionIds messageIds t.1 row do
      throw ("archive rows/" ++ t.1 ++ ".jsonl contains a row outside workspace " ++ workspaceId ++
        " — import rejected")

end Scope

/-! ## Rewriting -/

mutual

def hasDiscussionReference : Json → Bool
  | .obj fields => fieldsHaveReference fields
  | .arr items => itemsHaveReference items
  | _ => false

def fieldsHaveReference : List (String × Json) → Bool
  | [] => false
  | (key, value) :: rest =>
    key = "discussionMessageId" || hasDiscussionReference value || fieldsHaveReference rest

def itemsHaveReference : List Json → Bool
  | [] => false
  | value :: rest => hasDiscussionReference value || itemsHaveReference rest

end

section Transform

variable (reading : Reading) (wsDir : List Char) (now : String)

def setAll (keys : List String) (value : Json) (row : Json) : Json :=
  keys.foldl (fun row key => row.insert key value) row

/-- A field that is there may get another value. -/
def update (key : String) (g : Json → Option Json) (row : Json) : Json :=
  ((row.get key).bind g).elim row (row.insert key)

def clear (key : String) : Json → Json := update key fun _ => some .null

def rewritten (value : Json) : Option Json :=
  value.asStr.bind fun path =>
    if isAbsolute path.toList then (fileName path.toList).map fun name =>
      .str (String.ofList (join wsDir name)) else none

def rewritePath (key : String) : Json → Json := update key (rewritten wsDir)

/-- The path of a workspace is its directory itself. -/
def rerooted (value : Json) : Option Json :=
  value.asStr.bind fun path => if isAbsolute path.toList then some (.str (String.ofList wsDir))
    else none

variable (row : Json)

def importedWorkspace : Json :=
  let row :=
    update "path" (rerooted wsDir)
      (rewritePath wsDir "repository_path" (rewritePath wsDir "worktree_path" row))
  let row :=
    clear "legacy_author_principal_id" (clear "owner_principal_id" (clear "browser_client_id" row))
  let row := if row.strField "status" = some "Retired" then
    (row.insert "status" (.str "Archived")).insert "archived" (.num "1") else row
  clear "retired_at" row

def inFlightStatuses : List String := ["active", "Processing", "Waiting"]

/-- A session and, if its agent was in flight, the agent with its status. -/
def importedSession : Json × Option (String × String) :=
  let row := setAll ["acp_session_id", "backend_session_id"] .null row
  let row :=
    setAll ["is_active", "message_count", "assistant_message_count", "conversation_bytes"]
      (.num "0") row
  let row := reading.resolveImportedSelection row
  let status := field row "status"
  if status ∈ inFlightStatuses then
    let reason :=
      "workspace was transferred while the agent was responding (previous status: " ++ status ++ ")"
    (((row.insert "status" (.str "idle")).insert "stop_reason" (.str reason)).insert
      "stop_reason_timestamp" (.str now), some (field row "id", status))
  else (row, none)

def sandboxDir (agent : String) : List Char := join (join wsDir "sandboxes".toList) agent.toList

def slug (path : String) : List Char := (fileName path.toList).getD "repo".toList

def importedSandbox : Json :=
  update "path" (fun value => value.asStr.map fun path =>
    .str (String.ofList (join (sandboxDir wsDir (field row "agent_id")) (slug path)))) row

def importedScript : Json :=
  ((rewritePath wsDir "cwd" row).insert "was_running" (.num "0")).insert "remote_author" .null

/-- How the objects of a table are rewritten, if they are. -/
def rewriting : String → Option (Json → Json)
  | "workspace_discussion_conversation" =>
    some (setAll ["first_principal_id", "first_client_message_id"] .null)
  | "workspace_discussion_message" => some fun row =>
    setAll ["agent_activity_json", "principal_mentions_json"] (.str "[]")
      (setAll ["principal_id", "agent_id"] .null row)
  | "discussion_participant" => some (setAll ["principal_id"] .null)
  | "discussion_reaction" => some (setAll ["principal_id", "agent_id"] .null)
  | "workspace" => some (importedWorkspace wsDir)
  | "agent_session" => some fun row => (importedSession reading now row).1
  | "sandbox" => some (importedSandbox wsDir)
  | "script" => some (importedScript wsDir)
  | _ => none

def expectObject (table : String) (row : Json) : Except String Json :=
  if row.asObj.isSome then .ok row else .error (table ++ " row is not a JSON object")

def rewriteObjects (table : String) (objects : List Json) : Except String (List Json) :=
  match rewriting reading wsDir now table with
  | none => .ok objects
  | some f => objects.mapM fun row => f <$> expectObject table row

structure Transformed where
  interrupted : List (String × String)
  out : Rows
  existing : List Json

def interruptions (t : String × List Json) : List (String × String) :=
  if t.1 = "agent_session" then t.2.filterMap fun row => (importedSession reading now row).2
  else []

def discusses : Bool :=
  (row.strField "payload").any fun text => (reading.json text).toOption.any hasDiscussionReference

def transformTable (acc : Transformed) (t : String × List Json) : Except String Transformed :=
  match t.1 with
  | "draft" | "discussion_agent_grant" | "discussion_agent_delivery"
  | "discussion_agent_activity" => .ok acc
  | "interrupted_agent" => .ok { acc with existing := t.2 }
  | "agent_queue" =>
    .ok { acc with out := acc.out ++ [(t.1, t.2.filter fun row => !discusses reading row)] }
  | table => do
    let objects ← rewriteObjects reading wsDir now table t.2
    return ⟨acc.interrupted ++ interruptions reading now t, acc.out ++ [(table, objects)],
      acc.existing⟩

/-- The first row of an agent is replaced, or a row is added. -/
def putRow (agent : String) (row : Json) : List Json → List Json
  | [] => [row]
  | r :: rest =>
    if r.strField "agent_id" = some agent then row :: rest else r :: putRow agent row rest

variable (workspaceId : String)

def interruptedRow (agent status : String) : Json :=
  .obj [("agent_id", .str agent), ("workspace_id", .str workspaceId), ("prev_status", .str status),
    ("interrupted_at", .str now), ("resolution", .str "pending"), ("resolved_at", .null)]

def mergeInterrupted (existing : List Json) (interrupted : List (String × String)) : List Json :=
  let pending := existing.filterMap fun r =>
    if r.strField "resolution" = some "pending" then r.strField "agent_id" else none
  (interrupted.foldl (fun (acc : List String × List Json) i =>
    if i.1 = "" ∨ i.1 ∈ acc.1 then acc
    else (i.1 :: acc.1, putRow i.1 (interruptedRow now workspaceId i.1 i.2) acc.2))
      (pending, existing)).2

def transformRows (targetRoot : List Char) (rows : Rows) : Except String Rows := do
  let acc ← rows.foldlM (transformTable reading (join targetRoot workspaceId.toList) now)
      ⟨[], [], []⟩
  return acc.out ++
    [("interrupted_agent", mergeInterrupted now workspaceId acc.existing acc.interrupted)]

/-- What a commit does with the rows of an archive before it stores them. The authors of messages
and comments, which it prepares in between, are left out. -/
def importRows (targetRoot : List Char) (rows : Rows) : Except String Rows := do
  validateRowScope reading workspaceId rows
  transformRows reading now workspaceId targetRoot rows

end Transform

/-! ## Attachments -/

/-- A tree without links: a place is found under the name it has. -/
structure PlainDisk extends Disk where
  linkFree : ∀ path place, canonicalize path = some place → place = resolve path

/-- The working directory, and calls that change the tree or fail. -/
structure Os where
  cwd : Place
  createDirAll : PlainDisk → Place → Except String PlainDisk
  write : PlainDisk → Place → Except String PlainDisk

/-- The directory an attachment goes to, and its name there. -/
def destination (os : Os) (disk : PlainDisk) (root storedPath : List Char) (escapes : String) :
    Except String (PlainDisk × Place × List Char) := do
  let disk ← (os.createDirAll disk (located os.cwd root)).mapError
      ("create workspace root failed: " ++ ·)
  let dest ← (resolveWithin disk.toDisk os.cwd root storedPath).mapError fun _ => escapes
  let name ← orFail escapes dest.getLast?
  let canonRoot ← orFail "canonicalize workspace root failed"
      (disk.canonicalize (located os.cwd root))
  let existing ← orFail escapes (deepestExisting disk.toDisk (fun _ => false) dest.dropLast.reverse)
  require (canonRoot.isPrefixOf existing) escapes
  let disk ← (os.createDirAll disk dest.dropLast).mapError ("create attachments dir failed: " ++ ·)
  let parent ← orFail "canonicalize attachments dir failed" (disk.canonicalize dest.dropLast)
  require (canonRoot.isPrefixOf parent) escapes
  return (disk, parent, name)

def marker : List Char := ".gitignore".toList

/-- The files that are written for an attachment, its marker among them, and how that ends. -/
def placeAttachment (os : Os) (disk : PlainDisk) (root storedPath : List Char) (escapes : String) :
    List Place × Except String PlainDisk :=
  match destination os disk root storedPath escapes with
  | .error e => ([], .error e)
  | .ok (disk, parent, name) =>
    if disk.isPresent (parent ++ [marker]) then
      ([parent ++ [name]], os.write disk (parent ++ [name]))
    else match os.write disk (parent ++ [marker]) with
      | .error e => ([parent ++ [marker]], .error ("write attachments marker failed: " ++ e))
      | .ok disk =>
        ([parent ++ [marker], parent ++ [name]], os.write disk (parent ++ [name]))

/-- Of several rows with one id the last counts. -/
def storedPath (rows : Rows) (id : String) : Option String :=
  (tableRows "attachments" rows).reverse.findSome? fun row =>
    if row.strField "id" = some id then row.strField "stored_path" else none

def workspaceRoot (rows : Rows) : Option String :=
  ((rows.find? (·.1 = "workspace")).bind (·.2.head?)).bind fun row =>
    ["worktree_path", "repository_path", "path"].findSome? fun key =>
      (row.strField key).filter (· ≠ "")

/-- Every entry of the staged directory that a row knows is placed. An entry is missing where the
directory cannot be read on. -/
def materializeImportedAttachments (os : Os) (rows : Rows) :
    List (Option String) → PlainDisk → List Place × Except String Unit
  | [], _ => ([], .ok ())
  | none :: _, _ => ([], .error "read staged attachments dir failed")
  | some id :: entries, disk => match storedPath rows id with
    | none => materializeImportedAttachments os rows entries disk
    | some stored => match workspaceRoot rows with
      | none => ([], .error ("archive carries attachment " ++ id ++
          " but the workspace row resolves no filesystem root to place it under"))
      | some root =>
          match placeAttachment os disk root.toList stored.toList
            ("attachment " ++ id ++ " stored_path " ++
          stored.quote ++ " escapes the workspace root — import rejected") with
        | (written, .error e) => (written, .error e)
        | (written, .ok disk) =>
          let rest := materializeImportedAttachments os rows entries disk
          (written ++ rest.1, rest.2)

/-! ## Where the paths lead -/

/-- What a column holds leads to a place at or below a directory, if it starts at the root. -/
def Below (dir : Place) (value : Option Json) : Prop :=
  ∀ text, value = some (.str text) → isAbsolute text.toList = true →
    dir <+: resolve (names text.toList)

def pathColumns : List (String × String) :=
  [("workspace", "worktree_path"), ("workspace", "repository_path"), ("workspace", "path"),
    ("sandbox", "path"), ("script", "cwd")]

def Contained (dir : Place) (rows : Rows) : Prop :=
  ∀ column ∈ pathColumns, ∀ row ∈ tableRows column.1 rows, Below dir (row.get column.2)

/-- A path without a last name is kept as it is. -/
def Kept (dir : Place) (value : Option Json) : Prop :=
  ∀ text, value = some (.str text) → isAbsolute text.toList = true → fileName text.toList = none →
    dir <+: resolve (names text.toList)

/-- The id of its agent does not lead a sandbox out of the directory, or leads it right back. -/
def SandboxKept (cwd dir : Place) (wsDir : List Char) (row : Json) : Prop :=
  ∀ path, row.get "path" = some (.str path) →
    isAbsolute (sandboxDir wsDir (field row "agent_id")) = true →
    dir <+: resolve (located cwd (sandboxDir wsDir (field row "agent_id"))) ∨
      resolve (located cwd (sandboxDir wsDir (field row "agent_id"))) ++ [slug path] = dir

structure PathsKept (cwd dir : Place) (wsDir : List Char) (rows : Rows) : Prop where
  workspaces : ∀ row ∈ tableRows "workspace" rows, Kept dir (row.get "worktree_path") ∧
    Kept dir (row.get "repository_path")
  scripts : ∀ row ∈ tableRows "script" rows, Kept dir (row.get "cwd")
  sandboxes : ∀ row ∈ tableRows "sandbox" rows, SandboxKept cwd dir wsDir row

section Columns

variable {reading : Reading} {wsDir : List Char} {now table key other : String}
  {f : Json → Json} {row : Json}
  {rows out : Rows} {cwd : Place} {workspaceId : String} {targetRoot : List Char}
  {g : Json → Option Json} {value : Option Json} {objects' : List Json}

theorem mapM_expectObject {objects : List Json}
    (h : (objects.mapM fun row => f <$> expectObject table row) = .ok objects') :
    objects' = objects.map f := by
  induction objects generalizing objects' with
  | nil => cases h; rfl
  | cons row objects ih =>
    rw [mapM_cons] at h
    obtain ⟨first, hf, h⟩ := bind_ok h
    obtain ⟨rest, hr, h⟩ := bind_ok h
    cases h
    rw [expectObject] at hf
    split_ifs at hf
    · cases hf
      rw [ih hr, map_cons]
    · cases hf

/-- The tables that are dropped, filtered or put together anew. -/
def altered : List String :=
  ["draft", "discussion_agent_grant", "discussion_agent_delivery", "discussion_agent_activity",
    "interrupted_agent", "agent_queue"]

/-- A table with its rows rewritten. -/
def rewrittenTable (reading : Reading) (wsDir : List Char) (now : String) (t : String × List Json) :
    String × List Json :=
  (t.1, t.2.map ((rewriting reading wsDir now t.1).getD id))

theorem rewriteObjects_ok {objects : List Json}
    (h : rewriteObjects reading wsDir now table objects = .ok objects') :
    objects' = objects.map ((rewriting reading wsDir now table).getD id) := by
  rw [rewriteObjects] at h
  cases hf : rewriting reading wsDir now table with
  | none =>
    rw [hf] at h
    cases h
    exact (map_id _).symm
  | some f =>
    rw [hf] at h
    exact mapM_expectObject h

theorem transformTable_tables {acc acc' : Transformed} {t : String × List Json}
    (hs : table ∉ altered) (h : transformTable reading wsDir now acc t = .ok acc') :
    acc'.out.filter (·.1 = table) = acc.out.filter (·.1 = table) ++
      ([t].filter (·.1 = table)).map (rewrittenTable reading wsDir now) := by
  rw [transformTable] at h
  split at h
  case h_1 ht | h_2 ht | h_3 ht | h_4 ht | h_5 ht =>
    cases h
    have hne : t.1 ≠ table := by
      rintro rfl
      exact hs (by simp [ht, altered])
    simp [hne]
  case h_6 ht =>
    cases h
    have hne : t.1 ≠ table := by
      rintro rfl
      exact hs (by simp [ht, altered])
    simp [hne]
  · obtain ⟨objects, ho, hacc⟩ := bind_ok h
    cases hacc
    by_cases ht : t.1 = table
    · simp [ht, rewrittenTable, rewriteObjects_ok ho]
    · simp [ht]

theorem get_update (other : String) (g : Json → Option Json) (row : Json) :
    (update key g row).get other = if other = key then (row.get key).map fun v =>
      (g v).getD v else row.get other := by
  cases row with
  | obj fields =>
    cases hkey : Fields.get key fields with
    | none => by_cases h : other = key <;> simp [update, Json.get, hkey, h]
    | some v => cases hg : g v <;> by_cases h : other = key <;>
        simp [update, Json.get, Json.insert, hkey, hg, h, Fields.get_insert]
  | null | bool | num | str | arr => simp [update, Json.get]

theorem get_importedWorkspace (key : String)
    (h : key ∈ ["worktree_path", "repository_path", "path"]) :
    (importedWorkspace wsDir row).get key = (row.get key).map fun v =>
        ((if key = "path" then rerooted wsDir else rewritten wsDir) v).getD v := by
  simp only [mem_cons, not_mem_nil, or_false] at h
  simp only [importedWorkspace]
  split_ifs <;> rcases h with rfl | rfl | rfl <;> simp_all [clear, rewritePath, get_update,
    Json.get_insert_ne]

/-- Only absolute paths are changed, and they then lead below the directory. -/
def Leads (cwd : Place) (wsDir : List Char) (g : Json → Option Json) : Prop :=
  ∀ v v', g v = some v' → ∃ came path, v = .str came ∧ isAbsolute came.toList = true ∧
    v' = .str (String.ofList path) ∧ (wsDir ≠ [] → path ≠ []) ∧
    resolve (located cwd wsDir) <+: resolve (located cwd path)

theorem leads_rewritten : Leads cwd wsDir (rewritten wsDir) := by
  intro v v' hv
  obtain ⟨came, hc, hv⟩ := bind_eq_some_iff.mp hv
  split_ifs at hv with ha
  obtain ⟨name, hn, rfl⟩ := map_eq_some_iff.mp hv
  exact ⟨came, _, Json.asStr_eq_some.mp hc, ha, rfl, fun hw => join_ne_nil (.inl hw),
    (Plain.of_fileName hn).resolve_join cwd wsDir ▸ prefix_append _ _⟩

theorem leads_rerooted : Leads cwd wsDir (rerooted wsDir) := by
  intro v v' hv
  obtain ⟨came, hc, hv⟩ := bind_eq_some_iff.mp hv
  split_ifs at hv with ha
  cases hv
  exact ⟨came, _, Json.asStr_eq_some.mp hc, ha, rfl, id, prefix_rfl⟩

theorem leads_column :
    Leads cwd wsDir (if key = "path" then rerooted wsDir else rewritten wsDir) := by
  split_ifs
  · exact leads_rerooted
  · exact leads_rewritten

theorem Leads.cases {text : String} (hg : Leads cwd wsDir g)
    (h : (value.map fun v => (g v).getD v) = some (.str text)) :
    resolve (located cwd wsDir) <+: resolve (located cwd text.toList) ∨ value = some (.str text) ∧
      g (.str text) = none := by
  obtain ⟨v, rfl, hv⟩ := map_eq_some_iff.mp h
  cases hgv : g v with
  | none =>
    obtain rfl : v = .str text := by simpa [hgv] using hv
    exact .inr ⟨rfl, hgv⟩
  | some v' =>
    obtain ⟨_, path, -, -, rfl, -, hp⟩ := hg v v' hgv
    obtain rfl : String.ofList path = text := by simpa [hgv] using hv
    exact .inl (by rwa [String.toList_ofList])

theorem Leads.below (hg : Leads cwd wsDir g)
    (hk : ∀ text, value = some (.str text) → g (.str text) = none →
      Below (resolve (located cwd wsDir)) (some (.str text))) :
    Below (resolve (located cwd wsDir)) (value.map fun v => (g v).getD v) := by
  intro text ht ha
  rcases hg.cases ht with hnew | ⟨hold, hn⟩
  · rwa [located, located, if_pos ha, ← located] at hnew
  · exact hk text hold hn text rfl ha

theorem rewritten_below :
    Below (resolve (located cwd wsDir)) (value.map fun v => (rewritten wsDir v).getD v) ↔
      Kept (resolve (located cwd wsDir)) value := by
  constructor
  · rintro h text rfl ha hn
    exact h text (by simp [rewritten, Json.asStr, hn]) ha
  · refine fun h => leads_rewritten.below fun text ht hno => ?_
    rintro _ ⟨⟩ ha
    exact h text ht ha (by simpa [rewritten, Json.asStr, ha] using hno)

theorem rerooted_below :
    Below (resolve (located cwd wsDir)) (value.map fun v => (rerooted wsDir v).getD v) := by
  refine leads_rerooted.below fun text _ hn => ?_
  rintro _ ⟨⟩ ha
  simp [rerooted, Json.asStr, ha] at hn

theorem plain_slug (path : String) : Plain (slug path) := by
  rw [slug]
  cases h : fileName path.toList with
  | some name => exact .of_fileName h
  | none => exact ⟨by decide, by decide, by decide, by decide⟩

theorem sandbox_below :
    Below (resolve (located cwd wsDir)) ((importedSandbox wsDir row).get "path") ↔
    SandboxKept cwd (resolve (located cwd wsDir)) wsDir row := by
  have hne : sandboxDir wsDir (field row "agent_id") ≠ [] :=
    join_ne_nil (.inl (join_ne_nil (.inr (by decide))))
  rw [importedSandbox, get_update, if_pos rfl, SandboxKept]
  generalize sandboxDir wsDir (field row "agent_id") = dir at hne ⊢
  cases row.get "path" with
  | none => exact iff_of_true (fun _ h => by cases h) fun _ h => by cases h
  | some value => cases value with
    | str path =>
      have ha : isAbsolute (join dir (slug path)) = isAbsolute dir := by
        rw [isAbsolute_join hne, (plain_slug path).isAbsolute, Bool.or_false]
      have hp (h : isAbsolute dir = true) :
          resolve (names (join dir (slug path))) = resolve (located cwd dir) ++ [slug path] := by
        rw [← (plain_slug path).resolve_join, located, ha, if_pos h]
      constructor
      · rintro h _ ⟨⟩ hdir
        have hb := h _ rfl (by rw [String.toList_ofList, ha, hdir])
        rw [String.toList_ofList, hp hdir] at hb
        exact (prefix_concat_iff.mp hb).symm.imp_right Eq.symm
      · rintro h _ ⟨⟩ hdir
        rw [String.toList_ofList] at hdir ⊢
        rw [ha] at hdir
        rw [hp hdir]
        rcases h path rfl hdir with h | h
        · exact h.trans (prefix_append _ _)
        · exact ⟨[], by rw [append_nil, h]⟩
    | null | bool | num | arr | obj =>
      exact iff_of_true (fun _ h => by cases h) fun _ h => by cases h

theorem findSome?_rel {α β γ : Type} {r : β → γ → Prop} {f : α → Option β} {g : α → Option γ}
    (l : List α) (h : ∀ a ∈ l, Option.Rel r (f a) (g a)) :
    Option.Rel r (l.findSome? f) (l.findSome? g) := by
  induction l with
  | nil => exact .none
  | cons a l ih =>
    have ha := h a mem_cons_self
    rw [findSome?_cons, findSome?_cons]
    revert ha
    generalize f a = x, g a = y
    rintro (hr | _)
    · exact .some hr
    · exact ih fun b hb => h b (mem_cons_of_mem _ hb)

/-- A root is as it came, or was absolute and leads below the directory. -/
def Rerooted (cwd : Place) (wsDir : List Char) (came root : String) : Prop :=
  root = came ∨ isAbsolute came.toList = true ∧
      resolve (located cwd wsDir) <+: resolve (located cwd root.toList)

theorem rerooted_column (hw : wsDir ≠ []) (row : Json)
    (hkey : key ∈ ["worktree_path", "repository_path", "path"]) :
    Option.Rel (Rerooted cwd wsDir) ((row.strField key).filter (· ≠ ""))
      (((importedWorkspace wsDir row).strField key).filter (· ≠ "")) := by
  have hsame (x : Option String) : Option.Rel (Rerooted cwd wsDir) x x := by
    cases x with
    | none => exact .none
    | some text => exact .some (.inl rfl)
  rw [Json.strField, Json.strField, get_importedWorkspace key hkey]
  cases hv : row.get key with
  | none => exact .none
  | some v =>
    rw [map_some, bind_some, bind_some]
    cases hg : (if key = "path" then rerooted wsDir else rewritten wsDir) v with
    | none => exact hsame _
    | some v' =>
      obtain ⟨came, path, rfl, ha, rfl, hp, hl⟩ := (leads_column : Leads cwd _ _) v v' hg
      have hc : came ≠ "" := by
        rintro rfl
        cases ha
      have hne : String.ofList path ≠ "" := by simpa [← String.toList_inj] using hp hw
      rw [getD_some, Json.asStr, Json.asStr, filter_some, filter_some, if_pos (by simpa using hc),
        if_pos (by simpa using hne)]
      exact .some (.inr ⟨ha, by rwa [String.toList_ofList]⟩)

variable (h : transformRows reading now workspaceId targetRoot rows = .ok out)
include h

theorem transformRows_tables (hs : table ∉ altered) :
    out.filter (·.1 = table) = (rows.filter (·.1 = table)).map
      (rewrittenTable reading (join targetRoot workspaceId.toList) now) := by
  obtain ⟨acc, hacc, hout⟩ := bind_ok h
  have hfo (start : Transformed)
      (hrun : rows.foldlM (transformTable reading (join targetRoot workspaceId.toList) now) start =
        .ok acc) :
      acc.out.filter (·.1 = table) = start.out.filter (·.1 = table) ++
        (rows.filter (·.1 = table)).map
          (rewrittenTable reading (join targetRoot workspaceId.toList) now) := by
    clear hout hacc h
    induction rows generalizing start with
    | nil => cases hrun; simp
    | cons t rows ih =>
      obtain ⟨next, hn, hr⟩ := bind_ok hrun
      rw [ih next hr, transformTable_tables hs hn, append_assoc, ← map_append, ← filter_append,
        singleton_append]
  have hne : "interrupted_agent" ≠ table := by
    rintro rfl
    exact hs (by decide)
  cases hout
  rw [filter_append, hfo _ hacc]
  simp [hne]

theorem transformRows_table (hs : table ∉ altered) :
    tableRows table out = (tableRows table rows).map
      ((rewriting reading (join targetRoot workspaceId.toList) now table).getD id) := by
  rw [tableRows, transformRows_tables h hs, tableRows, flatMap_map, map_flatMap]
  refine flatMap_congr fun t ht => ?_
  rw [← of_decide_eq_true (mem_filter.mp ht).2]
  rfl

/-- The paths of the rewritten rows are below the directory just where those that are kept are. -/
theorem contained_iff :
    Contained (resolve (located cwd (join targetRoot workspaceId.toList))) out ↔
      PathsKept cwd (resolve (located cwd (join targetRoot workspaceId.toList)))
        (join targetRoot workspaceId.toList) rows := by
  have hwo : tableRows "workspace" out = (tableRows "workspace" rows).map (importedWorkspace _) :=
    transformRows_table h (by decide)
  have hsc : tableRows "script" out = (tableRows "script" rows).map (importedScript _) :=
    transformRows_table h (by decide)
  have hsa : tableRows "sandbox" out = (tableRows "sandbox" rows).map (importedSandbox _) :=
    transformRows_table h (by decide)
  have hcwd (row : Json) : (importedScript (join targetRoot workspaceId.toList) row).get "cwd" =
      (row.get "cwd").map fun v => (rewritten (join targetRoot workspaceId.toList) v).getD v := by
    rw [importedScript, Json.get_insert_ne (by decide), Json.get_insert_ne (by decide), rewritePath,
      get_update, if_pos rfl]
  simp only [Contained, pathColumns, forall_mem_cons, hwo, hsc, hsa, List.forall_mem_map, hcwd,
    get_importedWorkspace "worktree_path" (by decide),
      get_importedWorkspace "repository_path" (by decide),
    get_importedWorkspace "path" (by decide), String.reduceEq, if_true, if_false, rewritten_below,
    rerooted_below, sandbox_below]
  constructor
  · rintro ⟨hw, hr, -, hs, hc, -⟩
    exact ⟨fun row hrow => ⟨hw row hrow, hr row hrow⟩, hc, hs⟩
  · rintro ⟨hw, hc, hs⟩
    exact ⟨fun row hrow => (hw row hrow).1, fun row hrow => (hw row hrow).2, fun _ _ => trivial,
      hs, hc, by simp⟩

/-! ## The root of the attachments -/

/-- The placement picks the root from the column it would have picked it from before. -/
theorem rerooted_root (hw : join targetRoot workspaceId.toList ≠ []) :
    Option.Rel (Rerooted cwd (join targetRoot workspaceId.toList)) (workspaceRoot rows)
      (workspaceRoot out) := by
  have hs : "workspace" ∉ altered := by decide
  have htables := transformRows_tables h hs
  rw [workspaceRoot, workspaceRoot, ← head?_filter, ← head?_filter, htables, head?_map]
  cases ht : (rows.filter (·.1 = "workspace")).head? with
  | none => exact .none
  | some t =>
    have hta := of_decide_eq_true (mem_filter.mp (mem_of_head? ht)).2
    rw [map_some, bind_some, bind_some, rewrittenTable, hta, head?_map]
    cases t.2.head? with
    | none => exact .none
    | some row => exact findSome?_rel _ fun key hkey => rerooted_column hw row hkey

theorem storedPath_out (id : String) : storedPath out id = storedPath rows id := by
  have hs : "attachments" ∉ altered := by decide
  have htable := transformRows_table h hs
  rw [storedPath, htable, storedPath]
  exact congrArg (fun l : List Json => l.reverse.findSome? _) (map_id _)

end Columns

section Attachments

variable {os : Os} {disk disk' : PlainDisk} {root stored name : List Char} {escapes : String}
  {rows : Rows} {cwd full parent place : Place} {α : Type} {a : α} {message : String}

/-- Nothing is within a root that is not given from the root of the tree on, if it has a name at
all. -/
theorem isWithin_of_relative (hro : isAbsolute root = false)
    (hn : ∃ c ∈ root, isSeparator c = false) : isWithin root full = false := by
  have ht := trimmed_ne_nil hn
  have hnil : root ≠ [] := by
    rintro rfl
    exact ht rfl
  obtain ⟨first, trimmed, hf⟩ := exists_cons_of_ne_nil ht
  obtain ⟨rest, hre⟩ := root.rdropWhile_prefix isSeparator
  rw [hf, cons_append] at hre
  have hs : first ≠ '/' := by
    rintro rfl
    rw [← hre] at hro
    cases hro
  have hr : (render full).head? = some '/' := eq_of_beq (isAbsolute_render full)
  rw [isWithin, if_neg hnil, if_neg ht, hf]
  cases hp : render full with
  | nil => rfl
  | cons c more =>
    rw [hp] at hr
    cases hr
    simp [hs]

theorem mapError_ok {x : Except String α} {g : String → String} (h : x.mapError g = .ok a) :
    x = .ok a := by
  cases x with
  | error e => cases h
  | ok b => cases h; rfl

/-- The place where an attachment is placed by its names, below the root that it is given. -/
structure Lands (cwd : Place) (root stored : List Char) (parent : Place) (name : List Char) :
    Prop where
  dest : nodeResolve cwd root stored = parent ++ [name]
  below : resolve (located cwd root) <+: parent
  within : isWithin root (parent ++ [name]) = true

theorem Lands.notMem (h : Lands cwd root stored parent name) : dotDot ∉ parent ++ [name] :=
  h.dest ▸ dotDot_notMem_resolve _

theorem destination_lands
    (h : destination os disk root stored escapes = .ok (disk', parent, name)) :
    Lands os.cwd root stored parent name := by
  obtain ⟨disk₁, -, h⟩ := bind_ok h
  obtain ⟨dest, hd, h⟩ := bind_ok h
  obtain ⟨last, hl, h⟩ := bind_ok h
  obtain ⟨canonRoot, hr, h⟩ := bind_ok h
  obtain ⟨existing, -, h⟩ := bind_ok h
  obtain ⟨_, -, h⟩ := bind_ok h
  obtain ⟨disk₂, -, h⟩ := bind_ok h
  obtain ⟨canonical, hc, h⟩ := bind_ok h
  obtain ⟨_, hb, h⟩ := bind_ok h
  obtain ⟨_, hw, hd⟩ := bind_ok (mapError_ok hd)
  obtain ⟨_, -, hd⟩ := bind_ok hd
  cases h
  cases hd
  -- a resolved place is found under its own names
  have hp : parent = (nodeResolve os.cwd root stored).dropLast := by
    rw [disk'.linkFree _ _ (orFail_ok hc), resolve_of_notMem]
    exact fun hmem => dotDot_notMem_resolve _ (dropLast_subset _ hmem)
  have hdest : nodeResolve os.cwd root stored = parent ++ [name] := by
    rw [hp, dropLast_append_getLast? _ (orFail_ok hl)]
  refine ⟨hdest, ?_, hdest ▸ require_ok hw⟩
  rw [← disk₁.linkFree _ _ (orFail_ok hr)]
  exact isPrefixOf_iff_prefix.mp (require_ok hb)

theorem placeAttachment_lands (h : place ∈ (placeAttachment os disk root stored escapes).1) :
    ∃ parent name, Lands os.cwd root stored parent name ∧
      place ∈ [parent ++ [marker], parent ++ [name]] := by
  rw [placeAttachment] at h
  split at h
  · cases h
  · rename_i disk' parent name hd
    refine ⟨parent, name, destination_lands hd, ?_⟩
    split_ifs at h
    · exact mem_cons_of_mem _ h
    · split at h
      · exact mem_cons.mpr (.inl (mem_singleton.mp h))
      · exact h

theorem materialize_lands (entries : List (Option String))
    (h : place ∈ (materializeImportedAttachments os rows entries disk).1) :
    ∃ root id stored parent name, workspaceRoot rows = some root ∧
      storedPath rows id = some stored ∧ Lands os.cwd root.toList stored.toList parent name ∧
      place ∈ [parent ++ [marker], parent ++ [name]] := by
  induction entries generalizing disk with
  | nil => cases h
  | cons entry entries ih =>
    cases entry with
    | none => cases h
    | some id =>
      rw [materializeImportedAttachments] at h
      split at h
      · exact ih h
      · rename_i stored hs
        split at h
        · cases h
        · rename_i root hr
          split at h
          · rename_i hp
            obtain ⟨parent, name, hpl⟩ := placeAttachment_lands (by rw [hp]; exact h)
            exact ⟨root, id, stored, parent, name, hr, hs, hpl⟩
          · rename_i hp
            rcases mem_append.mp h with h | h
            · obtain ⟨parent, name, hpl⟩ := placeAttachment_lands (by rw [hp]; exact h)
              exact ⟨root, id, stored, parent, name, hr, hs, hpl⟩
            · exact ih h

/-- Every place is found, and nothing is there yet. -/
def bareDisk : PlainDisk where
  canonicalize path := some (resolve path)
  isPresent _ := false
  linkFree _ _ h := (Option.some.inj h).symm

/-- No call fails. -/
def willing (cwd : Place) : Os where
  cwd := cwd
  createDirAll disk _ := .ok disk
  write disk _ := .ok disk

theorem deepestExisting_bare {stop : Place → Bool} (hn : dotDot ∉ full) :
    deepestExisting bareDisk.toDisk stop full.reverse = some full := by
  exact deepestExisting_of_found (d := bareDisk.toDisk) (congrArg some (resolve_of_notMem hn))

theorem Lands.destination (h : Lands cwd root stored parent name) :
    destination (willing cwd) bareDisk root stored escapes = .ok (bareDisk, parent, name) := by
  have hparent : dotDot ∉ parent := fun hmem => h.notMem (mem_append_left _ hmem)
  have hpre : (resolve (located cwd root)).isPrefixOf parent = true :=
    isPrefixOf_iff_prefix.mpr h.below
  have hpre' : (resolve (located cwd root)).isPrefixOf (parent ++ [name]) = true :=
    isPrefixOf_iff_prefix.mpr (h.below.trans (prefix_append _ _))
  have hgate : enforceSymlinkContainment bareDisk.toDisk cwd root (parent ++ [name]) = .ok () := by
    rw [enforceSymlinkContainment, deepestExisting_bare h.notMem]
    split_ifs
    · rfl
    · exact if_pos hpre'
  have hwithin : resolveWithin bareDisk.toDisk cwd root stored = .ok (parent ++ [name]) := by
    rw [resolveWithin, h.dest, h.within, hgate]
    rfl
  have hexisting : deepestExisting bareDisk.toDisk (fun _ => false) parent.reverse = some parent :=
    deepestExisting_bare hparent
  have hcanonical : bareDisk.canonicalize parent = some parent :=
    congrArg some (resolve_of_notMem hparent)
  have hroot : bareDisk.canonicalize (located cwd root) = some (resolve (located cwd root)) := rfl
  simp only [ImportedPaths.destination, willing, Except.mapError, bind, Except.bind, hwithin,
    getLast?_concat, dropLast_concat, orFail, require, hexisting, hcanonical, hroot, hpre, if_true,
    pure, Except.pure]

theorem Lands.written {root stored id : String}
    (h : Lands cwd root.toList stored.toList parent name)
    (hr : workspaceRoot rows = some root) (hs : storedPath rows id = some stored) :
    (materializeImportedAttachments (willing cwd) rows [some id] bareDisk).1 =
      [parent ++ [marker], parent ++ [name]] := by
  rw [materializeImportedAttachments, hs, hr]
  simp only [placeAttachment, h.destination]
  rfl

theorem workspaceRoot_column {root : String} (h : workspaceRoot rows = some root) : root ≠ "" ∧
    ∃ row ∈ tableRows "workspace" rows, ∃ key ∈ ["worktree_path", "repository_path", "path"],
      row.get key = some (.str root) := by
  obtain ⟨row, hrow, hkey⟩ := bind_eq_some_iff.mp h
  obtain ⟨t, ht, hf⟩ := bind_eq_some_iff.mp hrow
  obtain ⟨key, hmem, hv⟩ := exists_of_findSome?_eq_some hkey
  obtain ⟨hv, hne⟩ := filter_eq_some_iff.mp hv
  refine ⟨by simpa using hne, row, ?_, key, hmem, Json.strField_eq_some.mp hv⟩
  have hta := find?_some ht
  exact mem_flatMap.mpr ⟨t, mem_filter.mpr ⟨mem_of_find?_eq_some ht, hta⟩, mem_of_head? hf⟩

end Attachments

/-- Where the placement picks a relative root that came as nothing but separators, the attachments
that land below it land below the directory. -/
def FilesKept (cwd dir : Place) (rows : Rows) : Prop :=
  ∀ root, workspaceRoot rows = some root → isAbsolute root.toList = false →
    (∀ c ∈ root.toList, isSeparator c = true) → ∀ id stored, storedPath rows id = some stored →
      ∀ parent name, Lands cwd root.toList stored.toList parent name →
        ∀ place ∈ [parent ++ [marker], parent ++ [name]], dir <+: place

/-- The paths of the rows stay below the directory of the workspace exactly if those that are kept
as they are lead there, and the agents' ids do not lead out. Then the files that are written for
attachments, on whatever disk, are below the directory exactly if a root of separators only, which
counts as the root of the tree, does not lead them out. -/
theorem imported_paths_contained (reading : Reading) (now : String) (cwd : Place)
    (targetRoot : List Char) (workspaceId : String) (hid : Plain workspaceId.toList)
    (rows out : Rows) (h : importRows reading now workspaceId targetRoot rows = .ok out) :
    (Contained (resolve (located cwd targetRoot) ++ [workspaceId.toList]) out ↔
      PathsKept cwd (resolve (located cwd targetRoot) ++ [workspaceId.toList])
        (join targetRoot workspaceId.toList) rows) ∧
    (PathsKept cwd (resolve (located cwd targetRoot) ++ [workspaceId.toList])
        (join targetRoot workspaceId.toList) rows → ((∀ os disk entries, os.cwd = cwd →
          ∀ place ∈ (materializeImportedAttachments os out entries disk).1,
            resolve (located cwd targetRoot) ++ [workspaceId.toList] <+: place) ↔
        FilesKept cwd (resolve (located cwd targetRoot) ++ [workspaceId.toList]) rows)) := by
  obtain ⟨_, -, h⟩ := bind_ok h
  rw [← hid.resolve_join]
  have hroot : Option.Rel (Rerooted cwd _) _ _ :=
    rerooted_root h (join_ne_nil (.inr hid.ne_nil))
  refine ⟨contained_iff h,
    fun hk => ⟨fun hall root hro hrel hsep id stored hst parent name hl => ?_,
    fun hfiles os disk entries hcwd place hp => ?_⟩⟩
  · have hout : workspaceRoot out = some root := by
      rw [hro] at hroot
      generalize workspaceRoot out = picked at hroot
      obtain @⟨_, root', hr⟩ := hroot
      rcases hr with rfl | ⟨ha, -⟩
      · rfl
      · rw [hrel] at ha
        cases ha
    rw [← hl.written hout ((storedPath_out h id).trans hst)]
    exact hall (willing cwd) bareDisk [some id] rfl
  · subst hcwd
    obtain ⟨root, id, stored, parent, name, hro, hst, hl, hplace⟩ := materialize_lands entries hp
    obtain ⟨hne, row, hrow, key, hkey, hv⟩ := workspaceRoot_column hro
    -- a root below the directory has the file below the directory
    have hbelow (hb : resolve (located os.cwd (join targetRoot workspaceId.toList)) <+:
        resolve (located os.cwd root.toList)) :
        resolve (located os.cwd (join targetRoot workspaceId.toList)) <+: place := by
      have hparent := hb.trans hl.below
      simp only [mem_cons, not_mem_nil, or_false] at hplace
      rcases hplace with rfl | rfl <;> exact hparent.trans (prefix_append _ _)
    by_cases ha : isAbsolute root.toList = true
    · refine hbelow ?_
      rw [located, located, if_pos ha, ← located]
      exact (contained_iff h).mpr hk ("workspace", key) (by grind [pathColumns]) row hrow root hv ha
    · have hrel := Bool.eq_false_iff.mpr ha
      rw [hro] at hroot
      generalize hcame : workspaceRoot rows = came at hroot
      obtain @⟨came, _, hr⟩ := hroot
      rcases hr with rfl | ⟨-, hnew⟩
      · by_cases hsep : ∀ c ∈ root.toList, isSeparator c = true
        · exact hfiles root hcame hrel hsep id stored ((storedPath_out h id).symm.trans hst) parent
            name hl place hplace
        · have hn : ∃ c ∈ root.toList, isSeparator c = false := by simpa using hsep
          cases hl.within.symm.trans (isWithin_of_relative hrel hn)
      · exact hbelow hnew

def plainReading : Reading := ⟨fun _ => .error "", fun _ => .error "", id⟩

/-- A workspace with one attachment. -/
def checkoutAt (path : String) : Rows :=
  [("workspace", [.obj [("id", .str "w"), ("worktree_path", .str path)]]),
    ("attachments", [.obj [("id", .str "a"), ("workspace_id", .str "w"),
      ("stored_path", .str "files/a.png")]])]

def placed (out : Rows) : List Place :=
  (materializeImportedAttachments (willing []) out [some "a"] bareDisk).1

theorem imported_paths_contained_checkout :
    ∃ out, importRows plainReading "" "w" "/ws".toList (checkoutAt "/src/repo") = .ok out ∧
      Contained ["ws".toList, "w".toList] out ∧
      placed out = [["ws".toList, "w".toList, "repo".toList, "files".toList, ".gitignore".toList],
        ["ws".toList, "w".toList, "repo".toList, "files".toList, "a.png".toList]] ∧
      ∀ place ∈ placed out, ["ws".toList, "w".toList] <+: place := by
  have h := imported_paths_contained plainReading "" [] "/ws".toList "w"
    ⟨by decide, by decide, by decide, by decide⟩ (checkoutAt "/src/repo") _ rfl
  have hk : PathsKept [] ["ws".toList, "w".toList] "/ws/w".toList (checkoutAt "/src/repo") := by
    refine ⟨fun row hrow => ?_, fun row hrow => (by cases hrow), fun row hrow => (by cases hrow)⟩
    obtain rfl := mem_singleton.mp hrow
    exact ⟨fun text ht _ hn => by cases ht; revert hn; decide, fun text ht => by cases ht⟩
  have hf : FilesKept [] ["ws".toList, "w".toList] (checkoutAt "/src/repo") := by
    intro root hr hrel
    obtain rfl := Option.some.inj (show some "/src/repo" = some root from hr)
    cases hrel
  exact ⟨_, rfl, h.1.mpr hk, by decide +kernel,
    (h.2 hk).mpr hf (willing []) bareDisk [some "a"] rfl⟩

/-- A checkout at the root stays there; the root `\\` is taken for a name of the working directory.
-/
theorem root_checkout_kept :
    (∃ out, importRows plainReading "" "w" "/ws".toList (checkoutAt "/") = .ok out ∧
      ¬Contained ["ws".toList, "w".toList] out) ∧
    ∃ out, importRows plainReading "" "w" "/ws".toList (checkoutAt "\\") = .ok out ∧
      ∃ place ∈ placed out, ¬["ws".toList, "w".toList] <+: place := by
  refine ⟨⟨_, rfl, fun h => ?_⟩, _, rfl, ["\\".toList, "files".toList, "a.png".toList], ?_, ?_⟩
  · have := h ("workspace", "worktree_path") (by simp [pathColumns]) _ (mem_singleton.mpr rfl) "/"
      rfl rfl
    revert this
    decide
  · decide +kernel
  · decide

end Intentd.ImportedPaths
