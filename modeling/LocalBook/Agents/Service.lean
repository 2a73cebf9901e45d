import LocalBook.Actions.Patches
import LocalBook.Index.Frontmatter
import LocalBook.Policies.Engine
import LocalBook.Recovery.Service

/-! The agent job service: a job is planned without a write, its actions are judged on what a
read of the Vault finds, and accepting it reads and judges again before the transaction. What
the planner answers is a parameter. -/
namespace LocalBook.Agents

open Effect Vault Recovery Policies

inductive TaskType where
  | dailyOrganizer
  | weeklyReview
  | manual
deriving Repr,DecidableEq

def TaskType.text : TaskType → Text
  | .dailyOrganizer => "daily_organizer".toList
  | .weeklyReview => "weekly_review".toList
  | .manual => "manual".toList

/-- `action.value`. -/
def actionText : ActionType → Text
  | .addTags => "add_tags".toList
  | .removeTags => "remove_tags".toList
  | .addLink => "add_link".toList
  | .createNote => "create_note".toList
  | .patchNote => "patch_note".toList
  | .moveNote => "move_note".toList

/-- `WORKFLOWS[task].allowed_actions`. -/
def allowedActions : TaskType → Option (List ActionType)
  | .dailyOrganizer => some [.addTags,.removeTags,.addLink,.patchNote]
  | .weeklyReview => some [.addTags,.removeTags,.addLink,.patchNote,.createNote]
  | .manual => none

/-- The scope a request declares, as far as the job service reads it. -/
structure JobScope where
  paths : List Text := []
  maxFiles : Nat := 10
  maxChars : Nat := 60000

structure JobRequest where
  taskType : TaskType := .manual
  permissionLevel : Nat := 1
  scope : JobScope := {}
  actions : List Action := []
  execute : Bool := false

/-- `_policy_view`. -/
structure PolicyView where
  decision : PolicyDecision
  matchedRules : List String
deriving DecidableEq

structure Job where
  record : HistoryRecord
  policy : Option PolicyView
deriving DecidableEq

/-- One action with its facts and the operation that would carry it out. -/
structure Prepared where
  action : Action
  facts : ActionFacts
  operation : Option TransactionOperation

structure Preflight where
  prepared : List Prepared
  filesRead : List Text
  diffs : List DiffEntry

namespace Preflight

def facts (preflight : Preflight) : List ActionFacts := preflight.prepared.map Prepared.facts

def operations (preflight : Preflight) : List (Option TransactionOperation) :=
  preflight.prepared.map Prepared.operation

end Preflight

def invalidAction (message : String) : Exc := m7 .invalidAction message.toList

def jobStateConflict (message : String) (jobId path : Option Text := none) : Exc :=
  m7 .jobStateConflict message.toList {jobId,path}

/-- An `UnsupportedPatch` is raised again as an invalid action. -/
def supported {α : Type} : Except Patches.Unsupported α → Except Exc α
  | .ok value => .ok value
  | .error message => .error (invalidAction message)

/-- `_stamp`. -/
def stamp (level : Nat) (action : Action) : Action := {action with permissionLevel := level}

/-- `_enforce_task_actions`. -/
def enforceTaskActions (task : TaskType) (actions : List Action) : Except Exc Unit :=
  match allowedActions task with
  | none => .ok ()
  | some allowed => actions.forM fun action =>
    if action.action ∈ allowed then .ok ()
    else .error (m7 .invalidActionOutput ("action ".toList ++ actionText action.action ++
      " is not allowed by ".toList ++ task.text))

section Paths

variable [Host]

def isMarkdown (path : Text) : Bool :=
  let folded := Host.casefold path
  Text.endsWith folded ".md".toList || Text.endsWith folded ".markdown".toList

omit [Host] in
/-- `path.rsplit("/", 1)[0] if "/" in path else ""`. -/
def directoryOf (path : Text) : Text := Text.join ['/'] (Text.split '/' path).dropLast

/-- `create_target_problem`, of a request. -/
def createTargetProblem (target : Text) (scopePaths : List Text) : Option String :=
  if !isMarkdown target then some "create_note target must be a Markdown file"
  else if scopePaths ≠ [] ∧ directoryOf target ∉ scopePaths.map directoryOf then
    some "create_note target is outside the request scope directory"
  else none

def outsideScope (path : Text) : Exc :=
  m7 .invalidAction (path ++ " is outside the declared scope".toList)

/-- One turn of the loop of `_assert_scope_paths`. -/
def assertScopePath (scope : JobScope) (action : Action) : Except Exc Unit :=
  let scopePaths := scope.paths.map Host.casefold
  let target := action.targetFile.getD []
  if action.action = .createNote then match createTargetProblem action.file scope.paths with
    | some problem => .error (m7 .invalidAction (problem.toList ++ ": ".toList ++ action.file))
    | none => .ok ()
  else if Host.casefold action.file ∉ scopePaths then .error (outsideScope action.file)
  else if !falsy action.targetFile ∧ Host.casefold target ∉ scopePaths then
    .error (outsideScope target)
  else .ok ()

/-- `_assert_scope_paths`. -/
def assertScopePaths (scope : JobScope) (actions : List Action) : Except Exc Unit :=
  if scope.paths = [] then .ok () else actions.forM (assertScopePath scope)

end Paths

structure AgentJobService where
  vault : VaultService
  policy : PolicyEngine
  recovery : RecoveryService
  frontmatter : Index.YamlRuntime
  protectedPrefixes : List Text
  maxJournalBytes : Nat

/-- The difference of two lengths. -/
def modified (after before : Nat) : Nat := (after - before) + (before - after)

def distinctFiles (actions : List Action) : List Text := (actions.flatMap mutatedPaths).dedup

/-- `_diff_entry`; the unified diff is a text that is only shown. -/
def diffEntry (prepared : Prepared) : Option DiffEntry :=
  let action := prepared.action
  let before := prepared.operation.bind TransactionOperation.beforeBytes
  let after := prepared.operation.bind TransactionOperation.afterBytes
  let size (data : Option Bytes) := (data.map ByteArray.size).getD 0
  match action.action with
  | .createNote => some {
      path := action.file,actionId := action.actionId,operation := .create,beforeHash := none
      afterHash := after.map sha256Bytes,beforeSize := 0,afterSize := size after}
  | .moveNote => some {
      path := action.file,actionId := action.actionId,operation := .move
      targetFile := some (action.targetFile.getD []),beforeHash := before.map sha256Bytes
      afterHash := after.map sha256Bytes,beforeSize := size before,afterSize := size after}
  | _ => before.map fun data => {
      path := action.file,actionId := action.actionId,operation := .update
      beforeHash := some (sha256Bytes data)
      afterHash := some (sha256Bytes (after.getD .empty)),beforeSize := data.size
      afterSize := size after}

/-- `_assert_no_read_failures`. -/
def noReadFailures (preflight : Preflight) : Except Exc Unit :=
  if ∀ item ∈ preflight.facts.zip preflight.diffs,
      ¬ (item.1.existing ∧ item.1.markdown = false ∧ item.2.operation = .update) then .ok ()
  else .error (invalidAction "non-Markdown files cannot be rewritten")

/-- `_select_actions`; the ids that its message lists are left out. -/
def selectActions (proposed : List Action) (requested : List Text) (jobId : Text) :
    Except Exc (List Action) :=
  if requested = [] then .ok proposed
  else if ∀ actionId ∈ requested, actionId ∈ proposed.map Action.actionId then
    .ok (proposed.filter fun action => action.actionId ∈ requested)
  else .error (m7 .invalidAction "unknown action ids".toList {jobId := some jobId})

namespace AgentJobService

variable [Host] (s : AgentJobService)

omit [Host] in
/-- `_try_read`. -/
def tryRead (path : Text) : Look (Bytes × Option Text) :=
  (s.vault.readBytes path).andThen fun
  | .ok (data,digest) => pure (data,some digest)
  | .error _ => pure (.empty,none)

/-- `_protected`. -/
def guarded (path : Text) : Bool := path ≠ [] && isProtected s.protectedPrefixes path

/-- `_tags_from_text`, in one case. -/
def currentTags (before : Text) : List Text :=
  (((Index.parseFrontmatter s.frontmatter before).map (·.tags)).getD []).map Host.casefold

omit [Host] in
/-- `_preflight_create`. -/
def preflightCreate (action : Action) (facts : ActionFacts) :
    Except Exc (ActionFacts × Option TransactionOperation) :=
  match decodeUtf8 (action.content.getD .empty) with
  | none => .error (invalidAction "create content is not valid UTF-8 text")
  | some text =>
    let facts := {facts with modifiedChars := text.length}
    if facts.existing then .ok (facts,none)
    else match action.content with
      | none => .error (invalidAction "create_note requires content")
      | some after => .ok (facts,some {
          operation := .create,path := action.file,beforeExists := false,beforeBytes := none
          beforeHash := none,afterBytes := some after,afterHash := none})

/-- `_preflight_move`. -/
def preflightMove (action : Action) (facts : ActionFacts) (data : Bytes)
    (digest : Option Text) : Look (ActionFacts × Option TransactionOperation) := do
  let target := action.targetFile.getD []
  let targetMd := !falsy action.targetFile && isMarkdown target
  let markdown := isMarkdown action.file && targetMd
  let found ← if falsy action.targetFile then pure none else (s.tryRead target).andThen fun
    | .ok (_,found) => pure found
    | .error _ => pure none
  let targetExists := !falsy found
  let facts := {facts with
    markdown,attachment := !markdown,targetExists,overwrite := targetExists}
  match action.targetFile,digest with
  | some target,some digest =>
    if !facts.existing || targetExists || !targetMd then pure (facts,none)
    else pure (facts,some {
      operation := .move,path := target,beforeExists := true,beforeBytes := some data
      beforeHash := some digest,afterBytes := some data,afterHash := some digest
      source := some action.file})
  | _,_ => pure (facts,none)

def patched (action : Action) (facts : ActionFacts) (data : Bytes) (before : Text) :
    Look (ActionFacts × Bytes) :=
  let requested := action.tags.map Host.casefold
  match action.action with
  | .addTags => do
    let after ← Proc.ofExcept (supported (Patches.addTags before action.tags))
    pure ({facts with
      duplicateTags := requested.any (· ∈ s.currentTags before)
      bodyChange := !Patches.tagsOnlyChange before after
      modifiedChars := modified after.length before.length},encodeUtf8 after)
  | .removeTags => do
    let after ← Proc.ofExcept (supported (Patches.removeTags before action.tags))
    pure ({facts with
      tagsPresent := requested.all (· ∈ s.currentTags before)
      bodyChange := !Patches.tagsOnlyChange before after
      modifiedChars := modified after.length before.length},encodeUtf8 after)
  | .addLink => match action.linkTarget with
    | none => Proc.throw (invalidAction "add_link requires a target")
    | some target => do
      let (_,found) ← s.tryRead target
      let after ← Proc.ofExcept (supported (Patches.addLink before target))
      pure ({facts with
        linkTargetExists := found.isSome,bodyChange := true
        modifiedChars := modified (encodeUtf8 after).size data.size},encodeUtf8 after)
  | .patchNote => do
    let after ← Proc.ofExcept (supported (Patches.applyHunks before action.patch))
    pure ({facts with
      bodyChange := true
      modifiedChars := modified (encodeUtf8 after).size data.size},encodeUtf8 after)
  | .createNote | .moveNote => pure (facts,data)

/-- `_preflight_update`. -/
def preflightUpdate (action : Action) (facts : ActionFacts) (data : Bytes)
    (digest : Option Text) : Look (ActionFacts × Option TransactionOperation) :=
  let markdown := isMarkdown action.file && isMarkdown (action.linkTarget.getD [])
  let facts := if action.action = .addLink then {facts with markdown,attachment := !markdown}
    else facts
  match digest with
  | none => pure (facts,none)
  | some digest =>
    if !facts.existing || facts.attachment || !facts.markdown then pure (facts,none)
    else match decodeUtf8 data with
      | none => Proc.throw (invalidAction "note is not UTF-8 text")
      | some before => do
        let (facts,after) ← s.patched action facts data before
        pure (facts,some {
          operation := .update,path := action.file,beforeExists := true
          beforeBytes := some data,beforeHash := some digest,afterBytes := some after
          afterHash := none})

/-- `_preflight_one`. -/
def preflightOne (action : Action) : Look Prepared := do
  let (data,digest) ← s.tryRead action.file
  let facts : ActionFacts := {
    existing := digest.isSome
    isProtected := s.guarded action.file || s.guarded (action.targetFile.getD []) ||
      s.guarded (action.linkTarget.getD [])
    markdown := isMarkdown action.file
    attachment := !isMarkdown action.file}
  let (facts,operation) ← match action.action with
    | .createNote => Proc.ofExcept (preflightCreate action facts)
    | .moveNote => s.preflightMove action facts data digest
    | _ => s.preflightUpdate action facts data digest
  pure {action,facts,operation}

/-- The loop of `_preflight`. -/
def preflightEach : List Action → Look (List Prepared)
  | [] => pure []
  | action :: rest => do
    let first ← s.preflightOne action
    let later ← preflightEach rest
    pure (first :: later)

/-- `_preflight`: every action is told how many files the set touches. -/
def preflight (actions : List Action) : Look Preflight := do
  let prepared ← s.preflightEach actions
  let files := distinctFiles actions
  pure {
    prepared := prepared.map fun item => {item with
      facts := {item.facts with fileCount := files.length}}
    filesRead := files.insertionSort fun a b => a ≤ b
    diffs := prepared.filterMap diffEntry}

/-- `_record_job`. -/
def recordJob (jobId : Text) (request : JobRequest) (actions : List Action)
    (preflight : Preflight) (status : JobStatus) : Sys HistoryRecord := do
  let record : HistoryRecord := {
    jobId,taskType := request.taskType.text,status,permissionLevel := request.permissionLevel
    filesRead := preflight.filesRead,proposedActions := actions,diff := preflight.diffs
    beforeHash := preflight.diffs.foldl (fun hashes diff =>
      hashes.set diff.path diff.beforeHash) []
    afterHash := preflight.diffs.foldl (fun hashes diff =>
      hashes.set diff.path diff.afterHash) []}
  Proc.raiseIf (¬ record.WithinLimits) (.value "validation error for HistoryRecord")
  History.save record
  pure record

def requestedActions (request : JobRequest) (planned : Except Exc (List Action)) :
    Except Exc (List Action) :=
  if request.actions ≠ [] then do
    validateActionSet request.actions
    let actions := request.actions.map (stamp request.permissionLevel)
    enforceTaskActions request.taskType actions
    pure actions
  else if request.taskType = .manual then
    .error (invalidAction "manual jobs require explicit actions")
  else planned.map (List.map (stamp request.permissionLevel))

/-- `_assert_preview_hashes`. -/
def assertPreviewHashes (record : HistoryRecord) : List Action → Look Unit
  | [] => pure ()
  | action :: rest =>
    match record.beforeHash.get action.file with
    | none => assertPreviewHashes record rest
    | some expected =>
      let changed := m7 .jobStateConflict
        ("file changed since the preview: ".toList ++ action.file)
        {jobId := some record.jobId,path := some action.file}
      (s.vault.readBytes action.file).andThen fun
      | .error _ => Proc.throw changed
      | .ok (_,digest) => do
        Proc.raiseIf (digest ≠ expected) changed
        assertPreviewHashes record rest

/-- `_actions_from_record`. -/
def actionsFromRecord (record : HistoryRecord) : Except Exc (List Action) :=
  match record.proposedActions.mapM Action.modelValidate with
  | .ok proposed => .ok proposed
  | .error _ => .error (invalidAction "stored actions are unreadable")

structure Review where
  selected : List Action
  preflight : Preflight
  result : PolicySetResult
  operations : List TransactionOperation

/-- The first part of `_execute_locked`, which only looks. -/
def review (job : Job) (confirm : Bool) (actionIds : List Text) : Look Review := do
  let record := job.record
  Proc.raiseIf (confirm = false)
    (m7 .confirmationRequired "Explicit confirmation is required".toList)
  Proc.raiseIf (record.status ≠ .awaitingConfirmation)
    (jobStateConflict "job is not awaiting confirmation")
  let proposed ← Proc.ofExcept (actionsFromRecord record)
  let selected ← Proc.ofExcept (selectActions proposed actionIds record.jobId)
  let preflight ← s.preflight selected
  s.assertPreviewHashes record selected
  let result := s.policy.evaluateSet selected preflight.facts record.permissionLevel
  Proc.raiseIf (result.decision = .deny)
    (jobStateConflict "files changed since the preview; policy now denies")
  let operations := preflight.operations.filterMap id
  Proc.raiseIf (operations.isEmpty = true) (jobStateConflict "nothing to execute")
  let bytes := (operations.map fun op => (op.beforeBytes.map ByteArray.size).getD 0).sum
  Proc.raiseIf (s.maxJournalBytes < bytes)
    (m7 .historyLimitExceeded "Journal before-state exceeds the size limit".toList
      {jobId := some record.jobId,bytes := some bytes})
  pure {selected,preflight,result,operations}

omit [Host] in
/-- The record `_commit` stores. -/
def committedRecord (record : HistoryRecord) (review : Review) (remaining : List Action) :
    HistoryRecord :=
  let executed := review.selected.map Action.actionId
  {record with
    status := if remaining = [] then .committed else .awaitingConfirmation
    executedActions := record.executedActions ++ review.selected
    diff := record.diff.map fun entry =>
      if entry.actionId ∈ executed then {entry with status := .accepted} else entry
    afterHash := (review.selected.zip review.preflight.operations).foldl (fun hashes item =>
      match item.2.bind fun op => orElse op.afterHash (op.afterBytes.map sha256Bytes) with
      | none => hashes
      | some digest => hashes.set item.1.file (some digest)) record.afterHash}

/-- `_commit`. -/
def commit (record : HistoryRecord) (review : Review) : Sys Job := do
  let proposed ← Proc.ofExcept (actionsFromRecord record)
  let executed := review.selected.map Action.actionId
  let updated := committedRecord record review (proposed.filter fun action =>
    action.actionId ∉ executed)
  History.save updated
  pure {
    record := updated
    policy := some ⟨review.result.decision,review.result.matchedRules⟩}

end AgentJobService

namespace AgentJobService

variable [Runtime] (s : AgentJobService)

/-- `_record_terminal`, and the error the caller raises. -/
def terminal (record : HistoryRecord) (status : JobStatus) (statusText : String)
    (code : M7ErrorCode) (codeText message : String) (result : RecoveryResult) : Sys Job := do
  let _ ← History.finish record status (some {
    code := codeText
    message := (orElse result.error (some statusText.toList)).getD []})
  Proc.throw (m7 code ((orElse result.error (some message.toList)).getD [])
    {jobId := some record.jobId})

/-- `_execute_locked`. -/
def executeLocked (job : Job) (confirm : Bool) (actionIds : List Text) : Sys Job := do
  let record := job.record
  let review ← liftM (s.review job confirm actionIds)
  History.save {record with status := .executing}
  let result ← s.recovery.executor.execute record.jobId review.operations
  match result.status with
  | .committed => commit record review
  | .rolledBack =>
    terminal record .rolledBack "rolled_back" .transactionFailed "transaction_failed"
      "transaction failed" result
  | .rollbackFailed =>
    terminal record .rollbackFailed "rollback_failed" .rollbackFailed "rollback_failed"
      "rollback failed" result
  | _ => Proc.throw (m7 .jobStateConflict
      ((orElse result.error (some "file conflict during execution".toList)).getD [])
      {jobId := some record.jobId})

/-- `accept`. -/
def accept (job : Job) (confirm : Bool) (actionIds : List Text) : Sys Job := do
  Proc.raiseIf (confirm = false)
    (m7 .confirmationRequired "Explicit confirmation is required".toList)
  s.executeLocked job true actionIds

/-- `plan`; the record it keeps of a job the policy denied is left out. -/
def plan (jobId : Text) (request : JobRequest) (planned : Except Exc (List Action)) :
    Sys Job := do
  let actions ← Proc.ofExcept (requestedActions request planned)
  Proc.ofExcept (assertScopePaths request.scope actions)
  let preflight ← liftM (s.preflight actions)
  Proc.ofExcept (noReadFailures preflight)
  let result := s.policy.evaluateSet actions preflight.facts request.permissionLevel
  Proc.raiseIf (result.decision = .deny) (m7 .policyDenied "Policy denied the action set".toList
    {jobId := some jobId,rules := result.matchedRules})
  let record ← recordJob jobId request actions preflight .awaitingConfirmation
  let job : Job := {record,policy := some ⟨result.decision,result.matchedRules⟩}
  if request.execute && result.decision = .allow then
    s.executeLocked job true (actions.map Action.actionId)
  else pure job

end AgentJobService

end LocalBook.Agents
