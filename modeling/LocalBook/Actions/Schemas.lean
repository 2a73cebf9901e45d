import LocalBook.Vault.PathSafety

/-! The actions a planner may propose, with the checks of their validators. Base64
content is kept decoded. -/
namespace LocalBook

open Effect

inductive ActionType where
  | addTags
  | removeTags
  | addLink
  | createNote
  | patchNote
  | moveNote
deriving Repr,DecidableEq

/-- A bounded replacement of a span of text. -/
structure PatchHunk where
  start : Nat
  oldText : Text := []
  newText : Text := []
  oldSha256 : Option Text := none
deriving Repr,DecidableEq

structure Action where
  actionId : Text
  action : ActionType
  permissionLevel : Nat := 1
  file : Text
  targetFile : Option Text := none
  tags : List Text := []
  linkTarget : Option Text := none
  patch : List PatchHunk := []
  content : Option Bytes := none
  expectedSha256 : Option Text := none
deriving DecidableEq

variable [Host]

def isHexDigit (c : Char) : Bool :=
  ('0' ≤ c && c ≤ '9') || ('a' ≤ c && c ≤ 'f') || ('A' ≤ c && c ≤ 'F')

/-- `_SHA256_RE.fullmatch`. -/
def isSha256 (value : Text) : Bool :=
  let digits := Text.removePrefix value "sha256:".toList
  digits.length = 64 && digits.all isHexDigit

/-- `normalize_sha256`. -/
def normalizeSha256 : Option Text → Except Exc (Option Text)
  | none => .ok none
  | some value =>
    if isSha256 value then .ok (some (Host.lower value))
    else .error (.value "expected_sha256 must be a SHA-256 digest")

omit [Host] in
/-- `normalize_tag`. -/
def normalizeTag (value : Text) : Except Exc Text :=
  let tag := Text.strip (Text.lstripBy (fun c => c == '#') (Text.strip value))
  if tag = [] then .error (.value "tag must not be empty")
  else if tag.length > 100 then .error (.value "tag exceeds 100 characters")
  else if tag.any fun c => c == '\r' || c == '\n' || c == ',' then
    .error (.value "tag contains invalid characters")
  else .ok tag

/-- `_valid_tags`. -/
def validTags (values : List Text) : Except Exc (List Text) := do
  let normalized ← values.mapM normalizeTag
  if (normalized.map Host.casefold).Nodup then pure normalized
  else .error (.value "duplicate tags")

omit [Host] in
/-- `_valid_paths`. -/
def validPath : Option Text → Except Exc (Option Text)
  | none => .ok none
  | some value => (Vault.validateRelativePath value false).map some

def maxCreateBytes : Nat := 1000000

def PatchHunk.modelValidate (hunk : PatchHunk) : Except Exc PatchHunk := do
  if hunk.oldText.length > 10000 ∨ hunk.newText.length > 10000 then
    .error (.value "String should have at most 10000 characters")
  let oldSha256 ← normalizeSha256 hunk.oldSha256
  pure {hunk with oldSha256 := oldSha256}

/-- `Action.model_validate`, also of an action that has been stored. -/
def Action.modelValidate (action : Action) : Except Exc Action := do
  if action.permissionLevel > 2 then .error (.value "Input should be 0, 1 or 2")
  let file ← Vault.validateRelativePath action.file false
  let targetFile ← validPath action.targetFile
  if action.tags.length > 10 then .error (.value "List should have at most 10 items")
  let tags ← validTags action.tags
  let linkTarget ← validPath action.linkTarget
  if action.patch.length > 20 then .error (.value "List should have at most 20 items")
  let patch ← action.patch.mapM PatchHunk.modelValidate
  if (action.content.map ByteArray.size).getD 0 > maxCreateBytes then
    .error (.value "content exceeds the 1 MB create limit")
  let expectedSha256 ← normalizeSha256 action.expectedSha256
  pure {action with file,targetFile,tags,linkTarget,patch,expectedSha256}

omit [Host] in
/-- `not value` of an optional text. -/
def falsy : Option Text → Bool
  | none => true
  | some value => value = []

omit [Host] in
/-- `validate_action`. -/
def validateAction (action : Action) : Except Exc Unit :=
  let kind := action.action
  if (kind = .addTags ∨ kind = .removeTags) ∧ action.tags = [] then
    .error (.value "tag action requires at least one tag")
  else if kind = .addLink ∧ falsy action.linkTarget then
    .error (.value "add_link requires link_target")
  else if kind = .createNote ∧ action.content = none then
    .error (.value "create_note requires content_base64")
  else if kind = .createNote ∧ action.expectedSha256 ≠ none then
    .error (.value "create_note must not carry expected_sha256")
  else if kind = .patchNote ∧ action.patch = [] then
    .error (.value "patch_note requires at least one hunk")
  else if kind = .patchNote ∧ action.content ≠ none then
    .error (.value "patch_note must not carry content_base64")
  else if kind = .moveNote ∧ falsy action.targetFile then
    .error (.value "move_note requires target_file")
  else if kind ≠ .patchNote ∧ action.patch ≠ [] then
    .error (.value "patch hunks are only valid for patch_note")
  else if kind ≠ .createNote ∧ action.content ≠ none then
    .error (.value "content_base64 is only valid for create_note")
  else .ok ()

omit [Host] in
/-- `validate_action_set`. -/
def validateActionSet (actions : List Action) : Except Exc Unit := do
  if actions = [] then .error (.value "action set must not be empty")
  if ¬ (actions.map Action.actionId).Nodup then .error (.value "duplicate action_id")
  actions.forM validateAction

end LocalBook
