import LocalBook.Reader.Conversations

/-! The import of a reading session: its highlights, notes and conversations become one
Markdown document of the Vault. -/
namespace LocalBook.Reader


/-- How Python writes values and instants, and the time zone. No date is made of an instant the
platform has no date for. -/
structure Formats where
  text : Value → Text
  isoformat : Value → Text
  minutes : Value → Text
  yearMonth : Option Value → Except String (Text × Text)

def Value.truthy : Value → Bool
  | .null => false
  | .int value => value ≠ 0
  | .real chars => chars ≠ "0.0".toList
  | .text chars => chars ≠ []
  | .dumped _ => true

section Markdown

variable (formats : Formats)

def Value.present (value : Option Value) : Option Value := value.filter Value.truthy

def labelled (label : String) (value : Option Value) : List Text :=
  ((Value.present value).map fun found => label.toList ++ formats.text found).toList

def stripped (value : Value) : Text := Text.strip (value.text?.getD [])

def field (label : String) (text : Option Text) : List Text :=
  ((nonEmpty text).map fun found => label.toList ++ found).toList

def frontmatter (data : SessionData) : List Text :=
  ["---".toList,"session_id: ".toList ++ data.id,"connector_type: reader".toList] ++
  field "device: " (data.device.map DeviceRow.name) ++
  field "device_type: " (data.device.map DeviceRow.type) ++
  labelled formats "url: " (data.source.map Source.url) ++
  labelled formats "canonical_url: " (data.source.map Source.canonicalUrl) ++
  labelled formats "source_type: " (data.source.map Source.type) ++
  ((Value.present (some data.session.startedAt)).map fun instant =>
    "started_at: ".toList ++ formats.isoformat instant).toList ++
  ((Value.present (some data.session.endedAt)).map fun instant =>
    "ended_at: ".toList ++ formats.isoformat instant).toList ++
  ((Value.present (some data.session.duration)).map fun duration =>
    "reading_time: ".toList ++ formats.minutes duration ++ " min".toList).toList ++
  ["---".toList,[]]

def sourceTitle (data : SessionData) : Value := (data.source.map Source.title).getD .null

def highlightLines (highlight : Highlight) (number : Nat) : List Text :=
  let text := stripped highlight.selectedText
  if text.isEmpty then []
  else
    let before := stripped highlight.contextBefore
    let after := stripped highlight.contextAfter
    let context :=
      if before.isEmpty && after.isEmpty then []
      else ["**Context:**".toList] ++
        (if before.isEmpty then [] else ["> ...".toList ++ before]) ++
        ["> **".toList ++ text ++ "**".toList] ++
        (if after.isEmpty then [] else ["> ".toList ++ after ++ "...".toList]) ++ [[]]
    let page := if highlight.page.isNull then []
      else ["*Page: ".toList ++ formats.text highlight.page ++ ['*'],[]]
    ["### ".toList ++ Decimal.natText number ++ ". ".toList ++ text,[]] ++ context ++ page

def highlightSection (highlights : List Highlight) : List Text :=
  if highlights.isEmpty then []
  else ["## Highlights".toList,[]] ++
    (highlights.zipIdx 1).flatMap (fun (highlight,number) =>
      highlightLines formats highlight number) ++ [[]]

def noteSection (notes : List Note) : List Text :=
  if notes.isEmpty then []
  else ["## Notes".toList,[]] ++ notes.flatMap (fun note =>
    let content := stripped note.content
    if content.isEmpty then [] else ["- ".toList ++ content]) ++ [[]]

def messageLines (message : Message) : List Text :=
  let content := Text.strip message.content
  (match message.role with
    | .user => ["**Q:** ".toList ++ content]
    | .assistant => ("**A:** ".toList ++ content) ::
      ((nonEmpty message.model).map fun model => "*(".toList ++ model ++ ")*".toList).toList
    | .system => []) ++ [[]]

def conversationLines (messages : List Message) (number : Nat) : List Text :=
  if messages.isEmpty then []
  else ["### Conversation ".toList ++ Decimal.natText number,[]] ++
    messages.flatMap messageLines ++ ["---".toList,[]]

def conversationSection (conversations : List (Conversation × List Message)) : List Text :=
  if conversations.isEmpty then []
  else ["## AI Conversations".toList,[]] ++
    (conversations.zipIdx 1).flatMap fun (row,number) => conversationLines row.2 number

def infoSection (data : SessionData) : List Text :=
  ["## Session Info".toList,[],"- **Session ID:** \x60".toList ++ data.id ++ "\x60".toList] ++
  (match nonEmpty (data.device.map DeviceRow.name) with
    | some name => ["- **Device:** ".toList ++ name ++ " (".toList ++
        (data.device.map DeviceRow.type).getD [] ++ ")".toList]
    | none => []) ++
  ((Value.present (some data.session.duration)).map fun duration =>
    "- **Reading Time:** ".toList ++ formats.minutes duration ++ " minutes".toList).toList ++ [[]]

/-- `_generate_markdown`. -/
def generateMarkdown (data : SessionData) : Text :=
  Text.join ['\n'] (frontmatter formats data ++
    ["# ".toList ++ formats.text (sourceTitle data),[]] ++
    ((Value.present (data.source.map Source.url)).map fun url =>
      ["**Source:** ".toList ++ formats.text url,[]]).getD [] ++
    highlightSection formats data.highlights ++ noteSection data.notes ++
    conversationSection data.conversations ++ infoSection formats data)

/-- The characters `_sanitize_filename` removes. -/
def unsafeInName (c : Char) : Bool :=
  c ∈ ("<>:\"/\\|?*".toList) || c.toNat < 32

/-- `re.sub(r"\s+", " ", …)`. -/
def collapse : Text → Text
  | [] => []
  | c :: rest =>
    if Text.isSpace c then
      match collapse rest with
      | [] => [' ']
      | next :: others => if next = ' ' then next :: others else ' ' :: next :: others
    else c :: collapse rest

/-- `_sanitize_filename`. -/
def sanitizeFilename (title : Text) : Text :=
  let safe := Text.strip (collapse (title.filter fun c => !unsafeInName c))
  let short := if 200 < safe.length then Text.rstripBy Text.isSpace (safe.take 200) else safe
  if short.isEmpty then "Untitled".toList else short

/-- `_generate_path`: a source without a title has no name to make safe. -/
def generatePath (data : SessionData) : Except Failure Text :=
  match formats.yearMonth (Value.present (some data.session.startedAt)) with
  | .error kind => .error (unwrapped kind)
  | .ok (year,month) =>
    match (sourceTitle data).text? with
    | none => .error (unwrapped "TypeError")
    | some title =>
      .ok ("Reading/".toList ++ year ++ ['/'] ++ month ++ ['/'] ++ sanitizeFilename title ++
        ".md".toList)

end Markdown

section Import

def parents (path : Text) : List Text :=
  let parts := (Text.split '/' path).dropLast
  (List.range parts.length).map fun n => Text.join ['/'] (parts.take (n + 1))

/-- `_ensure_directory`: whatever goes wrong with a folder is ignored. -/
def ensureDirectory (path : Text) (disk : Vault.Disk) : Vault.Disk :=
  (parents path).foldl (fun d folder => (Effect.run Vault.FsOp.step (Vault.VaultService.createDirectory folder) d).2) disk

/-- `ReaderImporter.import_session`. -/
def writeSession (formats : Formats) (vault : Vault.VaultService) (data : SessionData)
    (disk : Vault.Disk) : Except Failure Vault.Receipt × Vault.Disk :=
  match generatePath formats data with
  | .error failure => (.error failure,disk)
  | .ok path =>
    let content := encodeUtf8 (generateMarkdown formats data)
    match Effect.run Vault.FsOp.step (vault.createBytes path content) (ensureDirectory path disk) with
    | (.ok receipt,d) => (.ok receipt,d)
    | (.error reason,d) => (.error (.vault reason),d)

/-- `ReaderService.import_session`. -/
def importSession (formats : Formats) (importer : Option Vault.VaultService) (s : Server)
    (sessionId deviceId : Text) : Except Failure Vault.Receipt × Server :=
  match importer with
  -- the error code that is raised here does not exist
  | none => (.error (unwrapped "AttributeError"),s)
  | some vault =>
    match getSessionWithData s sessionId deviceId with
    | none => (.error (readerError .sessionNotFound ("Session " ++ String.ofList sessionId ++
        " not found")),s)
    | some data =>
      match writeSession formats vault data s.vault with
      | (result,disk) => (result,{s with vault := disk})

end Import

inductive ConversationRequest where
  | history (conversationId : Text) (limit : Nat)
  | ask (request : AskRequest) (stamp : Stamp)
  | importSession (sessionId : Text)

inductive Reply where
  | history (result : Except Failure (Option (List Message)))
  | ask (result : Except Failure AskResponse)
  | imported (result : Except Failure Vault.Receipt)

structure Configuration where
  services : Services
  formats : Formats
  importer : Option Vault.VaultService

def respond (config : Configuration) (deviceId : Text) (s : Server) :
    ConversationRequest → Reply × Server
  | .history id limit => (.history (getConversationMessages s id deviceId limit),s)
  | .ask request stamp =>
    match ask config.services s deviceId request stamp with
    | (result,s') => (.ask result,s')
  | .importSession sessionId =>
    match importSession config.formats config.importer s sessionId deviceId with
    | (result,s') => (.imported result,s')

end LocalBook.Reader
