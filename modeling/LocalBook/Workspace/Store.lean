import LocalBook.Text

/-! The store of the web workspace: the open tabs, the sessions of the editor, their save
queues, and the requests to the API that are under way. An event is a piece of an action that runs without a
pause: an action up to its first request, or what it does once its last request is answered. -/
namespace LocalBook.Workspace

abbrev Path := Text

abbrev Digest := Text

/-- A counter of JavaScript, which is not a number any more once it was counted up from
`undefined`. -/
abbrev Version := Option Nat

namespace Version

def next (version : Version) : Version := version.map (· + 1)

/-- `===` on counters: what is not a number is equal to nothing. -/
def same : Version → Version → Bool
  | some v,some w => v = w
  | _,_ => false

end Version

inductive Encoding where
  | utf8
  | invalidUtf8
deriving DecidableEq

inductive SaveState where
  | saved
  | saving
  | conflict
  | error
deriving DecidableEq

/-- `EditorSession`, in which a field may be `undefined`. -/
structure Session where
  path : Option Path := none
  content : Option Text := none
  baseSha256 : Option Digest := none
  encoding : Option Encoding := none
  dirty : Option Bool := none
  saveState : Option SaveState := none
  requestVersion : Version := none

/-- `WorkspaceTab`. -/
structure Tab where
  path : Path
  title : Text
  dirty : Bool
  loading : Bool

structure Entry where
  path : Path
  isFile : Bool

abbrev Named := {path : Path // path ≠ []}

/-- `SaveQueue`, with the pending reason being manual or not. -/
structure SaveQueue where
  running : Bool := false
  pending : Bool := false
  pendingManual : Bool := false

inductive Request where
  | patch (path : Path) (sentVersion : Version) (sentContent : Option Text)
      (sentBase : Option Digest)
  | load (path : Path) (version : Version)
  | reload (path : Path) (version : Version)
  | keep (path : Path) (version : Version)
  | move (source destination : Path)
  | trash (path : Named)
  | delete (path : Path)

/-- The answers of the API. A file comes with its decoded text, unless it is not UTF-8. -/
inductive Answer where
  | patched (sha256 : Digest)
  | conflict
  | file (decoded : Option Text) (sha256 : Digest)
  | moved (path : Named)
  | trashed
  | deleted (path : Named)
  | failed

structure Store where
  tabs : List Tab := []
  sessions : Path → Option Session := fun _ => none
  activePath : Option Path := none
  entries : List Entry := []
  openVersions : Path → Option Version := fun _ => none
  openRequests : Path → Bool := fun _ => false
  autoSave : Bool := true
  saveQueues : Path → SaveQueue := fun _ => {}
  inFlight : List Request := []

inductive Event where
  | openFile (path : Path)
  | closeTab (path : Path) (confirmed : Bool)
  | updateContent (path : Path) (content : Text)
  | save (path : Path) (manual : Bool)
  | reloadConflict (path : Path)
  | keepLocal (path : Path)
  | moveEntry (sourcePath destinationDirectory : Path)
  | renameEntry (path newName : Path)
  | moveToTrash (path : Path)
  | deleteEntry (path : Path)
  | treeLoaded (entries : List Entry)
  | reply (index : Nat) (answer : Answer)

/-- `String.prototype.trim` drops these at both ends. -/
def isJsSpace (c : Char) : Bool :=
  let n := c.val
  (9 ≤ n && n ≤ 13) || n == 32 || n == 0xa0 || n == 0x1680 || (0x2000 ≤ n && n ≤ 0x200a) ||
    n == 0x2028 || n == 0x2029 || n == 0x202f || n == 0x205f || n == 0x3000 || n == 0xfeff

def trim (t : Text) : Text := Text.stripBy isJsSpace t

def stripSlashes (path : Path) : Path := Text.stripBy (· = '/') path

def baseName (path : Path) : Path := (Text.split '/' path).getLast?.getD path

def parentOf (path : Path) : Path := Text.join ['/'] (Text.split '/' path).dropLast

def within (directory name : Path) : Path :=
  if directory = [] then name else directory ++ '/' :: name

namespace Store

variable (s : Store)

def tabPaths : List Path := s.tabs.map Tab.path

/-- `openVersions.get(path) === version`. -/
def isCurrent (path : Path) (version : Version) : Bool :=
  (s.openVersions path).any (Version.same · version)

def mapTabs (path : Path) (change : Tab → Tab) : List Tab :=
  s.tabs.map fun tab => if tab.path = path then change tab else tab

def request (request : Request) : Store := {s with inFlight := s.inFlight ++ [request]}

/-- `openFile`, up to the request. -/
def openFile (path : Path) : Store :=
  if (s.sessions path).isSome then {s with activePath := some path}
  else if s.openRequests path then {s with activePath := some path}
  else
    let version := Version.next ((s.openVersions path).getD (some 0))
    {s with
      openVersions := Function.update s.openVersions path (some version)
      openRequests := Function.update s.openRequests path true
      tabs := if s.tabs.any (·.path = path) then s.tabs
        else s.tabs ++ [⟨path,baseName path,false,true⟩]
      activePath := some path
      inFlight := s.inFlight ++ [.load path version]}

def neighbour (remaining : List Tab) (path : Path) : Option Path :=
  (s.tabs.findIdx? (·.path = path)).bind fun index =>
    (remaining[min index (remaining.length - 1)]?).map Tab.path

def declined (path : Path) (confirmed : Bool) : Bool :=
  (s.tabs.find? (·.path = path)).any Tab.dirty && !confirmed

/-- `closeTab`. -/
def closeTab (path : Path) (confirmed : Bool) : Store :=
  if s.declined path confirmed then s
  else
    let tabs := s.tabs.filter (·.path ≠ path)
    {s with
      tabs := tabs
      activePath := if s.activePath = some path then s.neighbour tabs path else s.activePath
      sessions := fun key => if key = path then none else s.sessions key}

def gone (removed path : Path) : Bool := path = removed || Text.startsWith path (removed ++ ['/'])

/-- `closeTreePaths`. -/
def closeTreePaths (removed : Path) : Store :=
  let tabs := s.tabs.filter (!gone removed ·.path)
  {s with
    tabs := tabs
    sessions := fun key => if gone removed key then none else s.sessions key
    activePath := match s.activePath with
      | some path => if path ≠ [] && gone removed path then s.neighbour tabs path else some path
      | none => none}

/-- `updateContent`. -/
def updateContent (path : Path) (content : Text) : Store :=
  match s.sessions path with
  | none => s
  | some session =>
    if session.encoding ≠ some .utf8 then s
    else if some content = session.content then s
    else
      {s with
        sessions := Function.update s.sessions path (some {session with
          content := some content
          dirty := some true
          requestVersion := Version.next session.requestVersion})
        tabs := s.mapTabs path fun tab => {tab with dirty := true}}

def setQueue (path : Path) (queue : SaveQueue) : Store :=
  {s with saveQueues := Function.update s.saveQueues path queue}

def savable (session : Session) (manual : Bool) : Bool :=
  session.dirty = some true && session.encoding = some .utf8 &&
    session.saveState ≠ some .conflict && (session.saveState ≠ some .error || manual)

/-- `save`, up to the request. -/
def save (path : Path) (manual : Bool) : Store :=
  if path = [] || (!s.autoSave && !manual) then s
  else
    let queue := s.saveQueues path
    if queue.running then
      s.setQueue path {queue with pending := true,pendingManual := queue.pendingManual || manual}
    else match s.sessions path with
      | none => s
      | some session =>
        if savable session manual then
          {s with
            sessions :=
              if Version.same session.requestVersion session.requestVersion then
                Function.update s.sessions path (some {session with saveState := some .saving})
              else s.sessions
            saveQueues := Function.update s.saveQueues path {queue with running := true}
            inFlight := s.inFlight ++
              [.patch path session.requestVersion session.content session.baseSha256]}
        else s

def saveFinished (path : Path) : Store :=
  let queue := s.saveQueues path
  if queue.pending then
    let idle := s.setQueue path {}
    match s.sessions path with
    | none => idle
    | some session =>
      if session.dirty = some true && session.saveState ≠ some .conflict &&
          session.saveState ≠ some .error && session.encoding = some .utf8 then
        idle.save path queue.pendingManual
      else idle
  else s.setQueue path {queue with running := false}

def acknowledged (latest : Session) (sentVersion : Version) (sentContent : Option Text)
    (sha256 : Digest) : Session :=
  let unchanged := Version.same latest.requestVersion sentVersion && latest.content = sentContent
  {latest with
    baseSha256 := some sha256
    dirty := if unchanged then some false else latest.dirty
    saveState := if unchanged then some .saved else latest.saveState}

/-- The end of `save`. -/
def patched (path : Path) (sentVersion : Version) (sentContent : Option Text) (sha256 : Digest) :
    Store :=
  let next := match s.sessions path with
    | none => s
    | some latest =>
      let session := acknowledged latest sentVersion sentContent sha256
      {s with
        sessions := Function.update s.sessions path (some session)
        tabs := s.mapTabs path fun tab => {tab with dirty := session.dirty = some true}}
  let edited := (next.sessions path).all fun session =>
    !Version.same session.requestVersion sentVersion
  let queue := next.saveQueues path
  (if edited then next.setQueue path {queue with pending := true} else next).saveFinished path

/-- A session that an error befalls. -/
def fail (path : Path) (saveState : SaveState) : Store :=
  match s.sessions path with
  | none => s
  | some session =>
    {s with
      sessions := Function.update s.sessions path (some {session with saveState := some saveState})}

/-- The end of `save` when the request fails, which drops what is pending. -/
def patchFailed (path : Path) (saveState : SaveState) : Store :=
  ((s.fail path saveState).setQueue path {running := true}).saveFinished path

/-- The counter that `reloadConflict` and `keepLocal` take. -/
def nextVersion (path : Path) (session : Session) : Version :=
  Version.next ((s.openVersions path).getD session.requestVersion)

/-- `reloadConflict` and `keepLocal`, up to the request. -/
def refetch (path : Path) (asked : Path → Version → Request) : Store :=
  match s.sessions path with
  | none => s
  | some session =>
    let version := s.nextVersion path session
    {s with
      openVersions := Function.update s.openVersions path (some version)
      inFlight := s.inFlight ++ [asked path version]}

def reloadConflict (path : Path) : Store := s.refetch path .reload

def keepLocal (path : Path) : Store := s.refetch path .keep

/-- `moveEntry`, up to the request that moves. -/
def moveEntry (sourcePath destinationDirectory : Path) : Store :=
  let destinationPath := within (stripSlashes destinationDirectory) (baseName sourcePath)
  if destinationPath = sourcePath then s else s.request (.move sourcePath destinationPath)

/-- `renameEntry`, up to the request that moves. -/
def renameEntry (path newName : Path) : Store :=
  let trimmed := trim newName
  if trimmed = [] || trimmed = baseName path then s
  else if '/' ∈ trimmed || '\\' ∈ trimmed || trimmed = "..".toList || trimmed = ".".toList then s
  else s.request (.move path (within (parentOf path) trimmed))

/-- `moveToTrash`, up to the request that moves. -/
def moveToTrash (path : Path) : Store :=
  let clean := stripSlashes (trim path)
  if empty : clean = [] then s
  else match s.entries.find? (·.path = clean) with
    | none => s
    | some _ => s.request (.trash ⟨clean,empty⟩)

/-- `deleteEntry`, up to the request that deletes. -/
def deleteEntry (path : Path) : Store :=
  let clean := stripSlashes (trim path)
  if clean = [] then s
  else match s.entries.find? (·.path = clean) with
    | none => s
    | some entry => if entry.isFile then s.request (.delete clean) else s

/-- The fields that come from a file, with what `decodeFileContent` finds. -/
def decoded (session : Session) (text : Option Text) (sha256 : Digest) : Session :=
  {session with
    content := some (text.getD [])
    baseSha256 := some sha256
    encoding := some (if text.isSome then .utf8 else .invalidUtf8)
    dirty := some false
    saveState := some .saved}

/-- The end of `openFile`. -/
def loaded (path : Path) (version : Version) (text : Option Text) (sha256 : Digest) : Store :=
  let s := {s with openRequests := Function.update s.openRequests path false}
  if s.isCurrent path version then
    {s with
      sessions := Function.update s.sessions path
        (some (decoded {path := some path,requestVersion := version} text sha256))
      tabs := s.mapTabs path fun tab => {tab with loading := false}}
  else s

/-- The end of `openFile` when the request fails. -/
def loadFailed (path : Path) (version : Version) : Store :=
  let s := {s with openRequests := Function.update s.openRequests path false}
  if s.isCurrent path version then
    {s with tabs := s.mapTabs path fun tab => {tab with loading := false}}
  else s

/-- The end of `reloadConflict`. -/
def reloaded (path : Path) (version : Version) (text : Option Text) (sha256 : Digest) : Store :=
  if s.isCurrent path version then
    let session := decoded ((s.sessions path).getD {}) text sha256
    {s with
      sessions := Function.update s.sessions path (some {session with requestVersion := version})
      tabs := s.mapTabs path fun tab => {tab with dirty := false}}
  else s

/-- The end of `reloadConflict` when the request fails: an error is spread over the session. -/
def reloadFailed (path : Path) (version : Version) : Store :=
  if s.isCurrent path version then
    let session := (s.sessions path).getD {}
    {s with
      sessions := Function.update s.sessions path (some {session with saveState := some .error})}
  else s

/-- The end of `keepLocal`, which leaves a missing session alone. -/
def kept (path : Path) (version : Version) (sha256 : Digest) : Store :=
  if s.isCurrent path version then
    match s.sessions path with
    | none => s
    | some session =>
      {s with
        sessions := Function.update s.sessions path
          (some {session with
            baseSha256 := some sha256
            dirty := some true
            saveState := some .saved
            requestVersion := version})}
  else s

/-- The end of `keepLocal` when the request fails. -/
def keepFailed (path : Path) (version : Version) : Store :=
  if s.isCurrent path version then s.fail path .error else s

/-- The end of `moveEntry` and of `renameEntry`: tab and session go to the new path. -/
def repoint (source target : Path) : Store :=
  if (s.sessions source).isSome || s.tabs.any (·.path = source) then
    {s with
      sessions := match s.sessions source with
        | none => s.sessions
        | some session =>
          Function.update (Function.update s.sessions source none) target
            (some {session with path := some target})
      tabs := s.mapTabs source fun tab => {tab with path := target,title := baseName target}
      activePath := if s.activePath = some source then some target else s.activePath}
  else s

/-- The end of an action whose request is answered. No answer of another kind comes. -/
def answered (request : Request) (answer : Answer) : Store :=
  match request,answer with
  | .patch path sentVersion sentContent _,.patched sha256 =>
    s.patched path sentVersion sentContent sha256
  | .patch path _ _ _,.conflict => s.patchFailed path .conflict
  | .patch path _ _ _,.failed => s.patchFailed path .error
  | .load path version,.file text sha256 => s.loaded path version text sha256
  | .load path version,.failed => s.loadFailed path version
  | .reload path version,.file text sha256 => s.reloaded path version text sha256
  | .reload path version,.failed => s.reloadFailed path version
  | .keep path version,.file _ sha256 => s.kept path version sha256
  | .keep path version,.failed => s.keepFailed path version
  | .move source _,.moved target => s.repoint source target.val
  | .trash path,.trashed => s.closeTreePaths path.val
  | .delete _,.deleted path => s.closeTreePaths path.val
  | _,_ => s

def step (s : Store) : Event → Store
  | .openFile path => s.openFile path
  | .closeTab path confirmed => s.closeTab path confirmed
  | .updateContent path content => s.updateContent path content
  | .save path manual => s.save path manual
  | .reloadConflict path => s.reloadConflict path
  | .keepLocal path => s.keepLocal path
  | .moveEntry sourcePath destinationDirectory => s.moveEntry sourcePath destinationDirectory
  | .renameEntry path newName => s.renameEntry path newName
  | .moveToTrash path => s.moveToTrash path
  | .deleteEntry path => s.deleteEntry path
  | .treeLoaded entries => {s with entries := entries}
  | .reply index answer =>
    match s.inFlight[index]? with
    | none => s
    | some request => {s with inFlight := s.inFlight.eraseIdx index}.answered request answer

end Store

end LocalBook.Workspace
