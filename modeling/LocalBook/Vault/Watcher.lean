import LocalBook.Dict
import LocalBook.Vault.PathSafety

/-! The watcher of the Vault. Raw events of the file system are translated to events about
root-relative paths, kept for a while under their kind and paths, and handed on. -/
namespace LocalBook.Vault

inductive EventKind where
  | create
  | modify
  | delete
  | move
deriving Repr,DecidableEq

/-- A normalised event. A move has two paths, every other event has one. -/
inductive VaultEvent where
  | created (path : Text) (isDirectory : Bool)
  | modified (path : Text) (isDirectory : Bool)
  | deleted (path : Text) (isDirectory : Bool)
  | moved (oldPath newPath : Text) (isDirectory : Bool)
deriving Repr,DecidableEq

namespace VaultEvent

def kind : VaultEvent → EventKind
  | .created .. => .create
  | .modified .. => .modify
  | .deleted .. => .delete
  | .moved .. => .move

def paths : VaultEvent → List Text
  | .created path _ | .modified path _ | .deleted path _ => [path]
  | .moved oldPath newPath _ => [oldPath,newPath]

/-- Events with the same key are one event while they wait. -/
def key (event : VaultEvent) : EventKind × List Text := (event.kind,event.paths)

end VaultEvent

/-- The root of the Vault, and how the file system resolves a path (not at all, when that
fails). -/
structure WatchRoot where
  path : Path
  resolve : Path → Option Path

def osParts (raw : Text) : Option Path :=
  let parts := (Text.split '/' raw).filter fun part => part ≠ [] && part ≠ ['.']
  match raw with
  | '/' :: '/' :: '/' :: _ => some parts
  | '/' :: '/' :: _ => none
  | '/' :: _ => some parts
  | _ => none

/-- `relative_to`. -/
def relativeTo (root path : Path) : Option Path :=
  if root.isPrefixOf path then some (path.drop root.length) else none

def hasHiddenPart (shown : Text) : Bool :=
  (Text.split '/' shown).any fun part => part.head? = some '.'

/-- `_normalize_os_path`. -/
def normalizeOsPath (root : WatchRoot) (raw : Text) : Option Text := do
  let path ← osParts raw
  let real ← root.resolve path
  let _ ← relativeTo root.path real
  let relative ← relativeTo root.path path
  let shown := display relative
  if isReservedDerivedPath shown then none
  else if hasHiddenPart shown then none
  else match validateRelativePath shown false with
    | .ok _ => some shown
    | .error _ => none

inductive RawEvent where
  | created (raw : Text) (isDirectory : Bool)
  | modified (raw : Text) (isDirectory : Bool)
  | deleted (raw : Text) (isDirectory : Bool)
  | moved (rawOld rawNew : Text) (isDirectory : Bool)

/-- `emit_moved`. -/
def emitMoved (root : WatchRoot) (rawOld rawNew : Text) (isDirectory : Bool) :
    Option VaultEvent := do
  let oldPath ← normalizeOsPath root rawOld
  let newPath ← normalizeOsPath root rawNew
  return .moved oldPath newPath isDirectory

def emit (root : WatchRoot) : RawEvent → Option VaultEvent
  | .created raw isDirectory => (normalizeOsPath root raw).map (VaultEvent.created · isDirectory)
  | .modified raw isDirectory => (normalizeOsPath root raw).map (VaultEvent.modified · isDirectory)
  | .deleted raw isDirectory => (normalizeOsPath root raw).map (VaultEvent.deleted · isDirectory)
  | .moved rawOld rawNew isDirectory => emitMoved root rawOld rawNew isDirectory

/-- The waiting events with their deadlines, and every event handed to the callback. -/
structure VaultWatcher where
  pending : Dict (EventKind × List Text) (Int × VaultEvent) := []
  handed : List VaultEvent := []

namespace VaultWatcher

/-- `_queue`. -/
def queue (debounce now : Int) (event : VaultEvent) (w : VaultWatcher) : VaultWatcher :=
  {w with pending := w.pending.set event.key (now + debounce,event)}

def dispatchDue (now : Int) (w : VaultWatcher) : VaultWatcher :=
  let due := (w.pending.filter fun entry => entry.2.1 ≤ now).map fun entry => entry.2.2
  {pending := due.foldl (fun pending event => pending.pop event.key) w.pending,
   handed := w.handed ++ due}

/-- `flush`. -/
def flush (w : VaultWatcher) : VaultWatcher :=
  {pending := [],handed := w.handed ++ w.pending.map fun entry => entry.2.2}

inductive Step where
  | raw (event : RawEvent) (now : Int)
  | tick (now : Int)
  | flush

def step (root : WatchRoot) (debounce : Int) (w : VaultWatcher) : Step → VaultWatcher
  | .raw event now =>
    match emit root event with
    | some event => w.queue debounce now event
    | none => w
  | .tick now => w.dispatchDue now
  | .flush => w.flush

def run (root : WatchRoot) (debounce : Int) (steps : List Step) (w : VaultWatcher) :
    VaultWatcher := steps.foldl (step root debounce) w

end VaultWatcher

end LocalBook.Vault
