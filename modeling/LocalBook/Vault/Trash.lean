import LocalBook.Faults
import LocalBook.Vault.Service

/-! The trash: payloads in directories of their own below the trash root, the index that lists
them, and the directories they are renamed to on the way to their removal. Names that the source
draws at random are numbered by a counter. -/
namespace LocalBook.Vault

open Effect

inductive TrashKind where
  | file
  | directory
deriving Repr,DecidableEq

structure TrashItem where
  id : Text
  originalPath : Text
  kind : TrashKind
  byteLength : Nat
  fileCount : Nat
  /-- In microseconds. -/
  deletedAt : Int
  blob : Text
deriving Repr,DecidableEq

inductive TrashName where
  | holder (id : Text)
  | purge (id : Text) (token : Nat)
  | delete (id : Text) (token : Nat)
  | gc (token : Nat)
deriving Repr,DecidableEq

def purgeDirPrefix : Text := ".purge-".toList

def deleteDirPrefix : Text := ".delete-".toList

def hex (token : Nat) : Text := Nat.toDigits 16 token

namespace TrashName

def text : TrashName → Text
  | .holder id => id
  | .purge id token => purgeDirPrefix ++ id ++ '-' :: hex token
  | .delete id token => deleteDirPrefix ++ id ++ '-' :: hex token
  | .gc token => ".gc-".toList ++ hex token

/-- What `_clean_quarantine` looks for. -/
def globbed (name : TrashName) : Bool :=
  Text.startsWith name.text purgeDirPrefix || Text.startsWith name.text deleteDirPrefix

/-- `entry.name[len(".delete-"):].split("-", 1)[0]`. -/
def identifier (name : TrashName) : Text :=
  (Text.split '-' (name.text.drop deleteDirPrefix.length)).headD []

end TrashName

structure TrashEntry where
  name : TrashName
  nodes : List (Path × Node)
deriving DecidableEq

structure Bin where
  entries : List TrashEntry
  index : List TrashItem
  /-- The next number to be drawn. -/
  drawn : Nat
deriving DecidableEq

namespace Bin

def names (b : Bin) : List TrashName := b.entries.map TrashEntry.name

/-- `os.rename` of one directory to a free name. -/
def rename (b : Bin) (source target : TrashName) : Bin := {b with
  entries := b.entries.map fun entry =>
    if entry.name = source then {entry with name := target} else entry}

def remove (b : Bin) (name : TrashName) : Bin :=
  {b with entries := b.entries.filter fun entry => entry.name ≠ name}

def shrink (b : Bin) (name : TrashName) (left : List (Path × Node)) : Bin := {b with
  entries := b.entries.map fun entry =>
    if entry.name = name then {entry with nodes := left} else entry}

end Bin

inductive TrashOp where
  | ensureRoot
  | readIndex
  | writeIndex (items : List TrashItem)
  | glob
  | uuid
  /-- The checks of `_blob_path`. -/
  | blobPath (item : TrashItem)
  | lstat (name : TrashName)
  | rename (source target : TrashName)
  | rmtree (name : TrashName)
deriving DecidableEq

def TrashOp.Value : TrashOp → Type
  | .readIndex => List TrashItem
  | .glob => List TrashName
  | .uuid => Nat
  | _ => Unit

abbrev TrashOp.Res (op : TrashOp) : Type := Except Errno op.Value

/-- The call when nothing goes wrong. -/
def TrashOp.step (op : TrashOp) (b : Bin) : op.Res × Bin := match op with
  | .ensureRoot => (.ok (),b)
  | .readIndex => (.ok b.index,b)
  | .writeIndex items => (.ok (),{b with index := items})
  | .glob => (.ok (b.names.filter TrashName.globbed),b)
  | .uuid => (.ok b.drawn,{b with drawn := b.drawn + 1})
  | .blobPath _ => (.ok (),b)
  | .lstat name => if name ∈ b.names then (.ok (),b) else (.error .enoent,b)
  | .rename source target =>
    if source ∉ b.names then (.error .enoent,b)
    else if target ∈ b.names then (.error .enotempty,b)
    else (.ok (),b.rename source target)
  | .rmtree name => if name ∈ b.names then (.ok (),b.remove name) else (.error .enoent,b)

/-- A call may do what it is for, or fail, except for drawing a name; a recursive removal that
fails has removed a part. -/
inductive TrashOp.Does : Behaviour TrashOp TrashOp.Res Bin where
  | plain {op : TrashOp} {b : Bin} : Does op b (op.step b).1 (op.step b).2
  | fails {op : TrashOp} {b : Bin} (errno : Errno) (mayFail : op ≠ .uuid) :
    Does op b (.error errno) b
  | stops {name : TrashName} {b : Bin} (errno : Errno) (left : List (Path × Node)) :
    Does (.rmtree name) b (.error errno) (b.shrink name left)

abbrev Trash := Proc TrashOp TrashOp.Res Exc

namespace Trash

/-- A call, with what its failure is reported as. -/
def attempt (op : TrashOp) (report : Errno → Exc) : Trash op.Value := do
  match ← Proc.perform op with
  | .ok value => pure value
  | .error errno => Proc.throw (report errno)

/-- `with suppress(OSError)`. -/
def suppressed (op : TrashOp) : Trash Unit := do
  let _ ← Proc.perform op
  pure ()

end Trash

open Trash

structure TrashService where
  retentionDays : Nat
  positive : 0 < retentionDays

def dayMicroseconds : Int := 86400000000

def defaultPurgeBatchSize : Nat := 16

namespace TrashService

variable (s : TrashService)

/-- `_expires_at`. -/
def expiresAt (item : TrashItem) : Int := item.deletedAt + s.retentionDays * dayMicroseconds

/-- `_load_index`. -/
def loadIndex : Trash (List TrashItem) :=
  attempt .readIndex fun _ => vaultUnavailable "Vault trash index cannot be read"

/-- `_write_index`. -/
def writeIndex (items : List TrashItem) : Trash Unit := do
  attempt .ensureRoot fun _ => vaultUnavailable "Vault trash cannot be initialized"
  attempt (.writeIndex items) fun _ => atomicWriteError "Vault trash index could not be written"

/-- `_entry`. -/
def entry (entryId : Text) : Trash (List TrashItem × TrashItem) := do
  let items ← loadIndex
  match items.find? fun item => item.id = entryId with
  | some item => pure (items,item)
  | none => Proc.throw (pathNotFound none)

/-- `_blob_path`, of which only the refusal is kept here. -/
def blobPath (item : TrashItem) : Trash Unit :=
  attempt (.blobPath item) fun _ => invalidOperation "Trash payload is outside the trash"

/-- `_quarantine_payload`. -/
def quarantinePayload (item : TrashItem) : Trash (Option TrashName) := do
  blobPath item
  match ← Proc.perform (.lstat (.holder item.id)) with
  | .error .enoent => pure none
  | .error errno => Proc.throw (.os errno)
  | .ok _ => do
    let token ← attempt .uuid fun errno => .os errno
    attempt (.rename (.holder item.id) (.delete item.id token)) fun _ =>
      atomicWriteError "Trash entry could not be quarantined"
    pure (some (.delete item.id token))

/-- `_restore_quarantine`. -/
def restoreQuarantine (item : TrashItem) : Option TrashName → Trash Unit
  | none => pure ()
  | some quarantine => suppressed (.rename quarantine (.holder item.id))

/-- `_delete_quarantine`; `shutil.rmtree(None)` is a `TypeError`. -/
def deleteQuarantine : Option TrashName → Trash Unit
  | none => Proc.throw (.runtime "lstat: path should be string, bytes or os.PathLike")
  | some quarantine => suppressed (.rmtree quarantine)

def delete (entryId : Text) : Trash Text := do
  let (items,item) ← entry entryId
  let quarantine ← quarantinePayload item
  (writeIndex (items.filter fun other => other.id ≠ item.id)).tryCatch fun reason => do
    restoreQuarantine item quarantine
    Proc.throw reason
  deleteQuarantine quarantine
  pure item.originalPath

/-- The loop of `empty`: what has been detached, and the exception that ended it, if any. -/
def quarantineEach : List TrashItem → List (TrashItem × Option TrashName) →
    Trash (List (TrashItem × Option TrashName) × Except Exc Unit)
  | [],quarantined => pure (quarantined,.ok ())
  | item :: rest,quarantined => (quarantinePayload item).andThen fun
    | .ok quarantine => quarantineEach rest (quarantined ++ [(item,quarantine)])
    | .error reason => pure (quarantined,.error reason)

def restoreEach : List (TrashItem × Option TrashName) → Trash Unit
  | [] => pure ()
  | (item,quarantine) :: rest => do
    restoreQuarantine item quarantine
    restoreEach rest

def removeEach : List (Option TrashName) → Trash Unit
  | [] => pure ()
  | none :: rest => removeEach rest
  | some quarantine :: rest => do
    suppressed (.rmtree quarantine)
    removeEach rest

def empty : Trash Nat := do
  let items ← loadIndex
  let (quarantined,ended) ← quarantineEach items []
  ((Proc.ofExcept ended >>= fun _ => if items = [] then pure () else writeIndex []).tryCatch
    fun reason => do
      restoreEach quarantined.reverse
      Proc.throw reason)
  removeEach (quarantined.map Prod.snd)
  pure items.length

/-- The split of `purge_expired`: at most `limit` expired items, and the others. -/
def splitExpired (moment : Int) (limit : Option Nat) : List TrashItem → Nat →
    List TrashItem × List TrashItem
  | [],_ => ([],[])
  | item :: rest,taken =>
    if s.expiresAt item ≤ moment ∧ (limit = none ∨ ∃ bound ∈ limit,taken < bound) then
      let (expired,kept) := splitExpired moment limit rest (taken + 1)
      (item :: expired,kept)
    else
      let (expired,kept) := splitExpired moment limit rest taken
      (expired,item :: kept)

/-- The body of the loop of `purge_expired`. -/
def detach (item : TrashItem) : Trash (Option TrashName) := do
  match ← Proc.perform (.lstat (.holder item.id)) with
  | .error _ => pure none
  | .ok _ => do
    blobPath item
    let token ← attempt .uuid fun errno => .os errno
    attempt (.rename (.holder item.id) (.purge item.id token)) fun errno => .os errno
    pure (some (.purge item.id token))

def detachEach : List TrashItem → List (TrashItem × Option TrashName) →
    Trash (List (TrashItem × Option TrashName) × Except Exc Unit)
  | [],moved => pure (moved,.ok ())
  | item :: rest,moved => (detach item).andThen fun
    | .ok none => detachEach rest moved
    | .ok quarantine => detachEach rest (moved ++ [(item,quarantine)])
    | .error reason => pure (moved,.error reason)

def purgeExpired (moment : Int) (limit : Option Nat) : Trash Nat := do
  Proc.raiseIf (limit = some 0) (.value "limit must be a positive integer")
  let items ← loadIndex
  let (expired,kept) := s.splitExpired moment limit items 0
  if expired = [] then pure 0
  else do
    let (moved,ended) ← detachEach expired []
    ((Proc.ofExcept ended >>= fun _ => writeIndex kept).tryCatch fun reason => do
      restoreEach moved.reverse
      Proc.throw reason)
    removeEach (moved.map Prod.snd)
    pure expired.length

/-- What `_clean_quarantine` does with one directory it has found. -/
def claim (indexedIds : List Text) (name : TrashName) : Trash (Option TrashName) :=
  if Text.startsWith name.text deleteDirPrefix ∧ name.identifier ∈ indexedIds then do
    suppressed (.rename name (.holder name.identifier))
    pure none
  else do
    let token ← attempt .uuid fun errno => .os errno
    match ← Proc.perform (.rename name (.gc token)) with
    | .ok _ => pure (some (.gc token))
    | .error _ => pure none

def claimEach (indexedIds : List Text) : List TrashName → Trash (List TrashName)
  | [] => pure []
  | name :: rest => do
    let first ← claim indexedIds name
    let later ← claimEach indexedIds rest
    pure (first.toList ++ later)

def removeClaim (name : TrashName) : Trash Nat := do
  match ← Proc.perform (.lstat name) with
  | .error _ => pure 0
  | .ok _ => do
    match ← Proc.perform (.rmtree name) with
    | .ok _ => pure 1
    | .error _ => pure 0

def removeClaimed : List TrashName → Trash Nat
  | [] => pure 0
  | name :: rest => do
    let removed ← removeClaim name
    let later ← removeClaimed rest
    pure (removed + later)

def cleanable (limit : Nat) : Trash (List TrashName × List Text) := do
  attempt .ensureRoot fun _ => vaultUnavailable "Vault trash cannot be initialized"
  let found ← attempt .glob fun errno => .os errno
  let items ← loadIndex
  pure ((found.insertionSort fun a b => a.text ≤ b.text).take limit,items.map TrashItem.id)

/-- `_clean_quarantine`. -/
def cleanQuarantine (limit : Nat) : Trash Nat :=
  (cleanable limit).andThen fun
  | .error _ => pure 0
  | .ok (entries,indexedIds) => do
    let claimed ← claimEach indexedIds entries
    removeClaimed claimed

/-- `list_entries`, up to the views it returns. -/
def listEntries (moment : Int) : Trash (List TrashItem) := do
  attempt .ensureRoot fun _ => vaultUnavailable "Vault trash cannot be initialized"
  let _ ← cleanQuarantine defaultPurgeBatchSize
  let _ ← s.purgeExpired moment (some defaultPurgeBatchSize)
  loadIndex

end TrashService

end LocalBook.Vault
