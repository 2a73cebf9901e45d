import LocalBook.Vault.PathSafety
import LocalBook.Sha256

/-! Atomic file mutations: the content goes to a temporary file in the same
directory, which a hard link or a rename then publishes under the visible name. -/
namespace LocalBook.Vault

open Effect

def tolerated : Errno → Bool
  | .einval | .enotsup | .eopnotsupp | .ebadf | .eacces => true
  | _ => false

def syncOutcome : Except Errno Unit → Fs Unit
  | .ok _ => pure ()
  | .error errno =>
    if tolerated errno then pure ()
    else Proc.throw (atomicWriteError "Vault directory durability sync failed")

/-- `_fsync_directory`. -/
def fsyncDirectory (directory : Path) : Fs Unit := do
  match ← Call.openDir directory with
  | .error errno => syncOutcome (.error errno)
  | .ok _ => do
    let synced ← Call.syncDir directory
    let _ ← Call.closeDir directory
    syncOutcome synced

/-- `_discard_temp`: failures to remove a temporary file are swallowed. -/
def discardTemp (token : Nat) : Fs Unit := do
  let _ ← Call.unlinkTemp token
  pure ()

/-- The `with os.fdopen(..)` block: write, flush and sync, and close in any case. -/
def fillTemp (token : Nat) (data : Bytes) : Fs (Except Errno Unit) := do
  match ← Call.writeTemp token data with
  | .error errno => do
    let _ ← Call.closeTemp token
    pure (.error errno)
  | .ok _ => match ← Call.syncTemp token with
    | .error errno => do
      let _ ← Call.closeTemp token
      pure (.error errno)
    | .ok _ => Call.closeTemp token

/-- `_write_temp`; a temporary file that could not be opened needs no removal. -/
def writeTemp (parent : Path) (data : Bytes) : Fs Nat := do
  match ← Call.openTemp parent with
  | .error _ => Proc.throw (atomicWriteError "Unable to prepare the atomic Vault write")
  | .ok token => match ← fillTemp token data with
    | .ok _ => pure token
    | .error _ => do
      discardTemp token
      Proc.throw (atomicWriteError "Unable to prepare the atomic Vault write")

def linkRefusal : Errno → Exc
  | .eexist => alreadyExists
  | _ => atomicWriteError "Unable to create the Vault file atomically"

/-- The publishing step: `os.replace`, or `os.link` followed by removing the old name. -/
def publish (replace : Bool) (token : Nat) (target : Path) : Fs Unit :=
  if replace then do
    match ← Call.replaceTemp token target with
    | .ok _ => pure ()
    | .error _ => Proc.throw (atomicWriteError "Atomic Vault write failed")
  else do
    let linked ← Call.linkTemp token target
    discardTemp token
    match linked with
    | .ok _ => pure ()
    | .error errno => Proc.throw (linkRefusal errno)

/-- `atomic_write_bytes`: an exception before the temporary name is gone removes it. -/
def atomicWriteBytes (target : Path) (data : Bytes) (replace : Bool) (beforeReplace : Look Unit) :
    Fs Unit := do
  let token ← writeTemp target.dropLast data
  Proc.tryCatch (do liftM beforeReplace; publish replace token target) fun reason => do
    discardTemp token
    Proc.throw reason
  fsyncDirectory target.dropLast

def atomicCreateBytes (target : Path) (data : Bytes) : Fs Unit :=
  atomicWriteBytes target data false (pure ())

def atomicReplaceBytes (target : Path) (data : Bytes) (beforeReplace : Look Unit) : Fs Unit :=
  atomicWriteBytes target data true beforeReplace

def nextChunk (replayed : Bool) : Fs Unit :=
  if replayed then pure () else do
    match ← liftM Call.receive with
    | .ok _ => pure ()
    | .error _ => Proc.throw (vaultUnavailable "Vault file could not be written")

def writeFailed : Except Errno Unit → Fs Unit
  | .ok _ => pure ()
  | .error _ => Proc.throw (vaultUnavailable "Vault file could not be written")

/-- The copy loop of `atomic_create_stream`. -/
def pour (token maxBytes : Nat) (replayed : Bool) (total : Nat) : List Bytes → Fs Unit
  | [] => nextChunk replayed
  | chunk :: rest => do
    nextChunk replayed
    if chunk.size = 0 then pour token maxBytes replayed total rest
    else if total + chunk.size > maxBytes then Proc.throw fileTooLarge
    else do
      writeFailed (← Call.writeTemp token chunk)
      pour token maxBytes replayed (total + chunk.size) rest

def payload (chunks : List Bytes) : Bytes := chunks.foldl (· ++ ·) .empty

/-- The body of the `with` statement and the close that ends it. -/
def fillStream (token maxBytes : Nat) (replayed : Bool) (chunks : List Bytes) : Fs Unit := do
  Proc.tryCatch (do
    pour token maxBytes replayed 0 chunks
    writeFailed (← Call.syncTemp token)) fun reason => do
      let _ ← Call.closeTemp token
      Proc.throw reason
  writeFailed (← Call.closeTemp token)

/-- `atomic_create_stream`. -/
def atomicCreateStream (target : Path) (chunks : List Bytes) (replayed : Bool) (maxBytes : Nat) :
    Fs (Text × Nat) := do
  match ← Call.openTemp target.dropLast with
  | .error _ => Proc.throw (vaultUnavailable "Vault file could not be written")
  | .ok token => do
    Proc.tryCatch (do
      fillStream token maxBytes replayed chunks
      match ← Call.linkTemp token target with
      | .ok _ => fsyncDirectory target.dropLast
      | .error errno => Proc.throw (linkRefusal errno)) fun reason => do
        discardTemp token
        Proc.throw reason
    discardTemp token
    pure (sha256Bytes (payload chunks),(payload chunks).size)

section Plain

variable {d e : Disk} {target : Path} {data : Bytes}

@[simp] theorem run_fsyncDirectory (dirs : d.tree.Dirs target) :
    run FsOp.step (fsyncDirectory target) d = (.ok (),d) := by
  simp [fsyncDirectory,run_bind,Disk.openDir,Tree.lstat_of_at dirs.at,syncOutcome]

def tempOf (d : Disk) (target : Path) (data : Bytes) : Temp :=
  ⟨Disk.fresh d.temps,target.dropLast,data⟩

theorem dropTemp_tempOf (d : Disk) (target : Path) (data : Bytes) :
    (d.addTemp (tempOf d target data)).dropTemp (Disk.fresh d.temps) = d :=
  d.dropTemp_addTemp (show (tempOf d target data).token = _ from rfl)

theorem run_writeTemp (dirs : d.tree.Dirs target.dropLast) :
    run FsOp.step (writeTemp target.dropLast data) d =
      (.ok (Disk.fresh d.temps),d.addTemp (tempOf d target data)) := by
  have opened := Disk.temp?_addTemp d (tempOf d target .empty)
  have filled := Disk.temp?_addTemp d (tempOf d target data)
  have dropped := dropTemp_tempOf d target .empty
  simp only [tempOf] at opened filled dropped
  simp [writeTemp,fillTemp,run_bind,Disk.openTemp,Disk.writeTemp,Disk.syncTemp,
    Tree.lstat_of_at dirs.at,opened,filled,dropped,tempOf]

end Plain

end LocalBook.Vault
