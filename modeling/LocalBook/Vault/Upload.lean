import LocalBook.Vault.Service

/-! Attachment uploads: choose a free name in an existing directory and create the
file there, with a bounded number of retries when the name is taken meanwhile. -/
namespace LocalBook.Vault

open Effect

def attachmentNameRetries : Nat := 5

/-- The two upload channels: the whole content, or the non-empty reads of a reader. -/
inductive Upload where
  | content (data : Bytes)
  | stream (chunks : List Bytes)

namespace Upload

def data : Upload → Bytes
  | .content data => data
  | .stream chunks => payload chunks

end Upload

structure UploadReceipt extends Receipt where
  originalName : Text

/-- `directory or "."`. -/
def directoryText (directory : Text) : Text := if directory = [] then ['.'] else directory

/-- `_resolve_upload_directory`. -/
def resolveUploadDirectory (targetDirectory : Text) : Look (Text × Path) := do
  let directory ← Proc.ofExcept (normalizeTargetDirectory targetDirectory)
  let path ← resolveExistingDirectory (directoryText directory) true
  let _ ← assertSafeExisting path (if directory = [] then display path else directory)
  pure (directory,path)

/-- `_existing_child_names`. -/
def existingChildNames (directory : Path) : Look (Finset Text) := do
  match ← Call.scandir directory with
  | .ok names => pure names
  | .error errno => Proc.throw (readRefusal "Vault directory cannot be listed" errno)

def childText (directory name : Text) : Text :=
  if directory = [] then name else directory ++ '/' :: name

def refuseSymlinks (directory : Text) (directoryPath : Path) : List Text → Look Unit
  | [] => pure ()
  | name :: rest => do
    match ← Call.lstat (directoryPath ++ [name]) with
    | .error .enoent => refuseSymlinks directory directoryPath rest
    | .error _ => Proc.throw (vaultUnavailable "Vault entry cannot be inspected")
    | .ok info =>
      if info.isSymlink then Proc.throw (symlinkEscape (childText directory name))
      else refuseSymlinks directory directoryPath rest

namespace VaultService

variable (v : VaultService)

def createUpload (upload : Upload) (replayed : Bool) (target : Path) : Fs (Text × Nat) :=
  match upload with
  | .content data => do
    atomicCreateBytes target data
    pure (sha256Bytes data,data.size)
  | .stream chunks => atomicCreateStream target chunks replayed v.maxFileBytes

/-- The checks after the create, and `_attachment_response`. -/
def uploadReceipt (displayName directory : Text) (directoryPath : Path) (relative : Text)
    (stored : Text × Nat) : Look UploadReceipt := do
  let _ ← assertSafeExisting directoryPath (directoryText directory)
  let _ ← assertSafeExisting (relativeParts relative) relative
  pure ⟨⟨relative,some stored.1,some stored.2,.created⟩,displayName⟩

/-- The `try` block of one attempt. -/
def storeUpload (upload : Upload) (replayed : Bool) (displayName directory : Text)
    (directoryPath : Path) (relative : Text) : Fs UploadReceipt := do
  let stored ← v.createUpload upload replayed (relativeParts relative)
  liftM (uploadReceipt displayName directory directoryPath relative stored)

def chooseName [Host] (displayName directory : Text) (directoryPath : Path) (taken : List Text) :
    Look (Text × Bool) := do
  let relative ← Proc.ofExcept (safeAttachmentName displayName directory taken)
  let _ ← assertSafeExisting directoryPath (directoryText directory)
  match ← Call.lstat (relativeParts relative) with
  | .error .enoent => pure (relative,true)
  | .error errno => Proc.throw (.os errno)
  | .ok info =>
    if info.isSymlink then Proc.throw (symlinkEscape relative) else pure (relative,false)

/-- `except AlreadyExists: ...; continue` around one attempt. -/
def retryOnCollision (attempt : Fs UploadReceipt) (retry : Exc → Fs UploadReceipt) :
    Fs UploadReceipt :=
  attempt.andThen fun
    | .ok receipt => pure receipt
    | .error reason =>
      if reason.vaultCode? = some .alreadyExists then retry reason else Proc.throw reason

def uploadLoop [Host] (upload : Upload) (displayName directory : Text) (directoryPath : Path) :
    Nat → Bool → List Text → Exc → Fs UploadReceipt
  | 0, _, _, lastError => Proc.throw lastError
  | attempts + 1, replayed, taken, _ => do
    let (relative,free) ← liftM (chooseName displayName directory directoryPath taken)
    let name := (relativeParts relative).getLastD []
    if free then
      retryOnCollision
        (v.storeUpload upload replayed displayName directory directoryPath relative) fun reason =>
          uploadLoop upload displayName directory directoryPath attempts true (name :: taken)
            (nameCollision relative reason)
    else
      uploadLoop upload displayName directory directoryPath attempts replayed (name :: taken)
        (alreadyExists relative)

def checkSize : Upload → Look Unit
  | .content data => Proc.raiseIf (data.size > v.maxFileBytes) fileTooLarge
  | .stream _ => pure ()

/-- The checks of `_upload_attachment` before it looks at the names in the directory. -/
def uploadChecks (upload : Upload) (originalName targetDirectory : Text) :
    Look (Text × Path × Finset Text) := do
  Proc.raiseIf (Text.strip originalName = [])
    (invalidRequest "original_name must be a non-empty string")
  v.checkSize upload
  let (directory,directoryPath) ← resolveUploadDirectory targetDirectory
  let _ ← assertSafeExisting directoryPath (directoryText directory)
  let existing ← existingChildNames directoryPath
  pure (directory,directoryPath,existing)

/-- `_upload_attachment`. -/
def uploadAttachment [Host] (upload : Upload) (originalName targetDirectory : Text) :
    Fs UploadReceipt := do
  let (directory,directoryPath,existing) ←
    liftM (v.uploadChecks upload originalName targetDirectory)
  liftM (refuseSymlinks directory directoryPath (existing.sort (· ≤ ·)))
  v.uploadLoop upload (Text.strip originalName) directory directoryPath attachmentNameRetries
    false (existing.sort (· ≤ ·)) alreadyExists

end VaultService

/-- The new file stands in the directory, under one segment. -/
theorem relativeParts_child {directory name : Text} (safe : SafeName name)
    (valid : directory = [] ∨ Canonical directory) :
    relativeParts (if directory = [] then name else directory ++ '/' :: name) =
      relativeParts (directoryText directory) ++ [name] := by
  have alone : Text.split '/' name = [name] := List.splitOn_eq_singleton safe.segment
  unfold directoryText
  split
  · rw [relativeParts,if_neg safe.other,alone]
    rfl
  · next nonempty =>
    have canonical := valid.resolve_left nonempty
    have slashed : directory ++ '/' :: name ≠ ['.'] := by
      intro dot
      have found : '/' ∈ directory ++ '/' :: name := by simp
      rw [dot] at found
      simp at found
    rw [relativeParts,if_neg slashed,split_last_slash directory safe.segment,
      relativeParts_of_canonical canonical]

end LocalBook.Vault
