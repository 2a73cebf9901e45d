import LocalBook.Text

/-! Every exception a modelled component raises: the Vault's domain errors, the
job errors, and the Python errors that pass through unwrapped. Codes and default
messages are those of the source. -/
namespace LocalBook

inductive VaultErrorCode where
  | vaultUnavailable
  | pathTraversal
  | symlinkEscape
  | notFound
  | alreadyExists
  | fileConflict
  | expectedHashRequired
  | invalidRequest
  | fileTooLarge
  | notAFile
  | notADirectory
  | atomicWriteFailed
deriving Repr,DecidableEq

structure VaultError where
  code : VaultErrorCode
  message : String
  path : Option Text := none
deriving Repr,DecidableEq

inductive M7ErrorCode where
  | policyDenied
  | confirmationRequired
  | invalidAction
  | invalidActionOutput
  | unsupportedAction
  | jobNotFound
  | jobStateConflict
  | transactionFailed
  | rollbackFailed
  | undoConflict
  | undoUnavailable
  | historyLimitExceeded
deriving Repr,DecidableEq

/-- The extra data an M7 error carries for the API. -/
structure M7Meta where
  jobId : Option Text := none
  path : Option Text := none
  bytes : Option Nat := none
  rules : List String := []
  conflictPaths : List Text := []
deriving Repr,DecidableEq

structure M7Error where
  code : M7ErrorCode
  message : Text
  extra : M7Meta := {}
deriving Repr,DecidableEq

/-- `errno` of an `OSError`, with the values some component tests by name. -/
inductive Errno where
  | eexist
  | enoent
  | enotdir
  | exdev
  | einval
  | enotsup
  | eopnotsupp
  | ebadf
  | eacces
  | eisdir
  | enotempty
  | eloop
  | eio
  | other (number : Nat)
deriving Repr,DecidableEq

inductive Exc where
  | vault (error : VaultError)
  | m7 (error : M7Error)
  | os (errno : Errno)
  | value (message : String)
  | runtime (message : String)
  /-- `_Conflict` of the undo service. -/
  | conflict (path : Text)
  /-- A constraint of the database refused a statement. -/
  | integrity
deriving Repr,DecidableEq

namespace Exc

/-- `exc.code` when the exception carries a Vault code. -/
def vaultCode? : Exc → Option VaultErrorCode
  | .vault error => some error.code
  | _ => none

def NoCollision (reason : Exc) : Prop := reason.vaultCode? ≠ some .alreadyExists

end Exc

def vaultUnavailable (message : String) (path : Option Text := none) : Exc :=
  .vault ⟨.vaultUnavailable,message,path⟩

def pathTraversal (message : String) (path : Option Text := none) : Exc :=
  .vault ⟨.pathTraversal,message,path⟩

def symlinkEscape (path : Option Text) : Exc :=
  .vault ⟨.symlinkEscape,"Symbolic links are not allowed in Vault paths",path⟩

def pathNotFound (path : Option Text := none) : Exc :=
  .vault ⟨.notFound,"File or directory was not found",path⟩

def alreadyExists (path : Option Text := none) : Exc :=
  .vault ⟨.alreadyExists,"Destination already exists",path⟩

def fileConflict (path : Option Text) : Exc :=
  .vault ⟨.fileConflict,"File changed externally; reload before writing",path⟩

def expectedHashRequired (path : Option Text) : Exc :=
  .vault ⟨.expectedHashRequired,"expected_sha256 is required for updates",path⟩

def invalidOperation (message : String) (path : Option Text := none) : Exc :=
  .vault ⟨.invalidRequest,message,path⟩

def invalidRequest (message : String) (path : Option Text := none) : Exc :=
  .vault ⟨.invalidRequest,message,path⟩

def fileTooLarge (path : Option Text := none) : Exc :=
  .vault ⟨.fileTooLarge,"File exceeds the configured size limit",path⟩

def notAFile (path : Option Text) : Exc := .vault ⟨.notAFile,"Path is not a regular file",path⟩

def notADirectory (path : Option Text) : Exc :=
  .vault ⟨.notADirectory,"Path is not a directory",path⟩

def atomicWriteError (message : String) : Exc := .vault ⟨.atomicWriteFailed,message,none⟩

def m7 (code : M7ErrorCode) (message : Text) (extra : M7Meta := {}) : Exc :=
  .m7 ⟨code,message,extra⟩

/-- The host also words the errors of the operating system. -/
class Runtime extends Host where
  osText : Errno → Text

namespace AsciiRuntime

scoped instance runtime : Runtime := {AsciiHost.host with osText := fun _ => []}

end AsciiRuntime

/-- `str(exc)`. -/
def Exc.text [Runtime] : Exc → Text
  | .vault error => error.message.toList
  | .m7 error => error.message
  | .os errno => Runtime.osText errno
  | .value message => message.toList
  | .runtime message => message.toList
  | .conflict path => path
  | .integrity => "FOREIGN KEY constraint failed".toList

/-- `_safe_message`, for exceptions that have a text. -/
def Exc.safeMessage [Runtime] (reason : Exc) : Text := (Text.strip reason.text).take 500

end LocalBook
