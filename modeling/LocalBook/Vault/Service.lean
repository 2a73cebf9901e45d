import LocalBook.Vault.AtomicWrite
import LocalBook.Vault.Attachments

/-! The Vault façade: every operation validates its path, repeats the safety checks
around each step, and compares content by digest. -/
namespace LocalBook.Vault

open Effect

structure VaultService where
  maxFileBytes : Nat
  positive : 0 < maxFileBytes

theorem hundred_pos : 0 < 100 := by decide

inductive Operation where
  | created
  | updated
  | deleted
  | moved
deriving Repr,DecidableEq

/-- What a mutation answers. -/
structure Receipt where
  path : Text
  sha256 : Option Text
  byteLength : Option Nat
  operation : Operation
deriving Repr,DecidableEq

/-- `_validate_public_path`. -/
def validatePublicPath (value : Text) : Except Exc Text :=
  match validateRelativePath value false with
  | .error reason => .error reason
  | .ok relative =>
    if isReservedDerivedPath relative then
      .error (invalidOperation "The .localnote directory is reserved")
    else .ok relative

/-- `_resolve_existing_file`. -/
def resolveFile (value : Text) : Look (Text × Path) := do
  let relative ← Proc.ofExcept (validatePublicPath value)
  let path ← resolveExistingFile relative
  let _ ← assertSafeExisting path relative
  pure (relative,path)

/-- `_resolve_parent_and_target`. -/
def resolveParentAndTarget (value : Text) : Look (Text × Path × Path) := do
  let relative ← Proc.ofExcept (validatePublicPath value)
  let (_,parent,target) ← resolveParent relative
  let _ ← assertSafeExisting parent (display parent)
  pure (relative,parent,target)

/-- `_require_expected_hash`. -/
def requireExpectedHash [Host] (relative : Text) : Option Text → Except Exc Text
  | none => .error (expectedHashRequired relative)
  | some expected =>
    if expected = [] then .error (expectedHashRequired relative)
    else .ok (canonicalDigest expected)

/-- `except FileNotFoundError: raise PathNotFound; except OSError: raise VaultUnavailable`. -/
def readRefusal (message : String) : Errno → Exc
  | .enoent => pathNotFound
  | _ => vaultUnavailable message

namespace VaultService

variable (v : VaultService)

/-- `_read_file`. -/
def readFile (p : Path) : Look Bytes := do
  match ← Call.size p with
  | .error errno => Proc.throw (readRefusal "Vault file cannot be inspected" errno)
  | .ok size =>
    if size > v.maxFileBytes then Proc.throw fileTooLarge else do
      match ← Call.read p with
      | .error errno => Proc.throw (readRefusal "Vault file cannot be read" errno)
      | .ok data => if data.size > v.maxFileBytes then Proc.throw fileTooLarge else pure data

/-- `_snapshot`: the content and its digest, between two safety checks. -/
def snapshot (relative : Text) (p : Path) : Look (Bytes × Text) := do
  let _ ← assertSafeExisting p relative
  let data ← v.readFile p
  let _ ← assertSafeExisting p relative
  pure (data,sha256Bytes data)

def readBytes (value : Text) : Look (Bytes × Text) := do
  let (relative,path) ← resolveFile value
  v.snapshot relative path

/-- The `lstat` of a target that must not exist yet. -/
def assertFree (message : String) (relative : Text) (target : Path) : Look Unit := do
  match ← Call.lstat target with
  | .error .enoent => pure ()
  | .error _ => Proc.throw (vaultUnavailable message relative)
  | .ok info =>
    if info.isSymlink then Proc.throw (symlinkEscape relative)
    else Proc.throw (alreadyExists relative)

/-- `except AlreadyExists as exc: exc.path = relative; raise`. -/
def nameCollision (relative : Text) : Exc → Exc
  | .vault ⟨.alreadyExists,message,_⟩ => .vault ⟨.alreadyExists,message,some relative⟩
  | reason => reason

def createdReceipt (relative : Text) (target : Path) (data : Bytes) : Look Receipt := do
  let _ ← assertSafeExisting target relative
  pure ⟨relative,some (sha256Bytes data),some data.size,.created⟩

def storeNew (relative : Text) (target : Path) (data : Bytes) : Fs Receipt := do
  Proc.tryCatch (atomicCreateBytes target data) fun reason =>
    Proc.throw (nameCollision relative reason)
  liftM (createdReceipt relative target data)

def createTail (relative : Text) (parent target : Path) (data : Bytes) : Fs Receipt := do
  liftM (do
    let _ ← assertSafeExisting parent (display parent)
    assertFree "Vault target cannot be inspected" relative target)
  storeNew relative target data

def createBytes (value : Text) (data : Bytes) : Fs Receipt :=
  if data.size > v.maxFileBytes then Proc.throw (fileTooLarge value) else do
    let (relative,parent,target) ← liftM (resolveParentAndTarget value)
    createTail relative parent target data

/-- One of the two content checks of `before_replace`. -/
def unchanged (relative : Text) (p : Path) (expected : Text) : Look Unit := do
  let _ ← assertSafeExisting p relative
  let (_,digest) ← v.snapshot relative p
  Proc.raiseIf (digest ≠ expected) (fileConflict relative)

def beforeReplace (relative : Text) (p : Path) (expected : Text) : Look Unit := do
  v.unchanged relative p expected
  v.unchanged relative p expected

def expectedContent [Host] (relative : Text) (p : Path) (expectedSha256 : Option Text) :
    Look Text := do
  let (_,actual) ← v.snapshot relative p
  let expected ← Proc.ofExcept (requireExpectedHash relative expectedSha256)
  Proc.raiseIf (expected ≠ actual) (fileConflict relative)
  pure actual

def writeBytes [Host] (value : Text) (data : Bytes) (expectedSha256 : Option Text) :
    Fs Receipt :=
  if data.size > v.maxFileBytes then Proc.throw (fileTooLarge value) else do
    let (relative,path,actual) ← liftM (do
      let (relative,path) ← resolveFile value
      let actual ← v.expectedContent relative path expectedSha256
      pure (relative,path,actual) : Look (Text × Path × Text))
    atomicReplaceBytes path data (v.beforeReplace relative path actual)
    liftM (do
      let _ ← assertSafeExisting path relative
      let final ← v.readFile path
      pure ⟨relative,some (sha256Bytes final),some final.size,.updated⟩ : Look Receipt)

def createDirectory (value : Text) : Fs Receipt := do
  let (relative,parent,target) ← liftM (resolveParentAndTarget value)
  liftM (do
    let _ ← assertSafeExisting parent (display parent)
    assertFree "Vault target cannot be inspected" relative target
    let _ ← assertSafeExisting parent (display parent))
  match ← Call.mkdir target with
  | .error .eexist => Proc.throw (alreadyExists relative)
  | .error _ => Proc.throw (atomicWriteError "Vault directory could not be created")
  | .ok _ => do
    let _ ← liftM (assertSafeExisting target relative)
    pure ⟨relative,none,none,.created⟩

def deleteFile [Host] (value : Text) (expectedSha256 : Option Text) : Fs Receipt := do
  let (relative,path) ← liftM (do
    let (relative,path) ← resolveFile value
    let actual ← v.expectedContent relative path expectedSha256
    v.unchanged relative path actual
    pure (relative,path) : Look (Text × Path))
  match ← Call.unlink path with
  | .error .enoent => Proc.throw (fileConflict relative)
  | .error _ => Proc.throw (atomicWriteError "Vault file could not be deleted")
  | .ok _ => pure ⟨relative,none,none,.deleted⟩

def moveRefusal (destination : Text) : Errno → Exc
  | .eexist => alreadyExists destination
  | .exdev => atomicWriteError "Vault move cannot cross devices"
  | _ => atomicWriteError "Vault move failed"

/-- The checks of `move_file` between the content check and the link. -/
def moveChecks (sourceRelative : Text) (source : Path) (destinationRelative : Text)
    (parent destination : Path) : Look Unit := do
  let _ ← assertSafeExisting parent (display parent)
  assertFree "Vault destination cannot be inspected" destinationRelative destination
  let _ ← assertSafeExisting source sourceRelative
  let _ ← assertSafeExisting parent (display parent)
  pure ()

def movedContent (sourceRelative : Text) (source : Path) (destinationRelative : Text)
    (destination : Path) (actual : Text) : Look Unit := do
  let _ ← assertSafeExisting destination destinationRelative
  let (_,destinationHash) ← v.snapshot destinationRelative destination
  Proc.raiseIf (destinationHash ≠ actual) (fileConflict sourceRelative)
  let (_,sourceHash) ← v.snapshot sourceRelative source
  Proc.raiseIf (sourceHash ≠ actual) (fileConflict sourceRelative)

def finishMove (sourceRelative : Text) (source : Path) (destinationRelative : Text)
    (destination : Path) (actual : Text) : Fs Unit :=
  Proc.tryCatch (do
    liftM (v.movedContent sourceRelative source destinationRelative destination actual)
    match ← Call.unlink source with
    | .ok _ => pure ()
    | .error errno => Proc.throw (.os errno)) fun reason => do
      let _ ← Call.unlink destination
      Proc.throw reason

def relink (sourceRelative : Text) (source : Path) (destinationRelative : Text)
    (destination : Path) (actual : Text) : Fs Unit := do
  match ← Call.link source destination with
  | .error errno => Proc.throw (moveRefusal destinationRelative errno)
  | .ok _ => v.finishMove sourceRelative source destinationRelative destination actual

def movedReceipt (destinationRelative : Text) (destination : Path) (actual : Text) :
    Look Receipt := do
  let final ← v.readFile destination
  pure ⟨destinationRelative,some actual,some final.size,.moved⟩

def moveTail [Host] (sourceRelative : Text) (source : Path) (destinationRelative : Text)
    (parent destination : Path) (expectedSha256 : Option Text) : Fs Receipt := do
  let actual ← liftM (v.expectedContent sourceRelative source expectedSha256)
  liftM (moveChecks sourceRelative source destinationRelative parent destination)
  v.relink sourceRelative source destinationRelative destination actual
  liftM (v.movedReceipt destinationRelative destination actual)

def moveFile [Host] (sourcePath destinationPath : Text) (expectedSha256 : Option Text) :
    Fs Receipt := do
  let (sourceRelative,source) ← liftM (resolveFile sourcePath)
  let (destinationRelative,parent,destination) ← liftM (resolveParentAndTarget destinationPath)
  if sourceRelative = destinationRelative then
    Proc.throw (invalidOperation "Source and destination must differ" sourceRelative)
  else v.moveTail sourceRelative source destinationRelative parent destination expectedSha256

end VaultService

def PublicPath (value : Text) : Prop := Canonical value ∧ isReservedDerivedPath value = false

theorem validatePublicPath_iff {value relative : Text} :
    validatePublicPath value = .ok relative ↔ PublicPath value ∧ relative = value := by
  unfold validatePublicPath
  cases valid : validateRelativePath value false with
  | error reason =>
    refine iff_of_false (by simp) ?_
    intro both
    have accepted : validateRelativePath value false = .ok value :=
      validate_iff.mpr ⟨both.1.1,rfl⟩
    simp [accepted] at valid
  | ok text =>
    obtain ⟨canonical,rfl⟩ := validate_iff.mp valid
    simp only [PublicPath,canonical,true_and]
    cases isReservedDerivedPath text <;> simp [eq_comm]

theorem PublicPath.parts_ne_nil {value : Text} (valid : PublicPath value) :
    relativeParts value ≠ [] := relativeParts_ne_nil valid.1

section Specs

variable {d : Disk} {v : VaultService} {value : Text} {errno : Errno}

theorem eval_resolveFile {result : Text × Path} :
    eval ReadOp.answer (resolveFile value) d = .ok result ↔
      PublicPath value ∧ result = (value,relativeParts value) ∧
        ∃ data, d.tree.FileAt (relativeParts value) data := by
  simp only [resolveFile,eval_bind_eq_ok,eval_ofExcept,eval_pure,Except.ok.injEq]
  constructor
  · intro resolved
    obtain ⟨relative,valid,path,found,_,_,rfl⟩ := resolved
    obtain ⟨valid,rfl⟩ := validatePublicPath_iff.mp valid
    obtain ⟨_,rfl,data,file⟩ := eval_resolveExistingFile.mp found
    exact ⟨valid,rfl,data,file⟩
  · intro resolved
    obtain ⟨valid,rfl,data,file⟩ := resolved
    exact ⟨value,validatePublicPath_iff.mpr ⟨valid,rfl⟩,_,
      eval_resolveExistingFile.mpr ⟨valid.1,rfl,data,file⟩,_,
      eval_assertSafeExisting.mpr ⟨file,rfl⟩,rfl⟩

theorem eval_resolveParentAndTarget {result : Text × Path × Path} :
    eval ReadOp.answer (resolveParentAndTarget value) d = .ok result ↔
      PublicPath value ∧ result = (value,(relativeParts value).dropLast,relativeParts value) ∧
        d.tree.Dirs (relativeParts value).dropLast ∧
        ∀ target, d.tree.get (relativeParts value) ≠ some (.symlink target) := by
  simp only [resolveParentAndTarget,eval_bind_eq_ok,eval_ofExcept,eval_pure,Except.ok.injEq]
  constructor
  · intro resolved
    obtain ⟨relative,valid,place,found,_,_,rfl⟩ := resolved
    obtain ⟨valid,rfl⟩ := validatePublicPath_iff.mp valid
    obtain ⟨_,rfl,dirs,leaf⟩ := eval_resolveParent.mp found
    exact ⟨valid,rfl,dirs,leaf⟩
  · intro resolved
    obtain ⟨valid,rfl,dirs,leaf⟩ := resolved
    exact ⟨value,validatePublicPath_iff.mpr ⟨valid,rfl⟩,_,
      eval_resolveParent.mpr ⟨valid.1,rfl,dirs,leaf⟩,_,
      eval_assertSafeExisting.mpr ⟨dirs.at,rfl⟩,rfl⟩

theorem eval_readFile {p : Path} {data content : Bytes} (file : d.tree.FileAt p data) :
    eval ReadOp.answer (v.readFile p) d = .ok content ↔
      data.size ≤ v.maxFileBytes ∧ content = data := by
  simp only [VaultService.readFile,eval_bind_eq_ok,Call.eval_size,Except.ok.injEq,
    exists_eq_left',Tree.lstat_of_at file,Except.map,Node.size]
  by_cases large : v.maxFileBytes < data.size
  · simp [large]
  · simp [large,eval_bind,Tree.read_of_file file,Nat.not_lt.mp large,eq_comm]

theorem eval_snapshot {relative : Text} {p : Path} {data : Bytes} {result : Bytes × Text}
    (file : d.tree.FileAt p data) :
    eval ReadOp.answer (v.snapshot relative p) d = .ok result ↔
      data.size ≤ v.maxFileBytes ∧ result = (data,sha256Bytes data) := by
  have safe : eval ReadOp.answer (assertSafeExisting p relative) d = .ok (.file data) :=
    eval_assertSafeExisting.mpr ⟨file,rfl⟩
  simp only [VaultService.snapshot,eval_bind_eq_ok,eval_readFile file,safe,eval_pure,
    Except.ok.injEq,exists_eq_left']
  constructor
  · intro found
    obtain ⟨content,⟨small,rfl⟩,rfl⟩ := found
    exact ⟨small,rfl⟩
  · intro found
    exact ⟨data,⟨found.1,rfl⟩,found.2.symm⟩

/-- Reading succeeds exactly on a public path at which a file of admissible size stands. -/
theorem eval_readBytes {data : Bytes} {digest : Text} :
    eval ReadOp.answer (v.readBytes value) d = .ok (data,digest) ↔
      PublicPath value ∧ d.tree.FileAt (relativeParts value) data ∧
        data.size ≤ v.maxFileBytes ∧ digest = sha256Bytes data := by
  simp only [VaultService.readBytes,eval_bind_eq_ok,eval_resolveFile]
  constructor
  · intro found
    obtain ⟨_,⟨valid,rfl,content,file⟩,snap⟩ := found
    obtain ⟨small,same⟩ := (eval_snapshot file).mp snap
    obtain ⟨rfl,rfl⟩ := Prod.mk.inj same
    exact ⟨valid,file,small,rfl⟩
  · intro found
    obtain ⟨valid,file,small,rfl⟩ := found
    exact ⟨_,⟨valid,rfl,data,file⟩,(eval_snapshot file).mpr ⟨small,rfl⟩⟩

/-- A free name reads as absent. -/
theorem eval_readBytes_vacant (valid : PublicPath value)
    (vacant : d.tree.VacantAt (relativeParts value)) :
    eval ReadOp.answer (v.readBytes value) d = .error (pathNotFound value) := by
  have accepted : validateRelativePath value false = .ok value := validate_iff.mpr ⟨valid.1,rfl⟩
  have root := eval_assertRootAvailable.mpr vacant.1.root
  have chain := (@eval_checkExistingChain_vacant _ value [])
    (relativeParts value) valid.parts_ne_nil vacant
  simp only [VaultService.readBytes,resolveFile,resolveExistingFile,resolve,eval_bind,
    eval_ofExcept,validatePublicPath_iff.mpr ⟨valid,rfl⟩,root,accepted,chain]

theorem strict_resolveFile : Strict (fun _ => .error errno) (resolveFile value) :=
  (strict_ofExcept _).bind fun _ => (strict_resolve _ _ rfl).bind fun _ =>
    (strict_assertSafeExisting _).bind fun _ => trivial

theorem returns_resolveParentAndTarget :
    Returns (fun result : Text × Path × Path => PublicPath value ∧
      result = (value,(relativeParts value).dropLast,relativeParts value))
      (resolveParentAndTarget value) := by
  refine Returns.bind (Returns.ofExcept fun relative valid => validatePublicPath_iff.mp valid) ?_
  intro relative ⟨valid,same⟩
  subst same
  refine Returns.bind (returns_resolveParent relative) ?_
  intro place ⟨_,same⟩
  subst same
  exact Returns.last fun _ => ⟨valid,rfl⟩

theorem strict_readFile (p : Path) : Strict (fun _ => .error errno) (v.readFile p) := by
  refine strict_size ⟨_,rfl⟩ fun response => ?_
  cases response with
  | error reason => trivial
  | ok size =>
    dsimp only
    split
    · trivial
    · refine strict_read ⟨_,rfl⟩ fun response => ?_
      cases response with
      | error reason => trivial
      | ok data =>
        dsimp only
        split <;> trivial

theorem raises_readFile (p : Path) : Raises Exc.NoCollision (v.readFile p) := by
  refine raises_perform fun response => ?_
  cases response with
  | error reason => cases reason <;> nofun
  | ok size =>
    dsimp only
    split
    · nofun
    · refine raises_perform fun response => ?_
      cases response with
      | error reason => cases reason <;> nofun
      | ok data =>
        dsimp only
        split
        · nofun
        · trivial

theorem strict_snapshot (relative : Text) (p : Path) :
    Strict (fun _ => .error errno) (v.snapshot relative p) :=
  (strict_assertSafeExisting p).bind fun _ => (strict_readFile p).bind fun _ =>
    (strict_assertSafeExisting p).bind fun _ => trivial

theorem strict_unchanged (relative : Text) (p : Path) (expected : Text) :
    Strict (fun _ => .error errno) (v.unchanged relative p expected) :=
  (strict_assertSafeExisting p).bind fun _ => (strict_snapshot relative p).bind fun _ =>
    strict_raiseIf _ _

theorem strict_beforeReplace (relative : Text) (p : Path) (expected : Text) :
    Strict (fun _ => .error errno) (v.beforeReplace relative p expected) :=
  (strict_unchanged relative p expected).bind fun _ => strict_unchanged relative p expected

theorem strict_expectedContent [Host] (relative : Text) (p : Path) (expected : Option Text) :
    Strict (fun _ => .error errno) (v.expectedContent relative p expected) :=
  (strict_snapshot relative p).bind fun _ => (strict_ofExcept _).bind fun _ =>
    (strict_raiseIf _ _).bind fun _ => trivial

theorem strict_movedContent (sourceRelative : Text) (source : Path) (destinationRelative : Text)
    (destination : Path) (actual : Text) : Strict (fun _ => .error errno)
      (v.movedContent sourceRelative source destinationRelative destination actual) :=
  (strict_assertSafeExisting _).bind fun _ => (strict_snapshot _ _).bind fun _ =>
    (strict_raiseIf _ _).bind fun _ => (strict_snapshot _ _).bind fun _ => strict_raiseIf _ _

theorem eval_unchanged {relative : Text} {p : Path} {expected : Text} {data : Bytes}
    (file : d.tree.FileAt p data) :
    eval ReadOp.answer (v.unchanged relative p expected) d = .ok () ↔
      data.size ≤ v.maxFileBytes ∧ sha256Bytes data = expected := by
  have safe : eval ReadOp.answer (assertSafeExisting p relative) d = .ok (.file data) :=
    eval_assertSafeExisting.mpr ⟨file,rfl⟩
  simp only [VaultService.unchanged,eval_bind_eq_ok,safe,Except.ok.injEq,exists_eq_left',
    eval_snapshot file]
  constructor
  · intro checked
    obtain ⟨_,⟨small,rfl⟩,same⟩ := checked
    simp only [eval_raiseIf,ite_error_eq_ok,not_not] at same
    exact ⟨small,same.1⟩
  · intro checked
    exact ⟨_,⟨checked.1,rfl⟩,by simp [checked.2]⟩

def Expects [Host] (expected : Option Text) (data : Bytes) : Prop :=
  ∃ text, expected = some text ∧ text ≠ [] ∧ canonicalDigest text = sha256Bytes data

theorem requireExpectedHash_iff [Host] {relative : Text} {expected : Option Text}
    {digest : Text} : requireExpectedHash relative expected = .ok digest ↔
      ∃ text, expected = some text ∧ text ≠ [] ∧ canonicalDigest text = digest := by
  cases expected with
  | none => simp [requireExpectedHash]
  | some text => by_cases empty : text = [] <;> simp [requireExpectedHash,empty]

theorem expects_sha256Bytes [Host] (data : Bytes) : Expects (some (sha256Bytes data)) data :=
  ⟨_,rfl,sha256Bytes_ne_nil data,canonicalDigest_sha256Bytes data⟩

theorem eval_expectedContent [Host] {relative : Text} {p : Path} {expected : Option Text}
    {data : Bytes} {digest : Text} (file : d.tree.FileAt p data) :
    eval ReadOp.answer (v.expectedContent relative p expected) d = .ok digest ↔
      data.size ≤ v.maxFileBytes ∧ Expects expected data ∧ digest = sha256Bytes data := by
  simp only [VaultService.expectedContent,eval_bind_eq_ok,eval_snapshot file,eval_ofExcept,
    eval_pure,Except.ok.injEq]
  constructor
  · intro checked
    obtain ⟨_,⟨small,rfl⟩,wanted,required,_,same,rfl⟩ := checked
    simp only [eval_raiseIf,ite_error_eq_ok,not_not] at same
    obtain ⟨text,rfl,nonempty,canonical⟩ := requireExpectedHash_iff.mp required
    exact ⟨small,⟨text,rfl,nonempty,canonical.trans same.1⟩,rfl⟩
  · intro checked
    obtain ⟨small,⟨text,rfl,nonempty,canonical⟩,rfl⟩ := checked
    exact ⟨_,⟨small,rfl⟩,sha256Bytes data,
      requireExpectedHash_iff.mpr ⟨text,rfl,nonempty,canonical⟩,(),by simp,rfl⟩

theorem eval_assertFree {message : String} {relative : Text} {p : Path}
    (dirs : d.tree.Dirs p.dropLast) :
    eval ReadOp.answer (VaultService.assertFree message relative p) d = .ok () ↔
      d.tree.get p = none := by
  simp only [VaultService.assertFree,eval_bind_eq_ok,Call.eval_lstat,Except.ok.injEq,
    exists_eq_left']
  cases found : d.tree.get p with
  | none => simp [Tree.lstat_of_vacant ⟨dirs,found⟩]
  | some node =>
    rw [Tree.lstat_of_at ⟨dirs,found⟩]
    cases node <;> simp [Node.isSymlink]

end Specs

end LocalBook.Vault
