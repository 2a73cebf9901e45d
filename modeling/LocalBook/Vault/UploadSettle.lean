import LocalBook.Vault.Mutation
import LocalBook.Vault.Upload

/-! Uploads settle like the other mutations, towards a tree with one more file; the
name of that file is chosen on the way. -/
namespace LocalBook.Vault

open Effect

variable {errno : Errno} {s : Disk} {target : Path} {data : Bytes}

/-- What the copy loop of a stream leaves: the temporary file with some content. -/
inductive Poured (errno : Errno) (s : Disk) (target : Path) (goal content : Bytes) :
    Option (FsOp × Disk) → Except Exc Unit → Disk → Prop where
  | full : Poured errno s target goal content none (.ok ()) (s.addTemp (tempOf s target content))
  | refused {data : Bytes} {reason : Exc} (report : reason.NoCollision) :
    Poured errno s target goal content none (.error reason) (s.addTemp (tempOf s target data))
  | failed {op : FsOp} {before : Disk} {data : Bytes} {reason : Exc}
    (quiet : Quiet errno (storing s target goal) (some (op,before))) :
    Poured errno s target goal content (some (op,before)) (.error reason)
      (s.addTemp (tempOf s target data))

theorem Poured.plain {goal content : Bytes} {ended : Except Exc Unit × Disk}
    (poured : Poured errno s target goal content none ended.1 ended.2) :
    (∃ reason data, ended = (.error reason,s.addTemp (tempOf s target data))) ∨
      ended = (.ok (),s.addTemp (tempOf s target content)) := by
  rcases ended with ⟨result,t⟩
  cases poured with
  | full => exact .inr rfl
  | refused report => exact .inl ⟨_,_,rfl⟩

theorem quiet_temp {goal : Bytes} {temp : Temp} {op : FsOp} (keeps : removesTemp op = false) :
    Quiet errno (storing s target goal) (some (op,s.addTemp temp)) :=
  quiet_here (staged_temp temp) rfl keeps

theorem ensures_nextChunk {goal content : Bytes} (replayed : Bool) :
    Ensures FsOp.step (FsOp.fail errno) none (nextChunk replayed)
      (s.addTemp (tempOf s target content)) (Poured errno s target goal content) := by
  cases replayed with
  | true => exact .full
  | false =>
    refine ⟨.full,?_⟩
    exact Poured.failed (quiet_temp rfl)

theorem ensures_pour {goal : Bytes} {maxBytes : Nat} {replayed : Bool} (chunks : List Bytes)
    (total : Nat) (content : Bytes) :
    Ensures FsOp.step (FsOp.fail errno) none
      (pour (Disk.fresh s.temps) maxBytes replayed total chunks)
      (s.addTemp (tempOf s target content))
      (Poured errno s target goal (chunks.foldl (· ++ ·) content)) := by
  induction chunks generalizing total content with
  | nil => exact ensures_nextChunk replayed
  | cons chunk rest ih =>
    have written := writeTemp_tempOf s target content chunk
    unfold pour
    rw [ensures_bind]
    refine ((@ensures_nextChunk _ _ _ goal) replayed).mono fun later result t poured => ?_
    cases poured with
    | refused report => exact .refused report
    | failed quiet => exact .failed quiet
    | full =>
      dsimp only
      split
      · next empty =>
        have same : content ++ chunk = content := by
          obtain rfl : chunk = .empty := ByteArray.size_eq_zero_iff.mp empty
          simp
        simpa only [List.foldl_cons,same] using ih total content
      · split
        · exact Poured.refused nofun
        · refine ensures_perform (.writeTemp (Disk.fresh s.temps) chunk) ?_ ?_
          · simp only [FsOp.step,written]
            exact ih _ _
          · rw [ensures_some]
            exact Poured.failed (quiet_temp rfl)

theorem ensures_fillStream {goal : Bytes} {maxBytes : Nat} {replayed : Bool}
    (chunks : List Bytes) :
    Ensures FsOp.step (FsOp.fail errno) none
      (fillStream (Disk.fresh s.temps) maxBytes replayed chunks)
      (s.addTemp (tempOf s target .empty)) (Poured errno s target goal (payload chunks)) := by
  unfold fillStream
  rw [ensures_bind,ensures_tryCatch,ensures_bind]
  refine ((@ensures_pour _ _ _ goal) chunks 0 .empty).mono fun later result t poured => ?_
  cases poured with
  | refused report =>
    refine ensures_perform (.closeTemp (Disk.fresh s.temps)) ?_ ?_
    · exact Poured.refused report
    · rw [ensures_some]
      exact Poured.failed (quiet_temp rfl)
  | failed quiet =>
    dsimp only
    rw [ensures_some]
    exact Poured.failed quiet
  | full =>
    dsimp only
    refine ensures_perform (.syncTemp (Disk.fresh s.temps)) ?_ ?_
    · simp only [FsOp.step]
      rw [syncTemp_tempOf]
      refine (ensures_done _ _ _ _).mpr ?_
      refine ensures_perform (.closeTemp (Disk.fresh s.temps)) ?_ ?_
      · exact Poured.full
      · exact Poured.failed (quiet_temp rfl)
    · rw [ensures_some]
      exact Poured.failed (quiet_temp rfl)

theorem addTemp_ne (d : Disk) (temp : Temp) : d.addTemp temp ≠ d := by
  intro same
  have longer := congrArg (fun e => e.temps.length) same
  simp at longer

/-- The stream variant of a create. -/
theorem settles_atomicCreateStream {maxBytes : Nat} {replayed : Bool} (chunks : List Bytes)
    (vacant : s.tree.VacantAt target) :
    Ensures FsOp.step (FsOp.fail errno) none
      (atomicCreateStream target chunks replayed maxBytes) s
      (Settles errno (storing s target (payload chunks)) fun answer =>
        answer = (sha256Bytes (payload chunks),(payload chunks).size)) := by
  have opened := openTemp_dirs vacant.1
  have linked := linkTemp_vacant (payload chunks) vacant
  have cleaned := setTree_unlinkTemp s target (payload chunks) (some (.file (payload chunks)))
  have dirs : (s.setTree target (some (.file (payload chunks)))).tree.Dirs target.dropLast :=
    (file_of_vacant vacant).1
  have new := (@storing_ne _ _ (payload chunks)) vacant
  unfold atomicCreateStream
  refine ensures_perform (.openTemp target.dropLast) ?_ ?_
  · simp only [FsOp.step,opened]
    rw [ensures_bind,ensures_tryCatch,ensures_bind]
    refine ((@ensures_fillStream _ _ _ (payload chunks)) chunks).mono fun later result t poured => ?_
    cases poured with
    | @refused data reason report =>
      have gone := unlinkTemp_tempOf s target data
      refine ensures_perform (.unlinkTemp (Disk.fresh s.temps)) ?_ ?_
      · simp only [FsOp.step,gone]
        exact .refused quiet_none
      · rw [ensures_some]
        exact .late (staged_temp _) (.inr ⟨rfl,rfl⟩) (addTemp_ne s _) report
    | @failed op before data reason quiet =>
      have gone := unlinkTemp_tempOf s target data
      dsimp only
      rw [ensures_some]
      simp only [run_bind,run_discardTemp,gone,run_throw]
      exact .refused quiet
    | full =>
      refine ensures_perform (.linkTemp (Disk.fresh s.temps) target) ?_ ?_
      · simp only [FsOp.step,linked]
        refine (ensures_fsync (t := (s.setTree target (some (.file (payload chunks)))).addTemp
          (tempOf s target (payload chunks))) dirs).mono fun later result u synced => ?_
        cases synced with
        | plain =>
          refine ensures_perform (.unlinkTemp (Disk.fresh s.temps)) ?_ ?_
          · simp only [FsOp.step,cleaned]
            exact .done quiet_none rfl rfl fun _ => rfl
          · refine .done (quiet_ignored (staged_goal_temp _) rfl fun _ => new) rfl rfl ?_
            simp
        | silent keeps silent =>
          dsimp only
          rw [ensures_some]
          simp only [run_bind,run_discardTemp,cleaned,run_pure]
          exact .done (quiet_ignored (staged_goal_temp _) silent fun _ => new) rfl rfl (by simp)
        | reported keeps heard report =>
          dsimp only
          rw [ensures_some]
          simp only [run_bind,run_discardTemp,cleaned,run_throw]
          exact .late (staged_goal_temp _) (.inl ⟨rfl,new,heard⟩)
            (fun same => new (congrArg Disk.tree same)) report
      · have gone := unlinkTemp_tempOf s target (payload chunks)
        rw [ensures_some]
        simp only [run_throw]
        rw [ensures_some]
        simp only [run_bind,run_discardTemp,gone,run_throw]
        exact .refused (quiet_temp rfl)
  · rw [ensures_some]
    exact .refused (quiet_start rfl)

theorem atomic_atomicCreateStream {maxBytes : Nat} {replayed : Bool} (chunks : List Bytes)
    (dirs : s.tree.Dirs target.dropLast) :
    Atomic (atomicCreateStream target chunks replayed maxBytes)
      (storing s target (payload chunks)) fun answer =>
        s.tree.VacantAt target ∧
          answer = (sha256Bytes (payload chunks),(payload chunks).size) := by
  by_cases vacant : s.tree.VacantAt target
  · have settled := (@settles_atomicCreateStream .eio _ _ maxBytes replayed) chunks vacant
    exact (Settles.atomic settled).imp fun answer same => ⟨vacant,same⟩
  · have opened := openTemp_dirs dirs
    obtain ⟨poured,_⟩ := (ensures_iff _ _ _).mp ((@ensures_fillStream .eio s target (payload chunks) maxBytes replayed) chunks)
    obtain ⟨reason,data,ran⟩ | ran := poured.plain
    · have gone := unlinkTemp_tempOf s target data
      refine .inl ⟨reason,?_⟩
      simp [atomicCreateStream,run_bind,run_tryCatch,opened,ran,run_discardTemp,gone]
    · obtain ⟨reason,refused⟩ := (@linkTemp_taken _ _ (payload chunks)) dirs vacant
      have gone := unlinkTemp_tempOf s target (payload chunks)
      refine .inl ⟨linkRefusal reason,?_⟩
      simp [atomicCreateStream,run_bind,run_tryCatch,opened,ran,refused,run_discardTemp,gone]

section Store

variable {v : VaultService} {upload : Upload} {replayed : Bool}

theorem settles_createUpload (vacant : s.tree.VacantAt target) :
    Ensures FsOp.step (FsOp.fail errno) none (v.createUpload upload replayed target) s
      (Settles errno (storing s target upload.data) fun stored =>
        stored = (sha256Bytes upload.data,upload.data.size)) := by
  cases upload with
  | content data =>
    exact Settles.after (q := fun _ => pure (sha256Bytes data,data.size))
      (settles_atomicCreate vacant) (fun _ => trivial) (fun _ => trivial) fun _ _ => ⟨_,rfl,rfl⟩
  | stream chunks => exact settles_atomicCreateStream chunks vacant

theorem atomic_createUpload (dirs : s.tree.Dirs target.dropLast) :
    Atomic (v.createUpload upload replayed target) (storing s target upload.data) fun stored =>
      s.tree.VacantAt target ∧ stored = (sha256Bytes upload.data,upload.data.size) := by
  cases upload with
  | content data =>
    by_cases vacant : s.tree.VacantAt target
    · have settled := (@settles_createUpload .eio _ _ v (.content data) replayed) vacant
      exact (Settles.atomic settled).imp fun stored same => ⟨vacant,same⟩
    · obtain ⟨reason,refused⟩ := @run_atomicCreate_refused _ _ data vacant
      exact .inl ⟨reason,run_bind_error FsOp.step refused⟩
  | stream chunks => exact atomic_atomicCreateStream chunks dirs

variable {displayName directory relative : Text} {directoryPath : Path}

def Stored (upload : Upload) (displayName relative : Text) (receipt : UploadReceipt) : Prop :=
  receipt = ⟨⟨relative,some (sha256Bytes upload.data),some upload.data.size,.created⟩,displayName⟩

theorem eval_uploadReceipt (place : (relativeParts relative).dropLast = directoryPath)
    (file : s.tree.FileAt (relativeParts relative) data) (stored : Text × Nat) :
    eval ReadOp.answer (VaultService.uploadReceipt displayName directory directoryPath relative
      stored) s = .ok ⟨⟨relative,some stored.1,some stored.2,.created⟩,displayName⟩ := by
  subst place
  have above : eval ReadOp.answer (assertSafeExisting (relativeParts relative).dropLast
      (directoryText directory)) s = .ok .dir := eval_assertSafeExisting.mpr ⟨file.1.at,rfl⟩
  have safe : eval ReadOp.answer (assertSafeExisting (relativeParts relative) relative) s =
      .ok (.file data) := eval_assertSafeExisting.mpr ⟨file,rfl⟩
  simp [VaultService.uploadReceipt,eval_bind,above,safe]

theorem settles_storeUpload (place : (relativeParts relative).dropLast = directoryPath)
    (vacant : s.tree.VacantAt (relativeParts relative)) :
    Ensures FsOp.step (FsOp.fail errno) none
      (v.storeUpload upload replayed displayName directory directoryPath relative) s
      (Settles errno (storing s (relativeParts relative) upload.data)
        (Stored upload displayName relative)) :=
  Settles.after (settles_createUpload vacant)
    (fun _ => (strict_assertSafeExisting _).bind fun _ =>
      (strict_assertSafeExisting _).bind fun _ => trivial)
    (fun _ => (raises_assertSafeExisting _).bind fun _ =>
      (raises_assertSafeExisting _).bind fun _ => trivial)
    fun stored same => ⟨_,eval_uploadReceipt place (file_of_vacant vacant) stored,by rw [same]; rfl⟩

theorem atomic_storeUpload (place : (relativeParts relative).dropLast = directoryPath)
    (dirs : s.tree.Dirs directoryPath) :
    Atomic (v.storeUpload upload replayed displayName directory directoryPath relative)
      (storing s (relativeParts relative) upload.data) fun receipt =>
        s.tree.VacantAt (relativeParts relative) ∧ Stored upload displayName relative receipt := by
  by_cases vacant : s.tree.VacantAt (relativeParts relative)
  · have settled := (@settles_storeUpload .eio _ v upload replayed displayName directory) place vacant
    exact (Settles.atomic settled).imp fun receipt stored => ⟨vacant,stored⟩
  · subst place
    obtain ⟨reason,ran⟩ | ⟨_,⟨free,_⟩,_⟩ := (@atomic_createUpload _ _ v upload replayed) dirs
    · exact .inl ⟨reason,run_bind_error FsOp.step ran⟩
    · exact absurd free vacant

end Store

section Attempt

variable {v : VaultService} {upload : Upload} {displayName directory relative name : Text}
variable {directoryPath : Path} {replayed : Bool}

def Uploads (s : Disk) (directoryPath : Path) (data : Bytes) (t : Tree) : Prop :=
  ∃ name, t = s.tree.set (directoryPath ++ [name]) (some (.file data))

def Uploaded (s : Disk) (directoryPath : Path) (data : Bytes) (displayName : Text)
    (receipt : UploadReceipt) (t : Tree) : Prop :=
  ∃ relative name, relativeParts relative = directoryPath ++ [name] ∧
    s.tree.VacantAt (directoryPath ++ [name]) ∧
    t = s.tree.set (directoryPath ++ [name]) (some (.file data)) ∧
    receipt = ⟨⟨relative,some (sha256Bytes data),some data.size,.created⟩,displayName⟩

theorem uploads_only {before : Disk}
    (stage : (storing s (directoryPath ++ [name]) upload.data).stages before)
    (new : before.tree ≠ s.tree) :
    before.tree = (s.setTree (directoryPath ++ [name]) (some (.file upload.data))).tree := by
  rcases stage with rfl | rfl | ⟨temp,rfl | rfl⟩
  · exact absurd rfl new
  · rfl
  · exact absurd rfl new
  · rfl

theorem uploaded_of_stored {receipt : UploadReceipt}
    (here : relativeParts relative = directoryPath ++ [name])
    (vacant : s.tree.VacantAt (relativeParts relative))
    (stored : Stored upload displayName relative receipt) :
    Uploaded s directoryPath upload.data displayName receipt
      (s.setTree (relativeParts relative) (some (.file upload.data))).tree :=
  ⟨relative,name,here,here ▸ vacant,by rw [here]; rfl,stored⟩

theorem plain_attempt {retry : Exc → Fs UploadReceipt}
    (here : relativeParts relative = directoryPath ++ [name]) (dirs : s.tree.Dirs directoryPath)
    (next : ∀ reason, Ends errno s (Uploads s directoryPath upload.data)
      (Uploaded s directoryPath upload.data displayName) none
      (run FsOp.step (retry reason) s).1 (run FsOp.step (retry reason) s).2) :
    Ends errno s (Uploads s directoryPath upload.data)
      (Uploaded s directoryPath upload.data displayName) none
      (run FsOp.step (VaultService.retryOnCollision
        (v.storeUpload upload replayed displayName directory directoryPath relative) retry) s).1
      (run FsOp.step (VaultService.retryOnCollision
        (v.storeUpload upload replayed displayName directory directoryPath relative) retry) s).2 := by
  have place : (relativeParts relative).dropLast = directoryPath := by simp [here]
  unfold VaultService.retryOnCollision
  rw [run_andThen]
  obtain ⟨reason,ran⟩ | ⟨receipt,⟨vacant,stored⟩,ran⟩ := atomic_storeUpload (v := v)
   
    place dirs
  · rw [ran]
    dsimp only
    split
    · exact next reason
    · exact .refused (by simp)
  · rw [ran]
    exact .done (by simp) (uploaded_of_stored here vacant stored)

/-- One attempt, whatever single call of it fails. -/
theorem ensures_attempt {retry : Exc → Fs UploadReceipt}
    (here : relativeParts relative = directoryPath ++ [name])
    (vacant : s.tree.VacantAt (relativeParts relative))
    (next : ∀ reason, Ensures FsOp.step (FsOp.fail errno) none (retry reason) s
      (Ends errno s (Uploads s directoryPath upload.data)
        (Uploaded s directoryPath upload.data displayName))) :
    Ensures FsOp.step (FsOp.fail errno) none (VaultService.retryOnCollision
      (v.storeUpload upload replayed displayName directory directoryPath relative) retry) s
      (Ends errno s (Uploads s directoryPath upload.data)
        (Uploaded s directoryPath upload.data displayName)) := by
  have place : (relativeParts relative).dropLast = directoryPath := by simp [here]
  unfold VaultService.retryOnCollision
  rw [ensures_andThen]
  refine (settles_storeUpload place vacant).mono fun later result t settled => ?_
  have ends := @Settles.ends _ _ _ _ _ (Uploads s directoryPath upload.data)
    (Uploaded s directoryPath upload.data displayName) _ _ _ settled ⟨name,by rw [← here]; rfl⟩
    (fun before stage _ new => by rw [here] at stage ⊢; exact uploads_only stage new)
    (fun receipt stored => uploaded_of_stored here vacant stored)
  cases result with
  | ok receipt => exact (ensures_done _ _ _ _).mpr ends
  | error reason =>
    dsimp only
    split
    · next collision =>
      cases settled with
      | late _ _ _ report => exact absurd collision report
      | refused quiet =>
        cases later with
        | none => exact next reason
        | some before =>
          rw [ensures_some]
          obtain ⟨plain,_⟩ := (ensures_iff _ _ _).mp (next reason)
          cases ends with
          | refused soft => exact plain.quietly soft
          | late exposed changed => exact absurd rfl changed
    · exact (ensures_done _ _ _ _).mpr ends

end Attempt

section Loop

variable [Host] {v : VaultService} {upload : Upload} {displayName directory : Text}
variable {directoryPath : Path}

/-- A chosen path is one segment below the directory. -/
theorem returns_chooseName {taken : List Text}
    (normal : normalizeTargetDirectory directory = .ok directory)
    (place : directoryPath = relativeParts (directoryText directory)) :
    Returns (fun choice : Text × Bool => ∃ name, relativeParts choice.1 = directoryPath ++ [name])
      (VaultService.chooseName displayName directory directoryPath taken) := by
  refine Returns.bind (P := fun relative => ∃ name, relativeParts relative =
    directoryPath ++ [name]) ?_ ?_
  · refine Returns.ofExcept fun relative chosen => ?_
    obtain ⟨parent,name,again,safe,rfl⟩ := safeAttachmentName_ok chosen
    obtain rfl : directory = parent := Except.ok.inj (normal.symm.trans again)
    exact ⟨name,by rw [relativeParts_child safe (normalizeTargetDirectory_ok normal).1,place]⟩
  · intro relative here
    refine Returns.last fun _ => Returns.last fun response => ?_
    cases response with
    | error reason => cases reason <;> first | exact here | trivial
    | ok info =>
      dsimp only
      split
      · trivial
      · exact here

theorem plain_uploadLoop (normal : normalizeTargetDirectory directory = .ok directory)
    (place : directoryPath = relativeParts (directoryText directory))
    (dirs : s.tree.Dirs directoryPath) (attempts : Nat) (replayed : Bool) (taken : List Text)
    (lastError : Exc) :
    Ends errno s (Uploads s directoryPath upload.data)
      (Uploaded s directoryPath upload.data displayName) none
      (run FsOp.step (v.uploadLoop upload displayName directory directoryPath attempts replayed
        taken lastError) s).1
      (run FsOp.step (v.uploadLoop upload displayName directory directoryPath attempts replayed
        taken lastError) s).2 := by
  induction attempts generalizing replayed taken lastError with
  | zero => exact .refused (by simp)
  | succ attempts ih =>
    unfold VaultService.uploadLoop
    rw [run_bind,run_liftLook]
    cases found : eval ReadOp.answer (VaultService.chooseName displayName directory directoryPath
      taken) s with
    | error reason => exact .refused (by simp)
    | ok choice =>
      obtain ⟨name,here⟩ := (returns_chooseName normal place).eval found
      obtain ⟨relative,free⟩ := choice
      cases free with
      | false => exact ih _ _ _
      | true => exact plain_attempt here dirs fun reason => ih _ _ _

theorem vacant_of_chooseName {taken : List Text} {relative name : Text}
    (here : relativeParts relative = directoryPath ++ [name]) (dirs : s.tree.Dirs directoryPath)
    (found : eval ReadOp.answer (VaultService.chooseName displayName directory directoryPath
      taken) s = .ok (relative,true)) : s.tree.VacantAt (relativeParts relative) := by
  have above : s.tree.Dirs (relativeParts relative).dropLast := by simpa [here] using dirs
  refine ⟨above,?_⟩
  simp only [VaultService.chooseName,eval_bind_eq_ok,Call.eval_lstat,Except.ok.injEq] at found
  obtain ⟨chosen,_,_,_,_,rfl,found⟩ := found
  cases outcome : s.tree.lstat (relativeParts chosen) with
  | error errno =>
    cases errno <;> simp [outcome] at found
    subst found
    cases there : s.tree.get (relativeParts chosen) with
    | none => rfl
    | some node => simp [Tree.lstat_of_at ⟨above,there⟩] at outcome
  | ok info => cases info <;> simp [outcome,Node.isSymlink] at found

/-- The loop, whatever single call of it fails. -/
theorem ensures_uploadLoop (normal : normalizeTargetDirectory directory = .ok directory)
    (place : directoryPath = relativeParts (directoryText directory))
    (dirs : s.tree.Dirs directoryPath) (attempts : Nat) (replayed : Bool) (taken : List Text)
    (lastError : Exc) :
    Ensures FsOp.step (FsOp.fail errno) none (v.uploadLoop upload displayName directory
      directoryPath attempts replayed taken lastError) s
      (Ends errno s (Uploads s directoryPath upload.data)
        (Uploaded s directoryPath upload.data displayName)) := by
  induction attempts generalizing replayed taken lastError with
  | zero => exact Ends.refused (by simp)
  | succ attempts ih =>
    unfold VaultService.uploadLoop
    refine ensures_bind_look (returns_chooseName normal place)
      (fun failed => ∀ op before, failed = some (op,before) →
        ¬ Exposed errno s (Uploads s directoryPath upload.data) op before)
      (by simp) (fun op => not_exposed_look) (fun later reason quiet => .refused quiet) ?_
    intro later choice quiet named plain
    obtain ⟨relative,free⟩ := choice
    obtain ⟨name,here⟩ := named
    cases later with
    | none =>
      cases free with
      | false => exact ih _ _ _
      | true =>
        have vacant := vacant_of_chooseName here dirs (plain rfl)
        exact ensures_attempt here vacant fun reason => ih _ _ _
    | some before =>
      rw [ensures_some]
      cases free with
      | false => exact (plain_uploadLoop normal place dirs _ _ _ _).quietly quiet
      | true =>
        exact (plain_attempt here dirs fun reason =>
          plain_uploadLoop normal place dirs _ _ _ _).quietly quiet

omit [Host] in
theorem strict_existingChildNames (p : Path) :
    Strict (fun _ => .error errno) (existingChildNames p) := by
  refine ⟨⟨_,rfl⟩,fun response => ?_⟩
  cases response <;> trivial

omit [Host] in
theorem strict_uploadChecks {originalName targetDirectory : Text} :
    Strict (fun _ => .error errno) (v.uploadChecks upload originalName targetDirectory) := by
  refine (strict_raiseIf _ _).bind fun _ => ?_
  have size : Strict (fun _ => .error errno) (v.checkSize upload) := by
    cases upload <;> simp [VaultService.checkSize]
  refine size.bind fun _ => ?_
  refine Strict.bind ?_ fun place => ?_
  · exact (strict_ofExcept _).bind fun _ => (strict_resolve _ _ rfl).bind fun _ =>
      (strict_assertSafeExisting _).bind fun _ => trivial
  · exact (strict_assertSafeExisting _).bind fun _ =>
      (strict_existingChildNames _).bind fun _ => trivial

omit [Host] in
/-- The checks pass only for an existing directory. -/
theorem eval_uploadChecks {originalName targetDirectory : Text} {existing : Finset Text}
    (passed : eval ReadOp.answer (v.uploadChecks upload originalName targetDirectory) s =
      .ok (directory,directoryPath,existing)) :
    normalizeTargetDirectory targetDirectory = .ok directory ∧
      directoryPath = relativeParts (directoryText directory) ∧ s.tree.Dirs directoryPath := by
  simp only [VaultService.uploadChecks,resolveUploadDirectory,eval_bind_eq_ok,eval_ofExcept,
    eval_pure,Except.ok.injEq] at passed
  obtain ⟨_,_,_,_,place,⟨text,normal,path,found,_,_,rfl⟩,_,_,_,_,same⟩ := passed
  obtain ⟨rfl,rest⟩ := Prod.mk.inj same
  obtain ⟨rfl,_⟩ := Prod.mk.inj rest
  obtain ⟨relative,valid,rfl,dirs⟩ := eval_resolve_directory.mp found
  obtain rfl : directoryText text = relative := by
    unfold directoryText at valid ⊢
    split at valid
    · next root =>
      rw [if_pos root]
      simpa [validateRelativePath] using valid
    · next nonempty =>
      have canonical := (normalizeTargetDirectory_ok normal).1.resolve_left nonempty
      rw [if_neg nonempty]
      exact Except.ok.inj ((validate_allowRoot canonical).symm.trans valid)
  exact ⟨normal,rfl,dirs⟩

def uploadPlace (targetDirectory : Text) : Path :=
  match normalizeTargetDirectory targetDirectory with
  | .ok directory => relativeParts (directoryText directory)
  | .error _ => []

/-- An upload ends with one more file in the requested directory, or as it began. -/
theorem ends_uploadAttachment (originalName targetDirectory : Text) :
    Ensures FsOp.step (FsOp.fail errno) none
      (v.uploadAttachment upload originalName targetDirectory) s
      (Ends errno s (Uploads s (uploadPlace targetDirectory) upload.data)
        (Uploaded s (uploadPlace targetDirectory) upload.data (Text.strip originalName))) := by
  refine ensures_bind_strict strict_uploadChecks ?_ ?_ ?_
  · exact fun op reason => .refused not_exposed_look
  · exact fun reason _ => .refused (by simp)
  · intro place passed
    obtain ⟨directory,directoryPath,existing⟩ := place
    obtain ⟨normal,rfl,dirs⟩ := eval_uploadChecks passed
    have again := (normalizeTargetDirectory_ok normal).2
    have aimed : uploadPlace targetDirectory = relativeParts (directoryText directory) := by
      simp [uploadPlace,normal]
    rw [aimed]
    refine ensures_bind_look (returns_any _)
      (fun failed => ∀ op before, failed = some (op,before) → ¬ Exposed errno s
        (Uploads s (relativeParts (directoryText directory)) upload.data) op before)
      (by simp) (fun op => not_exposed_look) (fun later reason quiet => .refused quiet) ?_
    intro later _ quiet _ _
    have loop := (@ensures_uploadLoop errno _ _ v upload (Text.strip originalName)) again rfl dirs attachmentNameRetries false
      (existing.sort (· ≤ ·)) alreadyExists
    cases later with
    | none => exact loop
    | some before =>
      rw [ensures_some]
      exact ((ensures_iff _ _ _).mp loop).1.quietly quiet

end Loop

end LocalBook.Vault
