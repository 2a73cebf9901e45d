import LocalBook.Vault.Mutation

/-! Without failing calls each mutation is carried out exactly when its conditions
hold, and otherwise refused with the disk as it was. -/
namespace LocalBook.Vault

open Effect

section Atomic

variable {s : Disk} {target : Path} {data : Bytes}

theorem run_atomicCreate (vacant : s.tree.VacantAt target) :
    run FsOp.step (atomicCreateBytes target data) s =
      (.ok (),s.setTree target (some (.file data))) := by
  have linked := linkTemp_vacant data vacant
  have cleaned := setTree_unlinkTemp s target data (some (.file data))
  have dirs : (s.setTree target (some (.file data))).tree.Dirs target.dropLast :=
    (file_of_vacant vacant).1
  simp only [atomicCreateBytes,atomicWriteBytes,run_bind,run_tryCatch,run_writeTemp vacant.1,
    run_liftLook,eval_pure,run_pure,publish,Bool.false_eq_true,if_false,Call.run_linkTemp,linked,
    run_discardTemp,cleaned,run_fsyncDirectory dirs]

theorem run_atomicReplace {old : Bytes} {check : Look Unit} (file : s.tree.FileAt target old)
    (passes : eval ReadOp.answer check s = .ok ()) :
    run FsOp.step (atomicReplaceBytes target data check) s =
      (.ok (),s.setTree target (some (.file data))) := by
  have replaced := replaceTemp_file data file
  have dirs : (s.setTree target (some (.file data))).tree.Dirs target.dropLast :=
    (file_of_file file).1
  have checked : eval ReadOp.answer check (s.addTemp (tempOf s target data)) = .ok () := by
    rw [← passes]
    exact eval_congr_tree rfl
  simp only [atomicReplaceBytes,atomicWriteBytes,run_bind,run_tryCatch,run_writeTemp file.1,
    run_liftLook,checked,publish,if_true,Call.run_replaceTemp,replaced,run_pure,
    run_fsyncDirectory dirs]

inductive Outcome {α : Type} (ready : Prop) (answer : α) (s goal : Disk)
    (ended : Except Exc α × Disk) : Prop where
  | refused (unready : ¬ ready) (reason : Exc) (ended : ended = (.error reason,s))
  | done (ready : ready) (ended : ended = (.ok answer,goal))

theorem Outcome.iff {α : Type} {ready ready' : Prop} {answer : α} {s goal : Disk}
    {ended : Except Exc α × Disk} (outcome : Outcome ready answer s goal ended)
    (same : ready' ↔ ready) : Outcome ready' answer s goal ended :=
  propext same ▸ outcome

theorem outcome_of_atomic {α : Type} {p : Fs α} {aim : Aim s} {P : α → Prop} {ready : Prop}
    {answer : α} (atomic : Atomic p aim P) (answers : ∀ value, P value → ready)
    (carried : ready → run FsOp.step p s = (.ok answer,aim.goal)) :
    Outcome ready answer s aim.goal (run FsOp.step p s) := by
  by_cases can : ready
  · exact .done can (carried can)
  · obtain ⟨reason,ran⟩ | ⟨value,answered,_⟩ := atomic
    · exact .refused can reason ran
    · exact absurd (answers value answered) can

end Atomic

section Operations

variable (v : VaultService) (s : Disk) (value : Text) (data : Bytes)

/-- `create_bytes` can be carried out. -/
def CreateReady : Prop :=
  PublicPath value ∧ data.size ≤ v.maxFileBytes ∧ s.tree.VacantAt (relativeParts value)

theorem createBytes_outcome :
    Outcome (CreateReady v s value data)
      ⟨value,some (sha256Bytes data),some data.size,.created⟩ s
      (s.setTree (relativeParts value) (some (.file data)))
      (run FsOp.step (v.createBytes value data) s) := by
  refine outcome_of_atomic (Settles.atomic ((@settles_createBytes .eio) v value)) ?_ ?_
  · intro receipt answer
    exact ⟨answer.1,answer.2.1,answer.2.2.1⟩
  · intro ready
    obtain ⟨valid,small,vacant⟩ := ready
    have leaf : ∀ link, s.tree.get (relativeParts value) ≠ some (.symlink link) := by
      simp [vacant.2]
    have resolved := eval_resolveParentAndTarget.mpr ⟨valid,rfl,vacant.1,leaf⟩
    have above : ∀ text, eval ReadOp.answer
        (assertSafeExisting (relativeParts value).dropLast text) s = .ok .dir :=
      fun text => eval_assertSafeExisting.mpr ⟨vacant.1.at,rfl⟩
    have free := ((@eval_assertFree _ "Vault target cannot be inspected" value) vacant.1).mpr vacant.2
    simp only [VaultService.createBytes,if_neg (Nat.not_lt.mpr small),run_bind,run_liftLook,
      resolved,VaultService.createTail,eval_bind,above,free,VaultService.storeNew,run_tryCatch,
      run_atomicCreate vacant,eval_createdReceipt (file_of_vacant vacant)]
    rfl

variable [Host] (expected : Option Text)

def KnownFile (old : Bytes) : Prop :=
  s.tree.FileAt (relativeParts value) old ∧ old.size ≤ v.maxFileBytes ∧ Expects expected old

/-- `write_bytes` can be carried out. -/
def WriteReady : Prop :=
  PublicPath value ∧ data.size ≤ v.maxFileBytes ∧ ∃ old, KnownFile v s value expected old

theorem eval_known {old : Bytes} (valid : PublicPath value)
    (known : KnownFile v s value expected old) :
    eval ReadOp.answer (resolveFile value) s = .ok (value,relativeParts value) ∧
      eval ReadOp.answer (v.expectedContent value (relativeParts value) expected) s =
        .ok (sha256Bytes old) ∧
      eval ReadOp.answer (v.unchanged value (relativeParts value) (sha256Bytes old)) s =
        .ok () :=
  ⟨eval_resolveFile.mpr ⟨valid,rfl,old,known.1⟩,
    (eval_expectedContent known.1).mpr ⟨known.2.1,known.2.2,rfl⟩,
    (eval_unchanged known.1).mpr ⟨known.2.1,rfl⟩⟩

theorem writeBytes_outcome :
    Outcome (WriteReady v s value data expected)
      ⟨value,some (sha256Bytes data),some data.size,.updated⟩ s
      (s.setTree (relativeParts value) (some (.file data)))
      (run FsOp.step (v.writeBytes value data expected) s) := by
  refine outcome_of_atomic
    (Settles.atomic ((@settles_writeBytes .eio) v value expected)) ?_ ?_
  · intro receipt answer
    exact ⟨answer.1,answer.2.1,answer.2.2.1⟩
  · intro ready
    obtain ⟨valid,small,old,known⟩ := ready
    obtain ⟨resolved,content,unchanged⟩ := eval_known v s value expected valid known
    have there := (@file_of_file _ _ data) known.1
    have safe : eval ReadOp.answer (assertSafeExisting (relativeParts value) value)
        (s.setTree (relativeParts value) (some (.file data))) = .ok (.file data) :=
      eval_assertSafeExisting.mpr ⟨there,rfl⟩
    have read := (eval_readFile (v := v) there).mpr ⟨small,rfl⟩
    have passes : eval ReadOp.answer
        (v.beforeReplace value (relativeParts value) (sha256Bytes old)) s = .ok () := by
      simp [VaultService.beforeReplace,eval_bind,unchanged]
    simp only [VaultService.writeBytes,if_neg (Nat.not_lt.mpr small),run_bind,run_liftLook,
      eval_bind,resolved,content,eval_pure,run_atomicReplace known.1 passes,safe,read]
    rfl

/-- `delete_file` can be carried out. -/
def DeleteReady : Prop := PublicPath value ∧ ∃ old, KnownFile v s value expected old

theorem deleteFile_outcome :
    Outcome (DeleteReady v s value expected) ⟨value,none,none,.deleted⟩ s
      (s.setTree (relativeParts value) none)
      (run FsOp.step (v.deleteFile value expected) s) := by
  refine outcome_of_atomic
    (Settles.atomic ((@settles_deleteFile .eio) v value expected)) ?_ ?_
  · intro receipt answer
    exact ⟨answer.1,answer.2.1⟩
  · intro ready
    obtain ⟨valid,old,known⟩ := ready
    obtain ⟨resolved,content,unchanged⟩ := eval_known v s value expected valid known
    simp only [VaultService.deleteFile,run_bind,run_liftLook,eval_bind,resolved,content,
      unchanged,eval_pure,Call.run_unlink,unlink_file known.1,run_pure]
    rfl

/-- `move_file` can be carried out. -/
def MoveReady (destination : Text) (content : Bytes) : Prop :=
  PublicPath value ∧ PublicPath destination ∧ KnownFile v s value expected content ∧
    s.tree.VacantAt (relativeParts destination)

theorem MoveReady.apart {destination : Text} {content : Bytes}
    (ready : MoveReady v s value expected destination content) : value ≠ destination := by
  obtain ⟨_,_,known,vacant⟩ := ready
  rintro rfl
  exact absurd known.1.2 (by simp [vacant.2])

theorem run_moveFile {destination : Text} {content : Bytes}
    (ready : MoveReady v s value expected destination content) :
    run FsOp.step (v.moveFile value destination expected) s =
      (.ok ⟨destination,some (sha256Bytes content),some content.size,.moved⟩,
        moved s (relativeParts value) (relativeParts destination)) := by
  have apart := ready.apart
  obtain ⟨valid,free,known,vacant⟩ := ready
  obtain ⟨resolved,expects,_⟩ := eval_known v s value expected valid known
  have leaf : ∀ link, s.tree.get (relativeParts destination) ≠ some (.symlink link) := by
    simp [vacant.2]
  have place := eval_resolveParentAndTarget.mpr ⟨free,rfl,vacant.1,leaf⟩
  have above : ∀ text, eval ReadOp.answer
      (assertSafeExisting (relativeParts destination).dropLast text) s = .ok .dir :=
    fun text => eval_assertSafeExisting.mpr ⟨vacant.1.at,rfl⟩
  have safe : eval ReadOp.answer (assertSafeExisting (relativeParts value) value) s =
      .ok (.file content) := eval_assertSafeExisting.mpr ⟨known.1,rfl⟩
  have empty := ((@eval_assertFree _ "Vault destination cannot be inspected" destination) vacant.1).mpr vacant.2
  have atSource := bothNames_source known.1 vacant
  have checked : eval ReadOp.answer (VaultService.moveChecks value (relativeParts value)
      destination (relativeParts destination).dropLast (relativeParts destination)) s =
        .ok () := by
    simp [VaultService.moveChecks,eval_bind,above,empty,safe]
  have linked := link_file known.1 vacant
  have same := (@eval_movedContent _ _ v _ value destination) atSource (bothNames_target known.1 vacant) known.2.1
  have dropped := unlink_file atSource
  have read := (@eval_movedReceipt _ _ _ v destination (sha256Bytes content)) (moved_target known.1 vacant) known.2.1
  simp only [VaultService.moveFile,run_bind,run_liftLook,resolved,place,if_neg apart,
    VaultService.moveTail,expects,checked,VaultService.relink,Call.run_link,linked,
    VaultService.finishMove,run_tryCatch,same,Call.run_unlink,dropped,run_pure]
  rw [show (bothNames s (relativeParts value) (relativeParts destination)).setTree
    (relativeParts value) none = moved s (relativeParts value) (relativeParts destination) from rfl,
    read]

theorem moveFile_outcome (destination : Text) :
    (∃ content, MoveReady v s value expected destination content ∧
      run FsOp.step (v.moveFile value destination expected) s =
        (.ok ⟨destination,some (sha256Bytes content),some content.size,.moved⟩,
          moved s (relativeParts value) (relativeParts destination))) ∨
    ((¬ ∃ content, MoveReady v s value expected destination content) ∧
      ∃ reason, run FsOp.step (v.moveFile value destination expected) s = (.error reason,s)) := by
  by_cases ready : ∃ content, MoveReady v s value expected destination content
  · obtain ⟨content,can⟩ := ready
    exact .inl ⟨content,can,run_moveFile v s value expected can⟩
  · obtain refused | ⟨receipt,answer,_⟩ :=
      Settles.atomic ((@settles_moveFile .eio) v value expected destination)
    · exact .inr ⟨ready,refused⟩
    · obtain ⟨valid,free,_,content,file,small,expects,vacant,_⟩ := answer
      exact absurd ⟨content,valid,free,⟨file,small,expects⟩,vacant⟩ ready

end Operations

end LocalBook.Vault
