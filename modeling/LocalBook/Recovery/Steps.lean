import LocalBook.UndoLog
import LocalBook.Recovery.Service

/-! The steps job transactions are made of: the operation the agent plans, the row it
leaves in the journal, and the image of what it found. Applying and reversing a step
is described once, for all the procedures that do it. -/
namespace LocalBook.Recovery

open Effect Vault UndoLog

/-- A planned step, with the content it found and the content it leaves. -/
inductive Step where
  | create (path : Text) (data : Bytes)
  | update (path : Text) (before after : Bytes)
  | move (source target : Text) (data : Bytes)
deriving DecidableEq

namespace Step

def operation : Step → TransactionOperation
  | create path data => {
      operation := .create,path,beforeExists := false,beforeBytes := none,beforeHash := none
      afterBytes := some data,afterHash := none}
  | update path before after => {
      operation := .update,path,beforeExists := true,beforeBytes := some before
      beforeHash := some (sha256Bytes before),afterBytes := some after,afterHash := none}
  | move source target data => {
      operation := .move,path := target,beforeExists := true,beforeBytes := some data
      beforeHash := some (sha256Bytes data),afterBytes := some data
      afterHash := some (sha256Bytes data),source := some source}

def path : Step → Text
  | create path _ | update path _ _ | move _ path _ => path

def left : Step → Bytes
  | create _ data | update _ _ data | move _ _ data => data

def digest (step : Step) : Text := sha256Bytes step.left

/-- Its row in the journal. -/
def row (jobId : Text) (seq : Nat) (state : RowState) (step : Step) : JournalEntry := {
  jobId,seq,state
  operation := step.operation.operation.journal
  path := step.path
  beforeExists := step.operation.beforeExists
  beforeBytes := step.operation.beforeBytes
  beforeHash := step.operation.beforeHash
  afterExists := true
  afterHash := some step.digest
  source := step.operation.source}

def image : Step → Image Path (Option Node)
  | create path _ => ⟨[relativeParts path],fun _ => none⟩
  | update path before _ => ⟨[relativeParts path],fun _ => some (.file before)⟩
  | move source target data => ⟨[relativeParts target,relativeParts source],
      fun p => if p = relativeParts source then some (.file data) else none⟩

abbrev keys (step : Step) : List Path := step.image.keys

abbrev Apart (step other : Step) : Prop := step.image.Apart other.image

theorem path_mem_keys (step : Step) : relativeParts step.path ∈ step.keys := by
  cases step <;> simp [keys,image,path]

theorem makeEntry_operation (jobId : Text) (seq : Nat) (step : Step) :
    makeEntry jobId seq step.operation = (step.row jobId seq .pending).modelValidate := by
  cases step <;>
    simp [makeEntry,operation,row,path,orElse,falsy,digest,left,OperationKind.journal,
      sha256Bytes_ne_nil]

end Step

/-- A change that stays within some paths and neither makes nor removes a directory. -/
structure Within (keys : List Path) (d d' : Disk) : Prop where
  elsewhere : ∀ p, p ∉ keys → d'.tree.get p = d.tree.get p
  dirs : ∀ p, d'.tree.Dirs p ↔ d.tree.Dirs p
  temps : d'.temps = d.temps

namespace Within

variable {keys : List Path} {d d' e : Disk} {p : Path}

theorem refl (keys : List Path) (d : Disk) : Within keys d d :=
  ⟨fun _ _ => rfl,fun _ => Iff.rfl,rfl⟩

theorem trans {keys' : List Path} (first : Within keys d d') (second : Within keys' d' e) :
    Within (keys ++ keys') d e := by
  refine ⟨fun p free => ?_,fun p => (second.dirs p).trans (first.dirs p),
    second.temps.trans first.temps⟩
  rw [List.mem_append,not_or] at free
  rw [second.elsewhere p free.2,first.elsewhere p free.1]

theorem fileAt (within : Within keys d d') (free : p ∉ keys) {data : Bytes} :
    d'.tree.FileAt p data ↔ d.tree.FileAt p data :=
  and_congr (within.dirs _) (by rw [within.elsewhere p free])

theorem vacantAt (within : Within keys d d') (free : p ∉ keys) :
    d'.tree.VacantAt p ↔ d.tree.VacantAt p :=
  and_congr (within.dirs _) (by rw [within.elsewhere p free])

theorem setTree {node : Option Node} (old : d.tree.get p ≠ some .dir) (new : node ≠ some .dir) :
    Within [p] d (d.setTree p node) :=
  ⟨fun _ free => Tree.get_set_ne _ _ (by simpa using free),
    fun _ => Tree.dirs_set old new,rfl⟩

/-- Disks with the same content at the paths of a change are the same after it. -/
theorem eq_of_tree (same : ∀ p, d.tree.get p = e.tree.get p) (temps : d.temps = e.temps) :
    d = e := by
  have trees := Tree.ext same
  cases d
  cases e
  simp_all

end Within

def Holding (v : VaultService) (d : Disk) (path digest : Text) : Prop :=
  PublicPath path ∧ ∃ content, d.tree.FileAt (relativeParts path) content ∧
    content.size ≤ v.maxFileBytes ∧ sha256Bytes content = digest

theorem eval_readBytes_holding {v : VaultService} {d : Disk} {path digest : Text} :
    (∃ content, eval ReadOp.answer (v.readBytes path) d = .ok (content,digest)) ↔
      Holding v d path digest := by
  simp only [eval_readBytes]
  constructor
  · intro found
    obtain ⟨content,valid,file,small,same⟩ := found
    exact ⟨valid,content,file,small,same.symm⟩
  · intro found
    obtain ⟨valid,content,file,small,same⟩ := found
    exact ⟨content,valid,file,small,same.symm⟩

section Inverse

variable [Host] {v : VaultService} {d : Disk}

theorem expects_iff {data content : Bytes} :
    Expects (some (sha256Bytes data)) content ↔ sha256Bytes content = sha256Bytes data := by
  constructor
  · intro expects
    obtain ⟨text,same,_,canonical⟩ := expects
    obtain rfl := Option.some.inj same
    rw [canonicalDigest_sha256Bytes] at canonical
    exact canonical.symm
  · intro same
    rw [← same]
    exact expects_sha256Bytes content

theorem holding_iff {path : Text} {data : Bytes} : Holding v d path (sha256Bytes data) ↔
    PublicPath path ∧ ∃ old, KnownFile v d path (some (sha256Bytes data)) old :=
  and_congr_right fun _ => exists_congr fun _ =>
    and_congr_right fun _ => and_congr_right fun _ => expects_iff.symm

theorem deleteAgain_outcome (path : Text) (data : Bytes) (present : Exc) :
    Outcome (Holding v d path (sha256Bytes data)) () d (d.setTree (relativeParts path) none)
      (run FsOp.step (deleteAgain v path (some (sha256Bytes data)) present) d) := by
  cases deleteFile_outcome v d path (some (sha256Bytes data)) with
  | refused unready reason ended =>
    exact .refused (mt holding_iff.mp unready) reason (run_bind_error FsOp.step ended)
  | done ready ended =>
    obtain ⟨valid,old,known⟩ := ready
    have vacant : (d.setTree (relativeParts path) none).tree.VacantAt (relativeParts path) :=
      ⟨(Tree.dirs_set (by simp [known.1.2]) (by simp)).mpr known.1.1,by simp⟩
    refine .done (holding_iff.mpr ⟨valid,old,known⟩) ?_
    refine (run_bind_ok FsOp.step ended).trans ?_
    simp [assertAbsent,run_andThen,eval_readBytes_vacant valid vacant,pathNotFound,
      Exc.vaultCode?]

theorem writeBack_outcome {path : Text} {data after : Bytes} {wrong : Option Text → Bool}
    {mismatch : Exc} (fits : wrong (some (sha256Bytes data)) = false) :
    Outcome (Holding v d path (sha256Bytes after) ∧ data.size ≤ v.maxFileBytes) () d
      (d.setTree (relativeParts path) (some (.file data)))
      (run FsOp.step (writeBack v path data (some (sha256Bytes after)) wrong mismatch) d) := by
  cases writeBytes_outcome v d path data (some (sha256Bytes after)) with
  | refused unready reason ended =>
    refine .refused (fun ready => unready ?_) reason (run_bind_error FsOp.step ended)
    obtain ⟨valid,known⟩ := holding_iff.mp ready.1
    exact ⟨valid,ready.2,known⟩
  | done ready ended =>
    refine .done ⟨holding_iff.mpr ⟨ready.1,ready.2.2⟩,ready.2.1⟩ ?_
    refine (run_bind_ok FsOp.step ended).trans ?_
    simp [fits]

theorem moveBack_outcome {path source : Text} {data : Bytes} {wrong : Option Text → Bool}
    {mismatch : Exc} (fits : wrong (some (sha256Bytes data)) = false) :
    Outcome (Holding v d path (sha256Bytes data) ∧ PublicPath source ∧
        d.tree.VacantAt (relativeParts source)) () d
      (moved d (relativeParts path) (relativeParts source))
      (run FsOp.step (moveBack v path source (some (sha256Bytes data)) wrong mismatch) d) := by
  obtain ⟨content,ready,ended⟩ | ⟨unready,reason,ended⟩ :=
    moveFile_outcome v d path (some (sha256Bytes data)) source
  · obtain ⟨valid,free,known,vacant⟩ := ready
    refine .done ⟨holding_iff.mpr ⟨valid,content,known⟩,free,vacant⟩ ?_
    refine (run_bind_ok FsOp.step ended).trans ?_
    rw [expects_iff.mp known.2.2]
    simp [fits]
  · refine .refused (fun ready => unready ?_) reason (run_bind_error FsOp.step ended)
    obtain ⟨held,free,vacant⟩ := ready
    obtain ⟨valid,content,known⟩ := holding_iff.mp held
    exact ⟨content,valid,free,known,vacant⟩

end Inverse

namespace Within

theorem mono {keys keys' : List Path} {d d' : Disk} (within : Within keys d d')
    (more : ∀ p ∈ keys, p ∈ keys') : Within keys' d d' :=
  ⟨fun p free => within.elsewhere p fun found => free (more p found),within.dirs,within.temps⟩

theorem holding {keys : List Path} {d d' : Disk} {v : VaultService} {path digest : Text}
    (within : Within keys d d') (free : relativeParts path ∉ keys) :
    Holding v d' path digest ↔ Holding v d path digest :=
  and_congr_right fun _ => exists_congr fun _ => and_congr_left fun _ => within.fileAt free

theorem moved {d : Disk} {source target : Path} {data : Bytes}
    (file : d.tree.FileAt source data) (vacant : d.tree.VacantAt target) :
    Within [target,source] d (moved d source target) := by
  have linked : Within [target] d (bothNames d source target) :=
    .setTree (by simp [vacant.2]) (by simp [file.2])
  have dropped : Within [source] (bothNames d source target) (Vault.moved d source target) :=
    .setTree (by simp [(bothNames_source file vacant).2]) (by simp)
  exact linked.trans dropped

end Within

namespace Step

variable {v : VaultService} {d d' : Disk} {step other : Step}

def Applied (v : VaultService) (d : Disk) (step : Step) : Prop := Holding v d step.path step.digest

def Clear (v : VaultService) (d : Disk) : Step → Prop
  | create _ _ => True
  | update _ before _ => before.size ≤ v.maxFileBytes
  | move source _ _ => PublicPath source ∧ d.tree.VacantAt (relativeParts source)

def Undoable (v : VaultService) (d : Disk) (step : Step) : Prop := step.Applied v d ∧ step.Clear v d

def Intact (d : Disk) : Step → Prop
  | move _ target data => d.tree.FileAt (relativeParts target) data
  | _ => True

def undone (d : Disk) : Step → Disk
  | create path _ => d.setTree (relativeParts path) none
  | update path before _ => d.setTree (relativeParts path) (some (.file before))
  | move source target _ => moved d (relativeParts target) (relativeParts source)

def Silent : Step → Prop
  | update _ before after => sha256Bytes before = sha256Bytes after
  | _ => False

theorem Applied.file (applied : step.Applied v d) :
    ∃ content, d.tree.FileAt (relativeParts step.path) content := by
  obtain ⟨_,content,file,_⟩ := applied
  exact ⟨content,file⟩

theorem undone_within (undoable : step.Undoable v d) : Within step.keys d (step.undone d) := by
  obtain ⟨applied,clear⟩ := undoable
  obtain ⟨content,file⟩ := applied.file
  have occupied : d.tree.get (relativeParts step.path) ≠ some .dir := by simp [file.2]
  cases step with
  | create path data => exact .setTree occupied (by simp)
  | update path before after => exact .setTree occupied (by simp)
  | move source target data =>
    refine (Within.moved file clear.2).mono fun p found => ?_
    exact List.mem_cons.mpr (by simpa [path,or_comm] using found)

theorem move_apart {source target : Text} {data : Bytes}
    (undoable : (Step.move source target data).Undoable v d) :
    relativeParts target ≠ relativeParts source := by
  obtain ⟨content,file⟩ := undoable.1.file
  intro same
  have here : d.tree.get (relativeParts target) = some (.file content) := file.2
  rw [same,undoable.2.2.2] at here
  simp at here

/-- Reversing an intact step writes its image back. -/
theorem undone_restored (undoable : step.Undoable v d) (intact : step.Intact d) :
    step.image.Restored d.tree.get (step.undone d).tree.get := by
  refine ⟨?_,fun p free => (undone_within undoable).elsewhere p free⟩
  cases step with
  | create path data => simp [UndoLog.Image.Holds,image,undone]
  | update path before after => simp [UndoLog.Image.Holds,image,undone]
  | move source target data =>
    have apart := move_apart undoable
    have there : d.tree.get (relativeParts target) = some (.file data) := intact.2
    simp [UndoLog.Image.Holds,image,undone,moved,bothNames,there,Tree.get_set,apart,apart.symm]

theorem intact_of_undone (undoable : step.Undoable v d)
    (holds : step.image.Holds (step.undone d).tree.get) : step.Intact d := by
  cases step with
  | create path data => trivial
  | update path before after => trivial
  | move source target data =>
    have apart := move_apart undoable
    have back := holds (relativeParts source) (by simp [image])
    simp only [image,if_true,undone,moved,bothNames,Disk.setTree_tree,
      Tree.get_set_ne _ _ apart.symm,Tree.get_set_self] at back
    obtain ⟨content,file⟩ := undoable.1.file
    exact ⟨file.1,back⟩

/-- Reversing a step takes its result away. -/
theorem not_applied_undone (undoable : step.Undoable v d) (loud : ¬ step.Silent) :
    ¬ step.Applied v (step.undone d) := by
  intro still
  obtain ⟨_,content,file,_,same⟩ := still
  cases step with
  | create name data =>
    have here : (d.tree.set (relativeParts name) none).get (relativeParts name) =
      some (.file content) := file.2
    simp at here
  | update name before after =>
    have here : (d.tree.set (relativeParts name) (some (.file before))).get
      (relativeParts name) = some (.file content) := file.2
    simp only [Tree.get_set_self,Option.some.injEq,Node.file.injEq] at here
    subst here
    exact loud same
  | move source target data =>
    have here : (moved d (relativeParts target) (relativeParts source)).tree.get
      (relativeParts target) = some (.file content) := file.2
    simp [moved] at here

/-- A change at other paths does not matter to a step. -/
theorem applied_within {keys : List Path} (within : Within keys d d')
    (free : ∀ p ∈ keys, p ∉ step.keys) : step.Applied v d' ↔ step.Applied v d :=
  within.holding fun found => free _ found step.path_mem_keys

theorem clear_within {keys : List Path} (within : Within keys d d')
    (free : ∀ p ∈ keys, p ∉ step.keys) : step.Clear v d' ↔ step.Clear v d := by
  cases step with
  | create path data => exact Iff.rfl
  | update path before after => exact Iff.rfl
  | move source target data =>
    exact and_congr_right fun _ => within.vacantAt fun found => free _ found (by simp [Step.keys,image])

theorem undoable_within {keys : List Path} (within : Within keys d d')
    (free : ∀ p ∈ keys, p ∉ step.keys) : step.Undoable v d' ↔ step.Undoable v d :=
  and_congr (applied_within within free) (clear_within within free)

theorem intact_within {keys : List Path} (within : Within keys d d')
    (free : ∀ p ∈ keys, p ∉ step.keys) : step.Intact d' ↔ step.Intact d := by
  cases step with
  | create path data => exact Iff.rfl
  | update path before after => exact Iff.rfl
  | move source target data =>
    exact within.fileAt fun found => free _ found (by simp [Step.keys,image])

section Procedures

theorem fits_differs (data : Bytes) :
    differs (some (sha256Bytes data)) (some (sha256Bytes data)) = false := by simp [differs]

variable {reason : Exc} {ready : Prop} {goal : Disk} {p : Fs Unit}

/-- A move asks for the name of its source, which is never empty when it can be reversed. -/
theorem outcome_named {source : Text} (names : ready → PublicPath source)
    (outcome : Outcome ready () d goal (run FsOp.step p d)) :
    Outcome ready () d goal
      (run FsOp.step (if falsy (some source) then Proc.throw reason else p) d) := by
  by_cases unnamed : falsy (some source)
  · rw [if_pos unnamed]
    refine .refused (fun can => (names can).1.nonempty ?_) reason rfl
    simpa [falsy] using unnamed
  · rw [if_neg unnamed]
    exact outcome

theorem eval_requireCurrent {path digest : Text} (held : Holding v d path digest) :
    eval ReadOp.answer (requireCurrent v path (some digest)) d = .ok () := by
  obtain ⟨content,read⟩ := eval_readBytes_holding.mpr held
  simp [requireCurrent,eval_andThen,read]

theorem eval_requireCurrent_changed {path digest : Text} (changed : ¬ Holding v d path digest) :
    eval ReadOp.answer (requireCurrent v path (some digest)) d = .error (.conflict path) := by
  unfold requireCurrent
  rw [eval_andThen]
  cases read : eval ReadOp.answer (v.readBytes path) d with
  | error reason => rfl
  | ok found =>
    obtain ⟨content,current⟩ := found
    have other : current ≠ digest := by
      rintro rfl
      exact changed (eval_readBytes_holding.mp ⟨content,read⟩)
    simp [other]

/-- The check in front of an undo asks for nothing the undo itself does not need. -/
theorem outcome_requireCurrent {path digest : Text} {rest : Prop}
    (outcome : Outcome (Holding v d path digest ∧ rest) () d goal (run FsOp.step p d)) :
    Outcome (Holding v d path digest ∧ rest) () d goal
      (run FsOp.step (do
        (liftM (requireCurrent v path (some digest)) : Fs Unit)
        p) d) := by
  by_cases held : Holding v d path digest
  · rw [run_bind_ok FsOp.step (by rw [run_liftLook,eval_requireCurrent held])]
    exact outcome
  · refine .refused (fun ready => held ready.1) (.conflict path) (run_bind_error FsOp.step ?_)
    rw [run_liftLook,eval_requireCurrent_changed held]

variable [Host] (step : Step) (d : Disk) (jobId : Text) (seq : Nat) (state : RowState)

/-- The inverse of a journaled step, as explicit recovery runs it. -/
theorem restoreEntry_outcome (r : RecoveryService) :
    Outcome (step.Undoable r.vault d) () d (step.undone d)
      (run FsOp.step (r.restoreEntry (step.row jobId seq state) step.digest) d) := by
  cases step with
  | create path data => exact (deleteAgain_outcome path data _).iff (and_iff_left trivial)
  | update path before after => exact writeBack_outcome (fits_differs before)
  | move source target data =>
    exact outcome_named (fun ready => ready.2.1) (moveBack_outcome (fits_differs data))

/-- The inverse of a journaled step, as an undo runs it. -/
theorem restoreFile_outcome (u : UndoService) :
    Outcome (step.Undoable u.vault d) () d (step.undone d)
      (run FsOp.step (u.restoreFile (step.row jobId seq state)) d) := by
  cases step with
  | create path data =>
    exact outcome_requireCurrent ((deleteAgain_outcome path data _).iff (and_iff_left trivial))
  | update path before after =>
    exact outcome_requireCurrent ((@writeBack_outcome _ _ _ _ _ _ (fun digest => digest ≠ some (sha256Bytes before))) (by simp))
  | move source target data =>
    exact outcome_named (fun ready => ready.2.1)
      (outcome_requireCurrent (moveBack_outcome (fits_differs data)))

end Procedures

end Step

end LocalBook.Recovery
