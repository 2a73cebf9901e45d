import LocalBook.Vault.Settle

/-! Each mutation of the Vault settles: one statement per operation that covers the
plain run, a failure at any single call and a crash before any call. -/
namespace LocalBook.Vault

open Effect

variable {errno : Errno} {s : Disk} {target : Path} {data : Bytes}

def Staged (s goal before : Disk) : Prop :=
  before = s ∨ before = goal ∨ ∃ temp, before = s.addTemp temp ∨ before = goal.addTemp temp

theorem staged_temp {goal : Disk} (temp : Temp) : Staged s goal (s.addTemp temp) :=
  .inr (.inr ⟨temp,.inl rfl⟩)

theorem staged_goal_temp {goal : Disk} (temp : Temp) : Staged s goal (goal.addTemp temp) :=
  .inr (.inr ⟨temp,.inr rfl⟩)

def storing (s : Disk) (target : Path) (data : Bytes) : Aim s where
  goal := s.setTree target (some (.file data))
  stages := Staged s (s.setTree target (some (.file data)))
  temps := rfl
  first := .inl rfl
  last := .inr (.inl rfl)

def removing (s : Disk) (p : Path) : Aim s where
  goal := s.setTree p none
  stages before := before = s ∨ before = s.setTree p none
  temps := rfl
  first := .inl rfl
  last := .inr rfl

theorem run_discardTemp (d : Disk) (token : Nat) :
    run FsOp.step (discardTemp token) d = (.ok (),(d.unlinkTemp token).2) := by
  simp [discardTemp,run_bind]

theorem unlinkTemp_tempOf (s : Disk) (target : Path) (data : Bytes) :
    ((s.addTemp (tempOf s target data)).unlinkTemp (Disk.fresh s.temps)).2 = s := by
  have found := Disk.temp?_addTemp s (tempOf s target data)
  have dropped := dropTemp_tempOf s target data
  simp only [tempOf] at found dropped ⊢
  simp [Disk.unlinkTemp,found,dropped]

theorem temp?_fresh (d : Disk) : d.temp? (Disk.fresh d.temps) = none := by
  refine List.find?_eq_none.mpr fun temp found => ?_
  have less := Disk.token_lt_fresh found
  simpa using less.ne

/-- Removing a temporary file that is gone already changes nothing. -/
theorem unlinkTemp_fresh (d : Disk) : (d.unlinkTemp (Disk.fresh d.temps)).2 = d := by
  simp [Disk.unlinkTemp,temp?_fresh]

theorem writeTemp_tempOf (s : Disk) (target : Path) (old data : Bytes) :
    (s.addTemp (tempOf s target old)).writeTemp (Disk.fresh s.temps) data =
      (.ok (),s.addTemp (tempOf s target (old ++ data))) := by
  have found := Disk.temp?_addTemp s (tempOf s target old)
  have dropped := dropTemp_tempOf s target old
  simp only [tempOf] at found dropped ⊢
  simp [Disk.writeTemp,found,dropped]

theorem openTemp_dirs (dirs : s.tree.Dirs target.dropLast) :
    s.openTemp target.dropLast = (.ok (Disk.fresh s.temps),s.addTemp (tempOf s target .empty)) := by
  simp [Disk.openTemp,Tree.lstat_of_at dirs.at,tempOf]

theorem syncTemp_tempOf :
    (s.addTemp (tempOf s target data)).syncTemp (Disk.fresh s.temps) = .ok () := by
  have found := Disk.temp?_addTemp s (tempOf s target data)
  simp only [tempOf] at found ⊢
  simp [Disk.syncTemp,found]

/-- The temporary file is filled, or the write is refused and the file removed. -/
theorem ensures_writeTemp (dirs : s.tree.Dirs target.dropLast) :
    Ensures FsOp.step (FsOp.fail errno) none (writeTemp target.dropLast data) s
      fun failed result t => match failed with
        | none => result = .ok (Disk.fresh s.temps) ∧ t = s.addTemp (tempOf s target data)
        | some before => Quiet errno (storing s target data) (some before) ∧
          t = s ∧ ∃ reason, result = .error reason := by
  have opened := openTemp_dirs dirs
  have empty : ByteArray.empty ++ data = data := by simp
  have written := writeTemp_tempOf s target .empty data
  have gone := unlinkTemp_tempOf s target data
  have goneEmpty := unlinkTemp_tempOf s target .empty
  rw [empty] at written
  have hidden : ∀ temp op, removesTemp op = false →
      Quiet errno (storing s target data) (some (op,s.addTemp temp)) :=
    fun temp op keeps => quiet_here (staged_temp temp) rfl keeps
  refine ensures_perform (.openTemp target.dropLast) ?_ ?_
  · simp only [FsOp.step,opened]
    rw [ensures_bind]
    refine ensures_perform (.writeTemp _ data) ?_ ?_
    · simp only [FsOp.step,written]
      refine ensures_perform (.syncTemp _) ?_ ?_
      · simp only [FsOp.step,syncTemp_tempOf]
        refine ensures_closeTemp ⟨rfl,rfl⟩ ?_
        simpa [run_bind,run_discardTemp,gone] using hidden _ _ rfl
      · simpa [run_bind,run_discardTemp,gone] using hidden _ _ rfl
    · simpa [run_bind,run_discardTemp,goneEmpty] using hidden _ _ rfl
  · simpa using quiet_start rfl

/-- How a directory sync ends. -/
inductive Synced (errno : Errno) (t : Disk) :
    Option (FsOp × Disk) → Except Exc Unit → Disk → Prop where
  | plain : Synced errno t none (.ok ()) t
  | silent {op : FsOp} (keeps : removesTemp op = false) (silent : ignored errno op = true) :
    Synced errno t (some (op,t)) (.ok ()) t
  | reported {op : FsOp} {reason : Exc} (keeps : removesTemp op = false)
    (heard : ignored errno op = false) (report : reason.NoCollision) :
    Synced errno t (some (op,t)) (.error reason) t

theorem synced_outcome {t : Disk} {op : FsOp} (same : ignored errno op = tolerated errno)
    (keeps : removesTemp op = false) :
    Synced errno t (some (op,t)) (run FsOp.step (syncOutcome (.error errno)) t).1
      (run FsOp.step (syncOutcome (.error errno)) t).2 := by
  cases quietly : tolerated errno with
  | true =>
    simp only [syncOutcome,quietly,if_true,run_pure]
    exact .silent keeps (same.trans quietly)
  | false =>
    simp only [syncOutcome,quietly,Bool.false_eq_true,if_false,run_throw]
    exact .reported keeps (same.trans quietly) fun success => by cases success

theorem ensures_fsync {t : Disk} {parent : Path} (dirs : t.tree.Dirs parent) :
    Ensures FsOp.step (FsOp.fail errno) none (fsyncDirectory parent) t (Synced errno t) := by
  have opened : t.openDir parent = .ok () := by simp [Disk.openDir,Tree.lstat_of_at dirs.at]
  refine ensures_perform (.openDir parent) ?_ ?_
  · simp only [FsOp.step,opened]
    refine ensures_perform (.syncDir parent) ?_ ?_
    · refine ensures_perform (.closeDir parent) .plain ?_
      rw [ensures_some]
      exact .silent rfl rfl
    · rw [ensures_some]
      simp only [run_bind,Call.run_closeDir]
      exact synced_outcome rfl rfl
  · rw [ensures_some]
    exact synced_outcome rfl rfl

/-- The directory sync that ends a mutation: its failure is late unless tolerated. -/
theorem settles_fsync {aim : Aim s} {failed : Option (FsOp × Disk)} {t : Disk} {parent : Path}
    {P : Unit → Prop} (dirs : aim.goal.tree.Dirs parent) (answer : P ())
    (quiet : Quiet errno aim failed) (tree : t.tree = aim.goal.tree)
    (plain : failed = none → t = aim.goal) :
    Ensures FsOp.step (FsOp.fail errno) failed (fsyncDirectory parent) t
      (Settles errno aim P) := by
  cases failed with
  | some before =>
    rw [ensures_some,run_fsyncDirectory (tree ▸ dirs)]
    exact .done quiet answer tree (by simp)
  | none =>
    obtain rfl := plain rfl
    refine (ensures_fsync dirs).mono fun later result u synced => ?_
    cases synced with
    | plain => exact .done quiet answer rfl fun _ => rfl
    | silent keeps silent =>
      exact .done (quiet_ignored aim.last silent (by simp [keeps])) answer rfl (by simp)
    | reported keeps heard report => exact .visible aim.last rfl heard keeps report

/-- A file published under a name that was free. -/
theorem linkTemp_vacant (data : Bytes) (vacant : s.tree.VacantAt target) :
    (s.addTemp (tempOf s target data)).linkTemp (Disk.fresh s.temps) target =
      (.ok (),(s.setTree target (some (.file data))).addTemp (tempOf s target data)) := by
  have found := Disk.temp?_addTemp s (tempOf s target data)
  have walked := (Tree.walk_parent (t := s.tree) target).mpr (.inr vacant.1)
  simp only [tempOf] at found ⊢
  simp [Disk.linkTemp,found,Disk.occupied,vacant.2,Disk.place,walked]

theorem setTree_unlinkTemp (s : Disk) (target : Path) (data : Bytes) (node : Option Node) :
    (((s.setTree target node).addTemp (tempOf s target data)).unlinkTemp
      (Disk.fresh s.temps)).2 = s.setTree target node :=
  unlinkTemp_tempOf (s.setTree target node) target data

theorem file_of_vacant (vacant : s.tree.VacantAt target) :
    (s.setTree target (some (.file data))).tree.FileAt target data :=
  ⟨(Tree.dirs_set (by simp [vacant.2]) (by simp)).mpr vacant.1,by simp⟩

theorem storing_ne (vacant : s.tree.VacantAt target) :
    (s.setTree target (some (.file data))).tree ≠ s.tree := by
  intro same
  have here := congrArg (fun t => t.get target) same
  simp [vacant.2] at here

/-- Create through a temporary file and a hard link. -/
theorem settles_atomicCreate (vacant : s.tree.VacantAt target) :
    Ensures FsOp.step (FsOp.fail errno) none (atomicCreateBytes target data) s
      (Settles errno (storing s target data) fun _ => s.tree.VacantAt target) := by
  have linked := linkTemp_vacant data vacant
  have gone := unlinkTemp_tempOf s target data
  have cleaned := setTree_unlinkTemp s target data (some (.file data))
  have clean := unlinkTemp_fresh s
  have dirs : (s.setTree target (some (.file data))).tree.Dirs target.dropLast :=
    (Tree.dirs_set (by simp [vacant.2]) (by simp)).mpr vacant.1
  have new := (@storing_ne _ _ data) vacant
  unfold atomicCreateBytes atomicWriteBytes
  rw [ensures_bind]
  refine (ensures_writeTemp vacant.1).mono fun failed result t written => ?_
  cases failed with
  | some before =>
    obtain ⟨quiet,rfl,reason,rfl⟩ := written
    exact .refused quiet
  | none =>
    obtain ⟨rfl,rfl⟩ := written
    dsimp only
    rw [ensures_bind,ensures_tryCatch]
    refine ensures_perform (.linkTemp (Disk.fresh s.temps) target) ?_ ?_
    · simp only [FsOp.step,linked]
      refine ensures_perform (.unlinkTemp (Disk.fresh s.temps)) ?_ ?_
      · simp only [FsOp.step]
        rw [cleaned]
        exact settles_fsync dirs vacant quiet_none rfl fun _ => rfl
      · exact settles_fsync dirs vacant (quiet_ignored (staged_goal_temp _) rfl fun _ => new)
          rfl (by simp)
    · rw [ensures_some]
      simp only [run_bind,run_discardTemp,gone,run_throw]
      rw [ensures_some]
      simp only [run_bind,run_discardTemp,clean,run_throw]
      exact .refused (quiet_here (staged_temp _) rfl rfl)

/-- A name that is taken refuses the hard link. -/
theorem linkTemp_taken (dirs : s.tree.Dirs target.dropLast) (taken : ¬ s.tree.VacantAt target) :
    ∃ errno, (s.addTemp (tempOf s target data)).linkTemp (Disk.fresh s.temps) target =
      (.error errno,s.addTemp (tempOf s target data)) := by
  have free : s.tree.get target ≠ none := fun free => taken ⟨dirs,free⟩
  have found := Disk.temp?_addTemp s (tempOf s target data)
  simp only [tempOf] at found ⊢
  obtain ⟨reason,refused⟩ | ⟨_,empty,_⟩ := place_cases
    (s.addTemp ⟨Disk.fresh s.temps,target.dropLast,data⟩) target (some (.file data))
    ((s.addTemp ⟨Disk.fresh s.temps,target.dropLast,data⟩).occupied target)
  · exact ⟨reason,by simp only [Disk.linkTemp,found,refused]⟩
  · simp [Disk.occupied,free] at empty

/-- A create is refused, and nothing changes, unless the name is free in a directory. -/
theorem run_atomicCreate_refused (taken : ¬ s.tree.VacantAt target) :
    ∃ reason, run FsOp.step (atomicCreateBytes target data) s = (.error reason,s) := by
  by_cases dirs : s.tree.Dirs target.dropLast
  · have gone := unlinkTemp_tempOf s target data
    have clean := unlinkTemp_fresh s
    obtain ⟨reason,linked⟩ := (@linkTemp_taken _ _ data) dirs taken
    refine ⟨linkRefusal reason,?_⟩
    simp [atomicCreateBytes,atomicWriteBytes,run_bind,run_tryCatch,run_writeTemp dirs,publish,
      linked,run_discardTemp,gone,clean]
  · refine ⟨atomicWriteError "Unable to prepare the atomic Vault write",?_⟩
    cases looked : s.tree.lstat target.dropLast with
    | error reason =>
      simp [atomicCreateBytes,atomicWriteBytes,writeTemp,run_bind,Disk.openTemp,looked]
    | ok node =>
      have other : node ≠ .dir := by
        intro dir
        subst dir
        exact dirs (Tree.dirs_of_lstat looked)
      cases node <;> simp_all [atomicCreateBytes,atomicWriteBytes,writeTemp,run_bind,Disk.openTemp]

theorem eval_createdReceipt {relative : Text} (file : s.tree.FileAt target data) :
    eval ReadOp.answer (VaultService.createdReceipt relative target data) s =
      .ok ⟨relative,some (sha256Bytes data),some data.size,.created⟩ := by
  have safe : eval ReadOp.answer (assertSafeExisting target relative) s = .ok (.file data) :=
    eval_assertSafeExisting.mpr ⟨file,rfl⟩
  simp [VaultService.createdReceipt,eval_bind,safe]

def Created (s : Disk) (target : Path) (data : Bytes) (relative : Text) (receipt : Receipt) :
    Prop :=
  s.tree.VacantAt target ∧ receipt = ⟨relative,some (sha256Bytes data),some data.size,.created⟩

theorem noCollision_nameCollision (relative : Text) (reason : Exc) (other : reason.NoCollision) :
    (VaultService.nameCollision relative reason).NoCollision := by
  unfold VaultService.nameCollision
  split
  · exact absurd rfl other
  · exact other

theorem settles_storeNew (relative : Text) (vacant : s.tree.VacantAt target) :
    Ensures FsOp.step (FsOp.fail errno) none (VaultService.storeNew relative target data) s
      (Settles errno (storing s target data) (Created s target data relative)) :=
  Settles.after (Settles.rethrow (noCollision_nameCollision relative) (settles_atomicCreate vacant))
    (fun _ => (strict_assertSafeExisting _).bind fun _ => trivial)
    (fun _ => (raises_assertSafeExisting _).bind fun _ => trivial)
    fun _ _ => ⟨_,eval_createdReceipt (file_of_vacant vacant),vacant,rfl⟩

theorem atomic_storeNew (relative : Text) :
    Atomic (VaultService.storeNew relative target data) (storing s target data)
      (Created s target data relative) := by
  by_cases vacant : s.tree.VacantAt target
  · exact Settles.atomic (@settles_storeNew .eio _ _ _ relative vacant)
  · obtain ⟨reason,refused⟩ := @run_atomicCreate_refused _ _ data vacant
    refine .inl ⟨VaultService.nameCollision relative reason,?_⟩
    simp [VaultService.storeNew,run_bind,run_tryCatch,refused]

theorem settles_createTail (relative : Text) (dirs : s.tree.Dirs target.dropLast) :
    Ensures FsOp.step (FsOp.fail errno) none
      (VaultService.createTail relative target.dropLast target data) s
      (Settles errno (storing s target data) (Created s target data relative)) := by
  refine settles_look (returns_any _) (fun _ _ => atomic_storeNew relative) fun _ _ checked => ?_
  simp only [eval_bind_eq_ok] at checked
  obtain ⟨_,_,free⟩ := checked
  exact settles_storeNew relative ⟨dirs,(eval_assertFree dirs).mp free⟩

/-- What `create_bytes` answers, and what it needs for that. -/
def CreateAnswer (v : VaultService) (s : Disk) (value : Text) (data : Bytes)
    (receipt : Receipt) : Prop :=
  PublicPath value ∧ data.size ≤ v.maxFileBytes ∧ Created s (relativeParts value) data value receipt

/-- `create_bytes` settles towards the tree with the new file. -/
theorem settles_createBytes (v : VaultService) (value : Text) :
    Ensures FsOp.step (FsOp.fail errno) none (v.createBytes value data) s
      (Settles errno (storing s (relativeParts value) data) (CreateAnswer v s value data)) := by
  unfold VaultService.createBytes
  split
  · exact settles_throw _
  · next small =>
    refine settles_look returns_resolveParentAndTarget ?_ ?_
    · intro place found
      obtain ⟨valid,rfl⟩ := found
      refine Atomic.look fun _ _ => (atomic_storeNew _).imp fun receipt created => ?_
      exact ⟨valid,Nat.not_lt.mp small,created⟩
    · intro place found resolved
      obtain ⟨valid,rfl⟩ := found
      obtain ⟨_,_,dirs,_⟩ := eval_resolveParentAndTarget.mp resolved
      refine (settles_createTail _ dirs).mono fun later result t settled => ?_
      exact settled.imp fun receipt created => ⟨valid,Nat.not_lt.mp small,created⟩

theorem replaceTemp_file {old : Bytes} (data : Bytes) (file : s.tree.FileAt target old) :
    (s.addTemp (tempOf s target data)).replaceTemp (Disk.fresh s.temps) target =
      (.ok (),s.setTree target (some (.file data))) := by
  have found := Disk.temp?_addTemp s (tempOf s target data)
  have walked := (Tree.walk_parent (t := s.tree) target).mpr (.inr file.1)
  have dropped := dropTemp_tempOf (s.setTree target (some (.file data))) target data
  simp only [tempOf,Disk.setTree_temps] at found dropped ⊢
  simp [Disk.replaceTemp,found,file.2,Disk.place,walked,dropped]

theorem file_of_file {old : Bytes} (file : s.tree.FileAt target old) :
    (s.setTree target (some (.file data))).tree.FileAt target data :=
  ⟨(Tree.dirs_set (by simp [file.2]) (by simp)).mpr file.1,by simp⟩

/-- Replace through a temporary file and a rename, after a check that passes. -/
theorem settles_atomicReplace {old : Bytes} {check : Look Unit}
    (file : s.tree.FileAt target old) (strict : Strict (fun _ => .error errno) check)
    (passes : eval ReadOp.answer check s = .ok ()) :
    Ensures FsOp.step (FsOp.fail errno) none (atomicReplaceBytes target data check) s
      (Settles errno (storing s target data) fun _ => True) := by
  have replaced := replaceTemp_file data file
  have gone := unlinkTemp_tempOf s target data
  have dirs : (s.setTree target (some (.file data))).tree.Dirs target.dropLast :=
    (file_of_file file).1
  have checked : eval ReadOp.answer check (s.addTemp (tempOf s target data)) = .ok () := by
    rw [← passes]
    exact eval_congr_tree rfl
  unfold atomicReplaceBytes atomicWriteBytes
  rw [ensures_bind]
  refine (ensures_writeTemp file.1).mono fun failed result t written => ?_
  cases failed with
  | some before =>
    obtain ⟨quiet,rfl,reason,rfl⟩ := written
    exact .refused quiet
  | none =>
    obtain ⟨rfl,rfl⟩ := written
    dsimp only
    rw [ensures_bind,ensures_tryCatch]
    refine ensures_bind_strict strict ?_ ?_ fun _ _ => ?_
    · intro op reason
      dsimp only
      rw [ensures_some]
      simp only [run_bind,run_discardTemp,gone,run_throw]
      exact .refused (quiet_here (staged_temp _) rfl rfl)
    · intro reason refused
      simp [checked] at refused
    · refine ensures_perform (.replaceTemp (Disk.fresh s.temps) target) ?_ ?_
      · simp only [FsOp.step,replaced]
        exact settles_fsync dirs trivial quiet_none rfl fun _ => rfl
      · rw [ensures_some]
        simp only [run_throw]
        rw [ensures_some]
        simp only [run_bind,run_discardTemp,gone,run_throw]
        exact .refused (quiet_here (staged_temp _) rfl rfl)

theorem unlink_file {old : Bytes} (file : s.tree.FileAt target old) :
    s.place target none (s.notDir target) = (.ok (),s.setTree target none) := by
  have walked := (Tree.walk_parent (t := s.tree) target).mpr (.inr file.1)
  simp [Disk.notDir,file.2,Disk.place,walked]

def bothNames (s : Disk) (source target : Path) : Disk :=
  s.setTree target (s.tree.get source)

/-- The tree a move leads to. -/
def moved (s : Disk) (source target : Path) : Disk := (bothNames s source target).setTree source none

/-- The file gets its new name and loses the old one. -/
def moving (s : Disk) (source target : Path) : Aim s where
  goal := moved s source target
  stages before := before = s ∨ before = bothNames s source target ∨
    before = moved s source target
  temps := rfl
  first := .inl rfl
  last := .inr (.inr rfl)

section Move

variable {v : VaultService} {source : Path} {sourceRelative targetRelative : Text}

theorem link_file (file : s.tree.FileAt source data) (vacant : s.tree.VacantAt target) :
    s.link source target = (.ok (),bothNames s source target) := by
  have walked := (Tree.walk_parent (t := s.tree) target).mpr (.inr vacant.1)
  simp [Disk.link,Tree.read_of_file file,Disk.occupied,vacant.2,Disk.place,walked,bothNames,file.2]

/-- A hard link is made exactly to a free name in a directory. -/
theorem link_refused (file : s.tree.FileAt source data) (taken : ¬ s.tree.VacantAt target) :
    ∃ reason, s.link source target = (.error reason,s) := by
  simp only [Disk.link,Tree.read_of_file file]
  obtain ⟨reason,refused⟩ | ⟨_,empty,walked⟩ := place_cases s target (some (.file data))
    (s.occupied target)
  · exact ⟨reason,refused⟩
  · have free : s.tree.get target = none := by
      by_contra there
      simp [Disk.occupied,there] at empty
    rcases (Tree.walk_parent target).mp walked with rfl | dirs
    · exact absurd file.1.root (by simp [free])
    · exact absurd ⟨dirs,free⟩ taken

theorem bothNames_source (file : s.tree.FileAt source data) (vacant : s.tree.VacantAt target) :
    (bothNames s source target).tree.FileAt source data := by
  have apart : source ≠ target := by
    rintro rfl
    exact absurd file.2 (by simp [vacant.2])
  exact file.set_ne apart (by simp [vacant.2]) (by simp [file.2])

theorem bothNames_target (file : s.tree.FileAt source data) (vacant : s.tree.VacantAt target) :
    (bothNames s source target).tree.FileAt target data := by
  refine ⟨(Tree.dirs_set (by simp [vacant.2]) (by simp [file.2])).mpr vacant.1,?_⟩
  simp [bothNames,file.2]

theorem moved_target (file : s.tree.FileAt source data) (vacant : s.tree.VacantAt target) :
    (moved s source target).tree.FileAt target data := by
  have apart : target ≠ source := by
    rintro rfl
    exact absurd file.2 (by simp [vacant.2])
  have there := bothNames_target file vacant
  exact there.set_ne apart (by simp [(bothNames_source file vacant).2]) (by simp)

/-- Dropping the new name undoes the link. -/
theorem bothNames_undo (vacant : s.tree.VacantAt target) :
    (bothNames s source target).setTree target none = s := by
  have back := s.tree.set_of_get vacant.2
  cases s
  simp_all [bothNames,Disk.setTree]

theorem bothNames_hidden (file : s.tree.FileAt source data) (vacant : s.tree.VacantAt target) :
    (bothNames s source target).tree ≠ (moved s source target).tree := by
  intro same
  have here := congrArg (fun t => t.get source) same
  simp [moved,(bothNames_source file vacant).2] at here

theorem eval_movedContent {d : Disk} (atSource : d.tree.FileAt source data)
    (atTarget : d.tree.FileAt target data) (small : data.size ≤ v.maxFileBytes) :
    eval ReadOp.answer
      (v.movedContent sourceRelative source targetRelative target (sha256Bytes data)) d =
        .ok () := by
  have safe : eval ReadOp.answer (assertSafeExisting target targetRelative) d =
      .ok (.file data) := eval_assertSafeExisting.mpr ⟨atTarget,rfl⟩
  have first := ((@eval_snapshot _ v targetRelative) atTarget).mpr ⟨small,rfl⟩
  have second := ((@eval_snapshot _ v sourceRelative) atSource).mpr ⟨small,rfl⟩
  simp [VaultService.movedContent,eval_bind,safe,first,second]

/-- Dropping the new name after a failure between the two steps of a move. -/
theorem run_dropTarget (file : s.tree.FileAt source data) (vacant : s.tree.VacantAt target)
    (reason : Exc) :
    run FsOp.step (do
      let _ ← Call.unlink target
      Proc.throw reason : Fs Unit) (bothNames s source target) = (.error reason,s) := by
  have dropped := unlink_file (bothNames_target file vacant)
  simp [run_bind,dropped,bothNames_undo vacant]

theorem settles_relink (file : s.tree.FileAt source data) (small : data.size ≤ v.maxFileBytes) :
    Ensures FsOp.step (FsOp.fail errno) none
      (v.relink sourceRelative source targetRelative target (sha256Bytes data)) s
      (Settles errno (moving s source target) fun _ => s.tree.VacantAt target) := by
  refine ensures_perform (.link source target) ?_ ?_
  · by_cases vacant : s.tree.VacantAt target
    · simp only [FsOp.step,link_file file vacant]
      have atSource := bothNames_source file vacant
      have hidden := bothNames_hidden file vacant
      have stage : (moving s source target).stages (bothNames s source target) := .inr (.inl rfl)
      have passes := (@eval_movedContent _ _ v _ sourceRelative targetRelative) atSource (bothNames_target file vacant) small
      unfold VaultService.finishMove
      rw [ensures_tryCatch]
      refine ensures_bind_strict (strict_movedContent _ _ _ _ _) ?_ ?_ fun _ _ => ?_
      · intro op reason
        dsimp only
        rw [ensures_some,run_dropTarget file vacant]
        exact .refused (quiet_hidden stage hidden rfl)
      · intro reason refused
        simp [passes] at refused
      · refine ensures_perform (.unlink source) ?_ ?_
        · simp only [FsOp.step,unlink_file atSource]
          exact .done quiet_none vacant rfl fun _ => rfl
        · rw [ensures_some]
          simp only [run_throw]
          rw [ensures_some,run_dropTarget file vacant]
          exact .refused (quiet_hidden stage hidden rfl)
    · obtain ⟨reason,refused⟩ := link_refused file vacant
      simp only [FsOp.step,refused]
      exact .refused quiet_none
  · rw [ensures_some]
    exact .refused (quiet_start rfl)

def Moved (s : Disk) (target : Path) (data : Bytes) (targetRelative : Text) (receipt : Receipt) :
    Prop :=
  s.tree.VacantAt target ∧
    receipt = ⟨targetRelative,some (sha256Bytes data),some data.size,.moved⟩

theorem eval_movedReceipt {digest : Text} (atTarget : s.tree.FileAt target data)
    (small : data.size ≤ v.maxFileBytes) :
    eval ReadOp.answer (v.movedReceipt targetRelative target digest) s =
      .ok ⟨targetRelative,some digest,some data.size,.moved⟩ := by
  have read := (eval_readFile (v := v) atTarget).mpr ⟨small,rfl⟩
  simp [VaultService.movedReceipt,eval_bind,read]

theorem settles_relinkReceipt (file : s.tree.FileAt source data)
    (small : data.size ≤ v.maxFileBytes) :
    Ensures FsOp.step (FsOp.fail errno) none (do
      v.relink sourceRelative source targetRelative target (sha256Bytes data)
      liftM (v.movedReceipt targetRelative target (sha256Bytes data)) : Fs Receipt) s
      (Settles errno (moving s source target) (Moved s target data targetRelative)) :=
  Settles.after (settles_relink file small) (fun _ => (strict_readFile _).bind fun _ => trivial)
    (fun _ => (raises_readFile _).bind fun _ => trivial)
    fun _ vacant => ⟨_,eval_movedReceipt (moved_target file vacant) small,vacant,rfl⟩

end Move

section Service

variable [Host] (v : VaultService) (value : Text) (expected : Option Text)

/-- What `write_bytes` answers, and what it needs for that. -/
def WriteAnswer (s : Disk) (data : Bytes) (receipt : Receipt) : Prop :=
  PublicPath value ∧ data.size ≤ v.maxFileBytes ∧
    (∃ old, s.tree.FileAt (relativeParts value) old ∧ old.size ≤ v.maxFileBytes ∧
      Expects expected old) ∧
    receipt = ⟨value,some (sha256Bytes data),some data.size,.updated⟩

theorem settles_writeBytes :
    Ensures FsOp.step (FsOp.fail errno) none (v.writeBytes value data expected) s
      (Settles errno (storing s (relativeParts value) data)
        (WriteAnswer v value expected s data)) := by
  unfold VaultService.writeBytes
  split
  · exact settles_throw _
  · next small =>
    refine settles_strict ?_ fun place resolved => ?_
    · exact strict_resolveFile.bind fun _ => (strict_expectedContent _ _ _).bind fun _ => trivial
    · simp only [eval_bind_eq_ok,eval_resolveFile,eval_pure,Except.ok.injEq] at resolved
      obtain ⟨_,⟨valid,rfl,old,file⟩,digest,content,rfl⟩ := resolved
      obtain ⟨bounded,expects,rfl⟩ := (eval_expectedContent file).mp content
      have passes := ((@eval_unchanged _ v value) file).mpr ⟨bounded,rfl⟩
      refine Settles.after (settles_atomicReplace file (strict_beforeReplace _ _ _) ?_) ?_ ?_ ?_
      · simp [VaultService.beforeReplace,eval_bind,passes]
      · exact fun _ => (strict_assertSafeExisting _).bind fun _ =>
          (strict_readFile _).bind fun _ => trivial
      · exact fun _ => (raises_assertSafeExisting _).bind fun _ =>
          (raises_readFile _).bind fun _ => trivial
      · intro _ _
        have there := (@file_of_file _ _ data) file
        have safe : eval ReadOp.answer (assertSafeExisting (relativeParts value) value)
            (s.setTree (relativeParts value) (some (.file data))) = .ok (.file data) :=
          eval_assertSafeExisting.mpr ⟨there,rfl⟩
        have read := (eval_readFile (v := v) there).mpr ⟨Nat.not_lt.mp small,rfl⟩
        refine ⟨⟨value,some (sha256Bytes data),some data.size,.updated⟩,?_,?_⟩
        · simp [storing,eval_bind,safe,read]
        · exact ⟨valid,Nat.not_lt.mp small,⟨old,file,bounded,expects⟩,rfl⟩

/-- What `delete_file` answers, and what it needs for that. -/
def DeleteAnswer (s : Disk) (receipt : Receipt) : Prop :=
  PublicPath value ∧
    (∃ old, s.tree.FileAt (relativeParts value) old ∧ old.size ≤ v.maxFileBytes ∧
      Expects expected old) ∧
    receipt = ⟨value,none,none,.deleted⟩

theorem settles_deleteFile :
    Ensures FsOp.step (FsOp.fail errno) none (v.deleteFile value expected) s
      (Settles errno (removing s (relativeParts value)) (DeleteAnswer v value expected s)) := by
  refine settles_strict ?_ fun place resolved => ?_
  · exact strict_resolveFile.bind fun _ => (strict_expectedContent _ _ _).bind fun _ =>
      (strict_unchanged _ _ _).bind fun _ => trivial
  · simp only [eval_bind_eq_ok,eval_resolveFile,eval_pure,Except.ok.injEq] at resolved
    obtain ⟨_,⟨valid,rfl,old,file⟩,_,content,_,_,rfl⟩ := resolved
    obtain ⟨bounded,expects,_⟩ := (eval_expectedContent file).mp content
    refine ensures_perform (.unlink (relativeParts value)) ?_ ?_
    · simp only [FsOp.step,unlink_file file]
      exact .done quiet_none ⟨valid,⟨old,file,bounded,expects⟩,rfl⟩ rfl fun _ => rfl
    · rw [ensures_some]
      cases errno <;> exact .refused (quiet_start rfl)

variable {v value expected} {source target parent : Path} {sourceRelative targetRelative : Text}

def MoveTail (v : VaultService) (expected : Option Text) (s : Disk) (target : Path)
    (data : Bytes) (targetRelative : Text) (receipt : Receipt) : Prop :=
  data.size ≤ v.maxFileBytes ∧ Expects expected data ∧
    Moved s target data targetRelative receipt

theorem settles_moveTail (file : s.tree.FileAt source data) :
    Ensures FsOp.step (FsOp.fail errno) none
      (v.moveTail sourceRelative source targetRelative parent target expected) s
      (Settles errno (moving s source target)
        (MoveTail v expected s target data targetRelative)) := by
  refine settles_strict (strict_expectedContent _ _ _) fun digest content => ?_
  obtain ⟨small,expects,rfl⟩ := (eval_expectedContent file).mp content
  have rest : ∀ errno, Ensures FsOp.step (FsOp.fail errno) none _ s
      (Settles errno (moving s source target)
        (MoveTail v expected s target data targetRelative)) := fun errno =>
    ((@settles_relinkReceipt _ _ _ _ v _ sourceRelative) file small).mono
      fun later result t settled => settled.imp fun receipt done => ⟨small,expects,done⟩
  exact settles_look (returns_any _) (fun _ _ => Settles.atomic (rest .eio)) fun _ _ _ => rest _

variable (v value expected)

/-- What `move_file` answers, and what it needs for that. -/
def MoveAnswer (destination : Text) (s : Disk) (receipt : Receipt) : Prop :=
  PublicPath value ∧ PublicPath destination ∧ value ≠ destination ∧
    ∃ data, s.tree.FileAt (relativeParts value) data ∧
      MoveTail v expected s (relativeParts destination) data destination receipt

/-- `move_file` settles towards the tree in which the file has its new name only. -/
theorem settles_moveFile (destination : Text) :
    Ensures FsOp.step (FsOp.fail errno) none (v.moveFile value destination expected) s
      (Settles errno (moving s (relativeParts value) (relativeParts destination))
        (MoveAnswer v value expected destination s)) := by
  refine settles_strict strict_resolveFile fun place resolved => ?_
  obtain ⟨valid,rfl,data,file⟩ := eval_resolveFile.mp resolved
  have rest : ∀ errno, PublicPath destination → value ≠ destination →
      Ensures FsOp.step (FsOp.fail errno) none
        (v.moveTail value (relativeParts value) destination (relativeParts destination).dropLast
          (relativeParts destination) expected) s
        (Settles errno (moving s (relativeParts value) (relativeParts destination))
          (MoveAnswer v value expected destination s)) := fun errno free apart =>
    (settles_moveTail file).mono fun later result t settled =>
      settled.imp fun receipt done => ⟨valid,free,apart,data,file,done⟩
  refine settles_look returns_resolveParentAndTarget ?_ ?_
  · intro place found
    obtain ⟨free,rfl⟩ := found
    dsimp only
    split
    · exact Atomic.throw _
    · next apart => exact Settles.atomic (rest .eio free apart)
  · intro place found resolved
    obtain ⟨free,rfl⟩ := found
    dsimp only
    split
    · exact settles_throw _
    · next apart => exact rest errno free apart

end Service

end LocalBook.Vault
