import LocalBook.Recovery.Executing
import LocalBook.Recovery.Recovering

/-! A crash inside the executor, and the explicit recovery that follows. The journal is
never behind the disk, so the recovery brings back the Vault unless the crash left
something no row speaks of: a temporary file, or both names of a moved file. -/
namespace LocalBook.Recovery

open Effect Vault UndoLog

/-- The steps of a job's first execution: the executor carries them out, they touch
different paths, and each names the content the Vault holds. -/
structure Accepted [Host] (x : TransactionExecutor) (jobId : Text) (steps : List Step)
    (w : World) : Prop where
  carried : ∃ w', Carried x jobId 0 0 steps w w'
  apart : Apart steps
  captured : ∀ step ∈ steps, step.image.Holds w.disk.tree.get
  fresh : (w.db.journal jobId).rows = []

section Shape

variable [Host] {x : TransactionExecutor} {jobId : Text} {seq bytes : Nat} {steps : List Step}
variable {w w' u : World}

/-- What a crash leaves: some steps were made and recorded, and perhaps one more was
recorded and begun. -/
inductive Left (x : TransactionExecutor) (jobId : Text) (seq bytes : Nat)
    (earlier : List (RowState × Step)) (w : World) (steps : List Step) (u : World) : Prop where
  | between {rest : List Step} {v : World} {entries : List (RowState × Step)}
    (split : steps = entries.map Prod.snd ++ rest)
    (carried : Carried x jobId seq bytes (entries.map Prod.snd) w v)
    (open_ : ∀ entry ∈ entries, entry.1 ≠ .rolledBack)
    (rows : Numbered jobId (earlier ++ entries) u) (disk : u.disk = v.disk) :
    Left x jobId seq bytes earlier w steps u
  | inside {rest : List Step} {step : Step} {v v' : World} {entries : List (RowState × Step)}
    {bytes' : Nat} (split : steps = entries.map Prod.snd ++ step :: rest)
    (carried : Carried x jobId seq bytes (entries.map Prod.snd) w v)
    (open_ : ∀ entry ∈ entries, entry.1 ≠ .rolledBack) (admitted : step.Admitted x jobId bytes' v)
    (after : Carried x jobId seq bytes (entries.map Prod.snd ++ [step]) w v')
    (made : v'.disk = step.done v.disk)
    (rows : Numbered jobId (earlier ++ (entries ++ [(.pending,step)])) u)
    (stage : step.Stage v.disk u.disk) : Left x jobId seq bytes earlier w steps u

theorem left_of_crashed (carried : Carried x jobId seq bytes steps w w')
    (crashed : Crashed jobId seq steps w u) {earlier : List (RowState × Step)}
    (numbered : Numbered jobId earlier w) (next : earlier.length = seq) :
    Left x jobId seq bytes earlier w steps u := by
  induction crashed generalizing bytes earlier with
  | here seq steps w =>
    exact (@Left.between _ _ _ _ _ _ _ _ _ _ _ []) rfl (.nil _ _ _) (by simp) (by simpa using numbered) rfl
  | @inside seq step rest w e stage =>
    cases carried with
    | cons admitted later =>
      have recorded := (@Numbered.recorded _ _ _ [] step) (by simpa using numbered) next
      exact (@Left.inside _ _ _ _ _ _ _ _ _ _ _ _ _ []) rfl (.nil _ _ _) (by simp) admitted
        (.cons admitted (.nil _ _ _)) rfl recorded stage
  | @later seq step rest w u crashed ih =>
    cases carried with
    | cons admitted later =>
      have recorded := (@Numbered.recorded _ _ _ [] step) (by simpa using numbered) next
      have ran : Numbered jobId (earlier ++ [(.pending,step)]) (step.ran jobId seq w) := recorded
      have left := ih later ran (by simp [next])
      cases left with
      | @between rest v entries split carried open_ rows disk =>
        subst split
        refine (@Left.between _ _ _ _ _ _ _ _ _ _ _ ((.pending,step) :: entries)) rfl (.cons admitted carried) ?_
          (by simpa using rows) disk
        simpa using open_
      | @inside rest next v v' entries bytes' split carried open_ admitted' after made rows stage =>
        subst split
        refine (@Left.inside _ _ _ _ _ _ _ _ _ _ _ _ _ ((.pending,step) :: entries)) rfl (.cons admitted carried) ?_
          admitted' (.cons admitted after) made (by simpa using rows) stage
        simpa using open_

end Shape

section Crash

variable [Runtime] {r : RecoveryService} {jobId : Text} {steps : List Step} {w w' u : World}

theorem visits_execute {x : TransactionExecutor} (carried : Carried x jobId 0 0 steps w w')
    (visit : Visits SysOp.step (x.execute jobId (steps.map Step.operation)) w u) :
    Crashed jobId 0 steps w u ∨ u = {w' with db := w'.db.setJournalState jobId .applied} := by
  have loop := run_steps carried
  unfold TransactionExecutor.execute at visit
  rw [visits_bind,loop] at visit
  rcases visit with inside | ⟨value,same,after⟩
  · exact .inl (visits_steps carried inside)
  · obtain rfl := Except.ok.inj same
    dsimp only at after
    rw [visits_bind] at after
    rcases after with marking | ⟨_,_,ended⟩
    · rcases (visits_perform _ _ _ _).mp marking with rfl | marked
      · refine .inl (visits_steps carried ?_)
        have reached := visits_end SysOp.step
          (x.steps jobId 0 0 (steps.map Step.operation)) w
        rwa [loop] at reached
      · exact .inr marked
    · exact .inr ((visits_pure _ _ _ _).mp ended)

/-- The crashed world, seen by the process that recovers: the record may have been marked
in between. -/
structure Restarted (jobId : Text) (u v : World) : Prop where
  disk : v.disk = u.disk
  journal : v.db.journal = u.db.journal
  auditable : Auditable jobId v
  unfinished : ∃ record, v.db.get jobId = some record ∧ flagged record.status = true

/-- The recovery reports success and the Vault is back as it was. -/
def Recovers (r : RecoveryService) (jobId : Text) (d : Disk) (v : World) : Prop :=
  ∃ result, (run SysOp.step (r.rollbackIfSafe jobId) v).1 = .ok result ∧
    result.status = .rolledBack ∧ (run SysOp.step (r.rollbackIfSafe jobId) v).2.disk = d

/-- Both names of a file that a step moves. -/
def HalfMoved (steps : List Step) (d : Disk) : Prop :=
  ∃ source target data, Step.move source target data ∈ steps ∧
    d.tree.get (relativeParts source) ≠ none ∧ d.tree.get (relativeParts target) ≠ none

theorem restarted_attempt {entries : List (RowState × Step)} {v : World}
    (restarted : Restarted jobId u v) (rows : Numbered jobId entries u)
    (open_ : ∀ entry ∈ entries, entry.1 ≠ .rolledBack) :
    ∃ record result v', run SysOp.step (r.rollbackIfSafe jobId) v = (.ok result,v') ∧
      Attempt r.vault jobId record (number 0 entries) v result.status v' := by
  obtain ⟨record,stored,unfinished⟩ := restarted.unfinished
  have pending : (v.db.journal jobId).rows.filter uncertain =
      (number 0 entries).map (Logged.row jobId) := by
    rw [restarted.journal,rows]
    refine List.filter_eq_self.mpr fun entry found => ?_
    obtain ⟨logged,member,rfl⟩ := List.mem_map.mp found
    have state := open_ _ (mem_number member)
    have executable := logged.executable_row jobId
    cases recorded : logged.state <;>
      simp_all [uncertain,Logged.row,Step.row]
  obtain ⟨result,v',ran,attempt⟩ := rollback_attempt (r := r) restarted.auditable stored
    unfinished pending
  exact ⟨record,result,v',ran,attempt⟩

omit [Runtime] in
theorem attempt_success {v : VaultService} {record : HistoryRecord} {log : List Logged}
    {status : JobStatus} (attempt : Attempt v jobId record log w status w')
    (separate : Separate log) (success : status = .rolledBack) :
    w'.disk.temps = w.disk.temps ∧
      ∀ logged ∈ log, logged.step.Applied v w.disk → logged.step.Undoable v w.disk := by
  cases attempt with
  | nothing empty => simp [empty]
  | conflict changed => cases success
  | failed clean reversal => cases success
  | @restored seq w' some clean reversal =>
    have reversed : Separate (appliedOf v w.disk log).reverse :=
      separate_reverse (separate.filter _)
    refine ⟨(reversal.reversed reversed rfl).within.temps,fun logged found applied => ?_⟩
    exact (reversal.stop_iff reversed).mp rfl logged
      (List.mem_reverse.mpr (mem_appliedOf.mpr ⟨found,applied⟩))

omit [Runtime] in
theorem attempt_restores {v : VaultService} {record : HistoryRecord} {log : List Logged}
    {status : JobStatus} (origin : Disk) (attempt : Attempt v jobId record log w status w')
    (separate : Separate log) (clean : ∀ logged ∈ log, logged.step.finding v w.disk ≠ .changed)
    (undoable : ∀ logged ∈ log, logged.step.Applied v w.disk →
      logged.step.Undoable v w.disk ∧ logged.step.Intact w.disk)
    (captured : ∀ logged ∈ log, logged.image.Holds origin.tree.get)
    (elsewhere : ∀ p, (∀ logged ∈ log, logged.step.Applied v w.disk → p ∉ logged.step.keys) →
      w.disk.tree.get p = origin.tree.get p) (temps : w.disk.temps = origin.temps) :
    status = .rolledBack ∧ w'.disk = origin := by
  cases attempt with
  | nothing empty =>
    exact ⟨rfl,Within.eq_of_tree (fun p => elsewhere p (by simp [empty])) temps⟩
  | conflict changed =>
    obtain ⟨logged,found⟩ := List.exists_mem_of_ne_nil _ changed
    simp only [changedOf,List.mem_filter,decide_eq_true_eq] at found
    exact absurd found.2 (clean logged found.1)
  | @failed seq stop w' clean reversal =>
    have reversed : Separate (appliedOf v w.disk log).reverse :=
      separate_reverse (separate.filter _)
    refine absurd ((reversal.stop_iff reversed).mpr fun logged found => ?_) (by simp)
    obtain ⟨member,applied⟩ := mem_appliedOf.mp (List.mem_reverse.mp found)
    exact (undoable logged member applied).1
  | @restored seq w' some clean reversal =>
    have apart : Separate (appliedOf v w.disk log).reverse :=
      separate_reverse (separate.filter _)
    have reversed := reversal.reversed apart rfl
    have replays := reversed.replays fun logged found => by
      obtain ⟨member,applied⟩ := mem_appliedOf.mp (List.mem_reverse.mp found)
      exact (undoable logged member applied).2
    refine ⟨rfl,Within.eq_of_tree (fun p => ?_) (reversed.within.temps.trans temps)⟩
    refine congrFun (replays.eq_origin (fun image found => ?_) fun p free => ?_) p
    · obtain ⟨logged,member,rfl⟩ := List.mem_map.mp found
      exact captured logged (mem_appliedOf.mp (List.mem_reverse.mp member)).1
    · refine elsewhere p fun logged found applied => ?_
      exact free logged.image (List.mem_map_of_mem
        (List.mem_reverse.mpr (mem_appliedOf.mpr ⟨found,applied⟩)))

/-- The crash left whole steps only: some were made and recorded, and what else is recorded
was not begun. -/
structure Halted (x : TransactionExecutor) (jobId : Text) (steps : List Step) (w u : World)
    (entries : List (RowState × Step)) (unbegun : List Step) : Prop where
  made : ∃ v, Carried x jobId 0 0 (entries.map Prod.snd) w v ∧ u.disk = v.disk
  rows : Numbered jobId (entries ++ unbegun.map fun step => (.pending,step)) u
  open_ : ∀ entry ∈ entries, entry.1 ≠ .rolledBack
  ready : ∀ step ∈ unbegun, step.Ready x.vault u.disk
  first : entries.map Prod.snd ++ unbegun <+: steps

theorem finding_ready {v : VaultService} {d : Disk} {step : Step} (ready : step.Ready v d)
    (captured : step.image.Holds d.tree.get) : step.finding v d ≠ .changed := by
  have vacant : ∀ path, step.path = path → PublicPath path →
      d.tree.VacantAt (relativeParts path) → step.finding v d ≠ .changed := by
    intro path here valid free
    have absent : eval ReadOp.answer (currentHash v path) d = .ok none := by
      rw [currentHash,eval_andThen,eval_readBytes_vacant valid free]
      rfl
    rw [Step.finding,here,absent]
    simp
  cases step with
  | create path data => exact vacant path rfl ready.1 ready.2.2
  | move source target data =>
    obtain ⟨content,_,valid,_,free⟩ := ready
    exact vacant target rfl valid free
  | update path before after =>
    obtain ⟨valid,_,old,known⟩ := ready
    have same : d.tree.get (relativeParts path) = some (.file before) :=
      captured _ (by simp [Step.image])
    obtain rfl : old = before := by simpa [known.1.2] using same
    have held : eval ReadOp.answer (currentHash v path) d = .ok (some (sha256Bytes old)) :=
      Step.eval_currentHash_iff.mpr ⟨valid,old,known.1,known.2.1,rfl⟩
    rw [Step.finding,show (Step.update path old after).path = path from rfl,held]
    dsimp only
    split
    · simp
    · simp [Step.operation]

theorem undoable_ready {v : VaultService} {d : Disk} {step : Step} (ready : step.Ready v d)
    (captured : step.image.Holds d.tree.get) (applied : step.Applied v d) :
    step.Undoable v d ∧ step.Intact d := by
  obtain ⟨content,file⟩ := applied.file
  cases step with
  | create path data =>
    have free : d.tree.get (relativeParts path) = none := ready.2.2.2
    have here : d.tree.get (relativeParts path) = some (.file content) := file.2
    simp [free] at here
  | move source target data =>
    obtain ⟨_,_,_,_,vacant⟩ := ready
    have here : d.tree.get (relativeParts target) = some (.file content) := file.2
    simp [vacant.2] at here
  | update path before after =>
    obtain ⟨_,_,old,known⟩ := ready
    have same : d.tree.get (relativeParts path) = some (.file before) :=
      captured _ (by simp [Step.image])
    obtain rfl : old = before := by simpa [known.1.2] using same
    exact ⟨⟨applied,known.2.1⟩,trivial⟩

theorem captured_of_made {x : TransactionExecutor} (accepted : Accepted x jobId steps w)
    {made : List Step} {step : Step} {d : Disk} (within : Within (made.flatMap Step.keys) w.disk d)
    (apart : ∀ other ∈ made, other.Apart step) (found : step ∈ steps) :
    step.image.Holds d.tree.get := by
  intro p key
  have free : p ∉ made.flatMap Step.keys := by
    intro member
    obtain ⟨other,among,also⟩ := List.mem_flatMap.mp member
    exact apart other among p also key
  rw [within.elsewhere p free]
  exact accepted.captured step found p key

theorem made_of_carried {x : TransactionExecutor} {made rest : List Step} {v : World}
    {seq bytes : Nat} (accepted : Accepted x jobId steps w) (first : made ++ rest <+: steps)
    (carried : Carried x jobId seq bytes made w v) : Made x.vault made w.disk v.disk := by
  have sublist : made.Sublist steps :=
    ((List.prefix_append made rest).trans first).sublist
  exact carried.made (accepted.apart.sublist sublist)
    fun step found => accepted.captured step (sublist.subset found)

theorem halted_recovers {entries : List (RowState × Step)} {unbegun : List Step} {v : World}
    (accepted : Accepted r.executor jobId steps w)
    (halted : Halted r.executor jobId steps w u entries unbegun)
    (restarted : Restarted jobId u v) : Recovers r jobId w.disk v := by
  obtain ⟨origin,carried,disk⟩ := halted.made
  have made := made_of_carried accepted halted.first carried
  rw [← disk] at made
  have apart : Apart (entries.map Prod.snd ++ unbegun) :=
    accepted.apart.sublist halted.first.sublist
  have among : ∀ step ∈ unbegun, step ∈ steps := fun step found =>
    halted.first.sublist.subset (List.mem_append_right _ found)
  have still : ∀ step ∈ unbegun, step.image.Holds u.disk.tree.get := fun step found =>
    captured_of_made accepted made.within (fun other member =>
      (List.pairwise_append.mp apart).2.2 other member step found) (among step found)
  have open_ : ∀ entry ∈ entries ++ unbegun.map fun step => (RowState.pending,step),
      entry.1 ≠ .rolledBack := by
    intro entry found
    rcases List.mem_append.mp found with old | new
    · exact halted.open_ entry old
    · obtain ⟨step,-,rfl⟩ := List.mem_map.mp new
      simp
  obtain ⟨record,result,v',ran,attempt⟩ := restarted_attempt (r := r) restarted halted.rows open_
  have separate : Separate (number 0 (entries ++ unbegun.map fun step => (.pending,step))) := by
    refine separate_number ?_
    have names : (entries ++ unbegun.map fun step => (RowState.pending,step)).map Prod.snd =
        entries.map Prod.snd ++ unbegun := by
      simp [Function.comp_def]
    rw [names]
    exact apart
  have cases_ : ∀ logged ∈ number 0 (entries ++ unbegun.map fun step => (RowState.pending,step)),
      logged.step ∈ entries.map Prod.snd ∨ logged.step ∈ unbegun := by
    intro logged found
    rcases List.mem_append.mp (mem_number found) with old | new
    · exact .inl (List.mem_map_of_mem (f := Prod.snd) old)
    · obtain ⟨step,member,same⟩ := List.mem_map.mp new
      have named : step = logged.step := congrArg Prod.snd same
      exact .inr (named ▸ member)
  have ended := attempt_restores w.disk attempt separate ?_ ?_ ?_ ?_ ?_
  · refine ⟨result,by rw [ran],ended.1,?_⟩
    rw [ran]
    exact ended.2
  · intro logged found
    rw [restarted.disk]
    rcases cases_ logged found with old | new
    · have applied : logged.step.Applied r.vault u.disk := (made.undoable _ old).1.1
      rw [Step.finding_applied_iff.mpr applied]
      simp
    · exact finding_ready (halted.ready _ new) (still _ new)
  · intro logged found applied
    rw [restarted.disk] at applied ⊢
    rcases cases_ logged found with old | new
    · exact made.undoable _ old
    · exact undoable_ready (halted.ready _ new) (still _ new) applied
  · intro logged found
    rcases cases_ logged found with old | new
    · exact accepted.captured _ (halted.first.sublist.subset (List.mem_append_left _ old))
    · exact accepted.captured _ (among _ new)
  · intro p free
    rw [restarted.disk]
    refine made.within.elsewhere p fun member => ?_
    obtain ⟨step,old,key⟩ := List.mem_flatMap.mp member
    obtain ⟨entry,there,rfl⟩ := List.mem_map.mp old
    obtain ⟨logged,found,-,same⟩ := exists_number 0 (List.mem_append_left
      (unbegun.map fun step => (RowState.pending,step)) there)
    refine free logged found ?_ (same ▸ key)
    rw [restarted.disk,same]
    exact (made.undoable _ old).1.1
  · rw [restarted.disk]
    exact made.within.temps

theorem ready_of_carried {x : TransactionExecutor} {seq bytes : Nat}
    (carried : Carried x jobId seq bytes steps w w') :
    ∀ step ∈ steps, ∃ d, step.Ready x.vault d := by
  induction carried with
  | nil => simp
  | @cons seq bytes step rest w w' admitted later ih =>
    intro other found
    rcases List.mem_cons.mp found with rfl | found
    · exact ⟨w.disk,admitted.2⟩
    · exact ih other found

theorem Halted.clean {x : TransactionExecutor} {entries : List (RowState × Step)}
    {unbegun : List Step} (accepted : Accepted x jobId steps w)
    (halted : Halted x jobId steps w u entries unbegun) :
    u.disk.temps = w.disk.temps ∧ ¬ HalfMoved steps u.disk := by
  obtain ⟨origin,carried,disk⟩ := halted.made
  have made := made_of_carried accepted halted.first carried
  rw [← disk] at made
  refine ⟨made.within.temps,fun half => ?_⟩
  obtain ⟨source,target,data,found,old,new⟩ := half
  obtain ⟨rest,whole⟩ := halted.first
  have apart : Apart (entries.map Prod.snd ++ (unbegun ++ rest)) := by
    rw [← List.append_assoc,whole]
    exact accepted.apart
  rw [← whole,List.append_assoc] at found
  rcases List.mem_append.mp found with early | late
  · exact old (made.undoable _ early).1.2.2.2
  · have member : Step.move source target data ∈ steps := by
      rw [← whole,List.append_assoc]
      exact List.mem_append_right _ late
    obtain ⟨_,everything⟩ := accepted.carried
    obtain ⟨d,content,_,_,known,vacant⟩ := ready_of_carried everything _ member
    have differs : relativeParts target ≠ relativeParts source := by
      intro same
      have there : d.tree.get (relativeParts source) = some (.file content) := known.1.2
      rw [← same,vacant.2] at there
      cases there
    have holds := captured_of_made accepted made.within (fun other before =>
      (List.pairwise_append.mp apart).2.2 other before _ late) member
    have absent := holds (relativeParts target) (by simp [Step.image])
    simp only [Step.image,if_neg differs] at absent
    exact new absent

/-- A recovery that brings the Vault back finds the temporary files there were, and can
reverse every row that is applied. -/
theorem recovers_needs {entries : List (RowState × Step)} {v : World}
    (restarted : Restarted jobId u v) (rows : Numbered jobId entries u)
    (open_ : ∀ entry ∈ entries, entry.1 ≠ .rolledBack) (apart : Apart (entries.map Prod.snd))
    (recovers : Recovers r jobId w.disk v) :
    u.disk.temps = w.disk.temps ∧
      ∀ entry ∈ entries, entry.2.Applied r.vault u.disk → entry.2.Undoable r.vault u.disk := by
  obtain ⟨record,result,v',ran,attempt⟩ := restarted_attempt (r := r) restarted rows open_
  obtain ⟨result',ok,success,disk⟩ := recovers
  rw [ran] at ok disk
  obtain rfl := Except.ok.inj ok
  obtain ⟨temps,undoable⟩ := attempt_success attempt (separate_number apart) success
  rw [restarted.disk] at temps undoable
  have back : v'.disk = w.disk := disk
  refine ⟨by rw [← temps,back],fun entry found applied => ?_⟩
  obtain ⟨logged,member,-,same⟩ := exists_number 0 found
  rw [← same] at applied ⊢
  exact undoable logged member applied

theorem numbered_carried {x : TransactionExecutor} {seq bytes : Nat}
    {earlier : List (RowState × Step)} (carried : Carried x jobId seq bytes steps w w')
    (numbered : Numbered jobId earlier w) (next : earlier.length = seq) :
    Numbered jobId (earlier ++ steps.map fun step => (.pending,step)) w' := by
  induction carried generalizing earlier with
  | nil => simpa using numbered
  | @cons seq bytes step rest w w' admitted later ih =>
    have recorded := (@Numbered.recorded _ _ _ [] step) (by simpa using numbered) next
    have ran : Numbered jobId (earlier ++ [(.pending,step)]) (step.ran jobId seq w) := recorded
    have rest := ih ran (by simp [next])
    simpa using rest

theorem halted_executed {x : TransactionExecutor} (accepted : Accepted x jobId steps w)
    (carried : Carried x jobId 0 0 steps w w') :
    Halted x jobId steps w {w' with db := w'.db.setJournalState jobId .applied}
      (steps.map fun step => (.applied,step)) [] := by
  have start : Numbered jobId [] w := by simp [Numbered,accepted.fresh,number]
  have rows := (numbered_carried carried start rfl).setState .applied
  have names : (steps.map fun step => (RowState.applied,step)).map Prod.snd = steps := by
    simp [Function.comp_def]
  refine ⟨⟨w',names.symm ▸ carried,rfl⟩,?_,fun entry found => ?_,by simp,?_⟩
  · simpa [Function.comp_def] using rows
  · obtain ⟨step,-,rfl⟩ := List.mem_map.mp found
    simp
  · rw [names,List.append_nil]

end Crash

section Runs

open scoped AsciiRuntime

theorem accepted_single {x : TransactionExecutor} {jobId : Text} {step : Step} {w : World}
    (recordable : step.Recordable x jobId 0 w.db) (captured : step.image.Holds w.disk.tree.get)
    (applies : (run FsOp.step (x.apply step.operation) w.disk).1.toOption.isSome = true)
    (fresh : (w.db.journal jobId).rows = []) : Accepted x jobId [step] w := by
  have ready : step.Ready x.vault w.disk := by
    by_contra unready
    obtain ⟨reason,refused⟩ := Step.apply_refused (x := x) unready
    rw [refused] at applies
    cases applies
  refine ⟨⟨_,.cons ⟨recordable,ready⟩ (.nil _ _ _)⟩,List.pairwise_singleton _ _,?_,fresh⟩
  intro other found
  obtain rfl := List.mem_singleton.mp found
  exact captured

def notesRecovery : RecoveryService := ⟨⟨100,hundred_pos⟩,1000⟩

def openJob (d : Disk) : World where
  disk := d
  db := Db.empty.save {jobId := "j".toList,status := .executing}

theorem openJob_restarted (d : Disk) : Restarted "j".toList (openJob d) (openJob d) :=
  ⟨rfl,rfl,⟨⟨by decide,by decide⟩,rfl⟩,⟨_,rfl,rfl⟩⟩

def newNote : Step := .create "a.md".toList "note".toUTF8

def movedNote : Step := .move "a.md".toList "b.md".toList "note".toUTF8

def oneFile : Disk := Disk.bare.setTree ["a.md".toList] (some (.file "note".toUTF8))

def linkedTwice : World :=
  crash SysOp.step 46 (notesRecovery.executor.execute "j".toList [movedNote.operation])
    (openJob oneFile)

end Runs

end LocalBook.Recovery
