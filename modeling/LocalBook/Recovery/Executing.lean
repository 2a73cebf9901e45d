import LocalBook.Recovery.Reversal

/-! Runs of the executor: each step is recorded and then carried out, and a crash falls
before a step, inside it, or after the last one. -/
namespace LocalBook.Recovery

open Effect Vault UndoLog

namespace Step

/-- The disk after it has been carried out. -/
def done (d : Disk) : Step → Disk
  | create path data => d.setTree (relativeParts path) (some (.file data))
  | update path _ after => d.setTree (relativeParts path) (some (.file after))
  | move source target _ => moved d (relativeParts source) (relativeParts target)

def Stage (d e : Disk) : Step → Prop
  | create path data => Staged d (done d (create path data)) e
  | update path before after => Staged d (done d (update path before after)) e
  | move source target _ => e = d ∨ e = bothNames d (relativeParts source) (relativeParts target) ∨
      e = moved d (relativeParts source) (relativeParts target)

section Apply

variable [Host] {x : TransactionExecutor} {d e : Disk} {step : Step}

def Ready (v : VaultService) (d : Disk) : Step → Prop
  | create path data => CreateReady v d path data
  | update path before after => WriteReady v d path after (some (sha256Bytes before))
  | move source target data =>
    ∃ content, MoveReady v d source (some (sha256Bytes data)) target content

theorem apply_ready (ready : step.Ready x.vault d) :
    ∃ receipt, TransactionExecutor.afterHash step.operation receipt = .ok step.digest ∧
      run FsOp.step (x.apply step.operation) d = (.ok receipt,step.done d) := by
  cases step with
  | create path data =>
    cases createBytes_outcome x.vault d path data with
    | refused unready reason ended => exact absurd ready unready
    | done ready ended =>
      refine ⟨_,?_,ended⟩
      simp [TransactionExecutor.afterHash,orElse,falsy,sha256Bytes_ne_nil,digest,left]
  | update path before after =>
    cases writeBytes_outcome x.vault d path after (some (sha256Bytes before)) with
    | refused unready reason ended => exact absurd ready unready
    | done ready ended =>
      refine ⟨_,?_,ended⟩
      simp [TransactionExecutor.afterHash,orElse,falsy,sha256Bytes_ne_nil,digest,left]
  | move source target data =>
    obtain ⟨content,ready⟩ := ready
    have named : falsy (some source) = false := by simp [falsy,ready.1.1.nonempty]
    refine ⟨⟨target,some (sha256Bytes content),some content.size,.moved⟩,?_,?_⟩
    · have same := expects_iff.mp ready.2.2.1.2.2
      simp [TransactionExecutor.afterHash,orElse,falsy,sha256Bytes_ne_nil,digest,left,same]
    · simp only [TransactionExecutor.apply,operation,named,Bool.false_eq_true,if_false]
      exact run_moveFile x.vault d source (some (sha256Bytes data)) ready

theorem apply_refused (unready : ¬ step.Ready x.vault d) :
    ∃ reason, run FsOp.step (x.apply step.operation) d = (.error reason,d) := by
  cases step with
  | create path data =>
    cases createBytes_outcome x.vault d path data with
    | refused _ reason ended => exact ⟨reason,ended⟩
    | done ready ended => exact absurd ready unready
  | update path before after =>
    cases writeBytes_outcome x.vault d path after (some (sha256Bytes before)) with
    | refused _ reason ended => exact ⟨reason,ended⟩
    | done ready ended => exact absurd ready unready
  | move source target data =>
    by_cases named : falsy (some source)
    · exact ⟨_,by
        simp only [TransactionExecutor.apply,operation,named,if_true]
        rfl⟩
    · obtain ⟨content,ready,_⟩ | ⟨_,refused⟩ :=
        moveFile_outcome x.vault d source (some (sha256Bytes data)) target
      · exact absurd ⟨content,ready⟩ unready
      · simp only [TransactionExecutor.apply,operation,named,Bool.false_eq_true,if_false]
        exact refused

theorem done_within {v : VaultService} (ready : step.Ready v d) :
    Within step.keys d (step.done d) := by
  cases step with
  | create path data => exact .setTree (by simp [ready.2.2.2]) (by simp)
  | update path before after =>
    obtain ⟨_,_,old,known⟩ := ready
    exact .setTree (by simp [known.1.2]) (by simp)
  | move source target data =>
    obtain ⟨content,_,_,known,vacant⟩ := ready
    exact Within.moved known.1 vacant

/-- A step that was carried out on the content it names can be reversed. -/
theorem done_undoable {v : VaultService} (ready : step.Ready v d)
    (captured : step.image.Holds d.tree.get) :
    step.Undoable v (step.done d) ∧ step.Intact (step.done d) := by
  cases step with
  | create path data =>
    obtain ⟨valid,small,vacant⟩ := ready
    exact ⟨⟨⟨valid,data,file_of_vacant vacant,small,rfl⟩,trivial⟩,trivial⟩
  | update path before after =>
    obtain ⟨valid,small,old,known⟩ := ready
    have same : d.tree.get (relativeParts path) = some (.file before) :=
      captured _ (by simp [image])
    obtain rfl : old = before := by simpa [known.1.2] using same
    exact ⟨⟨⟨valid,after,file_of_file known.1,small,rfl⟩,known.2.1⟩,trivial⟩
  | move source target data =>
    obtain ⟨content,valid,free,known,vacant⟩ := ready
    have same : d.tree.get (relativeParts source) = some (.file data) := by
      simpa [image] using captured (relativeParts source) (by simp [image])
    obtain rfl : content = data := by simpa [known.1.2] using same
    have there := moved_target known.1 vacant
    have within := Within.moved known.1 vacant
    refine ⟨⟨⟨free,content,there,known.2.1,rfl⟩,valid,?_⟩,there⟩
    exact ⟨(within.dirs _).mpr known.1.1,by simp [done,moved]⟩

theorem visits_apply (visit : Visits FsOp.step (x.apply step.operation) d e) :
    step.Stage d e := by
  cases step with
  | create path data =>
    exact (@Settles.visits _ .eio) (settles_createBytes x.vault path) visit
  | update path before after =>
    exact (@Settles.visits _ .eio)
      (settles_writeBytes x.vault path (some (sha256Bytes before))) visit
  | move source target data =>
    by_cases named : falsy (some source)
    · simp only [TransactionExecutor.apply,operation,named,if_true] at visit
      exact .inl ((visits_done _ _ _ _).mp visit)
    · simp only [TransactionExecutor.apply,operation,named,Bool.false_eq_true,if_false] at visit
      exact (@Settles.visits _ .eio)
        (settles_moveFile x.vault source (some (sha256Bytes data)) target) visit

end Apply

end Step

namespace Step

variable {x : TransactionExecutor} {jobId : Text} {seq bytes : Nat} {step : Step} {w u : World}

def weight (step : Step) : Nat :=
  (step.operation.beforeBytes.map fun data => base64Length data.size).getD 0

structure Recordable (x : TransactionExecutor) (jobId : Text) (bytes : Nat) (db : Db)
    (step : Step) : Prop where
  named : jobId ≠ [] ∧ jobId.length ≤ 128
  short : step.path.length ≤ 4096
  light : step.weight ≤ maxJournalBytesBase64
  within : bytes + step.weight ≤ x.maxJournalBytes
  known : (db.jobs jobId).isSome

def recorded (jobId : Text) (seq : Nat) (step : Step) (w : World) : World :=
  {w with db := w.db.putRow (step.row jobId seq .pending)}

def Bounded (jobId : Text) (step : Step) : Prop :=
  (jobId ≠ [] ∧ jobId.length ≤ 128) ∧ step.path.length ≤ 4096 ∧
    step.weight ≤ maxJournalBytesBase64

/-- The row passes its validators exactly within their bounds. -/
theorem validate_row (state : RowState) :
    (step.Bounded jobId ∧ (step.row jobId seq state).modelValidate =
        .ok (step.row jobId seq state)) ∨
      (¬ step.Bounded jobId ∧ ∃ reason, (step.row jobId seq state).modelValidate =
        .error reason) := by
  unfold JournalEntry.modelValidate
  split
  · next unnamed =>
    refine .inr ⟨fun bounds => ?_,_,rfl⟩
    rcases unnamed with empty | long
    · exact bounds.1.1 (List.length_eq_zero_iff.mp empty)
    · exact absurd bounds.1.2 (Nat.not_le.mpr long)
  · next named =>
    split
    · next long => exact .inr ⟨fun bounds => absurd bounds.2.1 (Nat.not_le.mpr long),_,rfl⟩
    · next short =>
      split
      · next heavy => exact .inr ⟨fun bounds => absurd bounds.2.2 (Nat.not_le.mpr heavy),_,rfl⟩
      · next light =>
        rw [not_or] at named
        exact .inl ⟨⟨⟨fun empty => named.1 (List.length_eq_zero_iff.mpr empty),
          Nat.not_lt.mp named.2⟩,Nat.not_lt.mp short,Nat.not_lt.mp light⟩,rfl⟩

theorem Recordable.bounded (recordable : step.Recordable x jobId bytes w.db) :
    step.Bounded jobId := ⟨recordable.named,recordable.short,recordable.light⟩

theorem run_record (recordable : step.Recordable x jobId bytes w.db) :
    run SysOp.step (x.record jobId seq bytes step.operation) w =
      (.ok (bytes + step.weight),step.recorded jobId seq w) := by
  have known : (w.db.jobs (step.row jobId seq .pending).jobId).isSome := recordable.known
  have light : ¬ bytes + (step.row jobId seq .pending).journalLength > x.maxJournalBytes :=
    Nat.not_lt.mpr recordable.within
  have put : run SysOp.step (History.addJournal (step.row jobId seq .pending)) w =
      (.ok (),step.recorded jobId seq w) := by
    rw [History.run_addJournal,Db.addJournal,if_pos known]
    rfl
  obtain ⟨_,valid⟩ | ⟨unbounded,_⟩ := @validate_row jobId seq step .pending
  rotate_left
  · exact absurd recordable.bounded unbounded
  unfold TransactionExecutor.record
  rw [run_bind_ok SysOp.step (by
      rw [run_ofExcept,makeEntry_operation,valid]),
    run_bind_ok SysOp.step (by rw [run_raiseIf,if_neg light]),run_bind_ok SysOp.step put]
  rfl

theorem run_record_refused (refused : ¬ step.Recordable x jobId bytes w.db) :
    ∃ reason, run SysOp.step (x.record jobId seq bytes step.operation) w = (.error reason,w) := by
  unfold TransactionExecutor.record
  obtain ⟨bounded,valid⟩ | ⟨_,reason,invalid⟩ := @validate_row jobId seq step .pending
  · rw [run_bind_ok SysOp.step (by rw [run_ofExcept,makeEntry_operation,valid])]
    by_cases heavy : bytes + (step.row jobId seq .pending).journalLength > x.maxJournalBytes
    · exact ⟨_,run_bind_error SysOp.step (by rw [run_raiseIf,if_pos heavy])⟩
    · rw [run_bind_ok SysOp.step (by rw [run_raiseIf,if_neg heavy])]
      have unknown : ¬ (w.db.jobs (step.row jobId seq .pending).jobId).isSome := fun known =>
        refused ⟨bounded.1,bounded.2.1,bounded.2.2,Nat.not_lt.mp heavy,known⟩
      exact ⟨_,run_bind_error SysOp.step (by
        rw [History.run_addJournal,Db.addJournal,if_neg unknown])⟩
  · exact ⟨reason,run_bind_error SysOp.step (by rw [run_ofExcept,makeEntry_operation,invalid])⟩

theorem visits_addJournal {entry : JournalEntry}
    (visit : Visits SysOp.step (History.addJournal entry) w u) :
    u = w ∨ u = {w with db := (w.db.addJournal entry).2} := by
  rcases (visits_call SysOp.step (.db (.addJournal entry)) _ w u).mp visit with early | late
  · exact .inl early
  · exact .inr ((visits_done _ _ _ _).mp late)

theorem visits_record (visit : Visits SysOp.step (x.record jobId seq bytes step.operation) w u) :
    u = w ∨ u = step.recorded jobId seq w := by
  unfold TransactionExecutor.record at visit
  rw [visits_bind,visits_ofExcept] at visit
  rcases visit with early | ⟨entry,made,visit⟩
  · exact .inl early
  rw [visits_bind,visits_raiseIf] at visit
  rcases visit with early | ⟨_,_,visit⟩
  · exact .inl early
  rw [run_raiseIf,visits_bind] at visit
  have put : u = w ∨ u = {w with db := (w.db.addJournal entry).2} := by
    rcases visit with inside | ⟨_,_,after⟩
    · exact visits_addJournal inside
    · rw [visits_pure,History.run_addJournal] at after
      exact .inr after
  rw [run_ofExcept,makeEntry_operation] at made
  obtain ⟨_,valid⟩ | ⟨_,reason,invalid⟩ := @validate_row jobId seq step .pending
  · obtain rfl := Except.ok.inj (valid.symm.trans made)
    rcases put with early | rfl
    · exact .inl early
    · unfold Db.addJournal
      split
      · exact .inr rfl
      · exact .inl rfl
  · rw [invalid] at made
    exact absurd made nofun

/-- The world once it has been carried out. -/
def ran (jobId : Text) (seq : Nat) (step : Step) (w : World) : World :=
  {step.recorded jobId seq w with disk := step.done w.disk}

variable [Host]

def Admitted (x : TransactionExecutor) (jobId : Text) (bytes : Nat) (w : World) (step : Step) :
    Prop :=
  step.Recordable x jobId bytes w.db ∧ step.Ready x.vault w.disk

omit [Host] in
def executed (step : Step) : Executed := ⟨step.operation,step.digest⟩

theorem run_step (admitted : step.Admitted x jobId bytes w) :
    run SysOp.step (x.step jobId seq bytes step.operation) w =
      (.ok (bytes + step.weight,step.executed),step.ran jobId seq w) := by
  obtain ⟨recordable,ready⟩ := admitted
  obtain ⟨receipt,hash,applied⟩ := step.apply_ready ready
  unfold TransactionExecutor.step
  rw [run_bind_ok SysOp.step (run_record recordable),
    run_bind_ok SysOp.step ((run_liftFs _ (step.recorded jobId seq w)).trans
      (by rw [show (step.recorded jobId seq w).disk = w.disk from rfl,applied])),
    run_bind_ok SysOp.step (by rw [run_ofExcept,hash])]
  rfl

theorem run_step_refused (refused : ¬ step.Admitted x jobId bytes w) :
    ∃ reason u, run SysOp.step (x.step jobId seq bytes step.operation) w = (.error reason,u) ∧
      (u = w ∨ u = step.recorded jobId seq w) := by
  unfold TransactionExecutor.step
  by_cases recordable : step.Recordable x jobId bytes w.db
  · have unready : ¬ step.Ready x.vault w.disk := fun ready => refused ⟨recordable,ready⟩
    obtain ⟨reason,ended⟩ := step.apply_refused unready
    rw [run_bind_ok SysOp.step (run_record recordable)]
    refine ⟨reason,step.recorded jobId seq w,run_bind_error SysOp.step ?_,.inr rfl⟩
    rw [run_liftFs,show (step.recorded jobId seq w).disk = w.disk from rfl,ended]
    rfl
  · obtain ⟨reason,ended⟩ := run_record_refused recordable
    exact ⟨reason,w,run_bind_error SysOp.step ended,.inl rfl⟩

omit [Host] in
theorem stage_start (d : Disk) (step : Step) : step.Stage d d := by
  cases step <;> exact .inl rfl

theorem visits_step (visit : Visits SysOp.step (x.step jobId seq bytes step.operation) w u) :
    u = w ∨ ∃ e, step.Stage w.disk e ∧ u = {step.recorded jobId seq w with disk := e} := by
  unfold TransactionExecutor.step at visit
  rw [visits_bind] at visit
  rcases visit with recording | ⟨_,recorded,visit⟩
  · rcases visits_record recording with rfl | rfl
    · exact .inl rfl
    · exact .inr ⟨w.disk,stage_start w.disk step,rfl⟩
  have recordable : step.Recordable x jobId bytes w.db := by
    by_contra refused
    obtain ⟨reason,ended⟩ := (@run_record_refused _ _ seq) refused
    simp [ended] at recorded
  rw [run_record recordable] at visit
  have writing : Visits SysOp.step (liftM (x.apply step.operation) : Sys Receipt)
      (step.recorded jobId seq w) u := by
    rw [visits_bind] at visit
    rcases visit with inside | ⟨_,_,after⟩
    · exact inside
    · rw [visits_bind,visits_ofExcept] at after
      rcases after with rfl | ⟨_,_,ended⟩
      · exact visits_end _ _ _
      · obtain rfl := (visits_pure _ _ _ _).mp ended
        exact visits_end _ _ _
  obtain ⟨e,inside,rfl⟩ := (visits_liftFs _ _ _).mp writing
  exact .inr ⟨e,visits_apply inside,rfl⟩

end Step

section Run

variable [Host] {x : TransactionExecutor} {jobId : Text} {seq bytes : Nat} {steps : List Step}
variable {w w' u : World}

inductive Carried (x : TransactionExecutor) (jobId : Text) :
    Nat → Nat → List Step → World → World → Prop where
  | nil (seq bytes : Nat) (w : World) : Carried x jobId seq bytes [] w w
  | cons {seq bytes : Nat} {step : Step} {rest : List Step} {w w' : World}
    (admitted : step.Admitted x jobId bytes w)
    (later : Carried x jobId (seq + 1) (bytes + step.weight) rest (step.ran jobId seq w) w') :
    Carried x jobId seq bytes (step :: rest) w w'

/-- A crash inside the loop falls before a step, inside it, or after it. -/
inductive Crashed (jobId : Text) : Nat → List Step → World → World → Prop where
  | here (seq : Nat) (steps : List Step) (w : World) : Crashed jobId seq steps w w
  | inside {seq : Nat} {step : Step} {rest : List Step} {w : World} {e : Disk}
    (stage : step.Stage w.disk e) :
    Crashed jobId seq (step :: rest) w {step.recorded jobId seq w with disk := e}
  | later {seq : Nat} {step : Step} {rest : List Step} {w u : World}
    (crashed : Crashed jobId (seq + 1) rest (step.ran jobId seq w) u) :
    Crashed jobId seq (step :: rest) w u

theorem run_steps (carried : Carried x jobId seq bytes steps w w') :
    run SysOp.step (x.steps jobId seq bytes (steps.map Step.operation)) w =
      (.ok (steps.map Step.executed,none),w') := by
  induction carried with
  | nil seq bytes w => rfl
  | cons admitted later ih =>
    simp only [List.map_cons,TransactionExecutor.steps]
    rw [run_andThen,Step.run_step admitted]
    dsimp only
    rw [run_bind_ok SysOp.step ih]
    rfl

theorem visits_steps (carried : Carried x jobId seq bytes steps w w')
    (visit : Visits SysOp.step (x.steps jobId seq bytes (steps.map Step.operation)) w u) :
    Crashed jobId seq steps w u := by
  induction carried with
  | nil seq bytes w =>
    obtain rfl := (visits_done _ _ _ _).mp visit
    exact .here seq [] _
  | @cons seq bytes step rest w w' admitted later ih =>
    simp only [List.map_cons,TransactionExecutor.steps] at visit
    rw [visits_andThen,Step.run_step admitted] at visit
    rcases visit with first | second
    · rcases Step.visits_step first with rfl | ⟨e,stage,rfl⟩
      · exact .here _ _ _
      · exact .inside stage
    · dsimp only at second
      rw [visits_bind] at second
      rcases second with loop | ⟨_,_,ended⟩
      · exact .later (ih loop)
      · obtain rfl := (visits_done _ _ _ _).mp ended
        exact .later (ih (visits_end _ _ _))

omit [Host] in
omit [Host] in
abbrev Apart (steps : List Step) : Prop := steps.Pairwise Step.Apart

omit [Host] in
theorem holds_within {step other : Step} {d d' : Disk} (within : Within step.keys d d')
    (apart : step.Apart other) : other.image.Holds d'.tree.get ↔ other.image.Holds d.tree.get :=
  Image.Apart.holds apart within.elsewhere

structure Made (v : VaultService) (steps : List Step) (d d' : Disk) : Prop where
  within : Within (steps.flatMap Step.keys) d d'
  undoable : ∀ step ∈ steps, step.Undoable v d' ∧ step.Intact d'

theorem Carried.made (carried : Carried x jobId seq bytes steps w w') (apart : Apart steps)
    (captured : ∀ step ∈ steps, step.image.Holds w.disk.tree.get) :
    Made x.vault steps w.disk w'.disk := by
  induction carried with
  | nil seq bytes w => exact ⟨Within.refl _ _,by simp⟩
  | @cons seq bytes step rest w w' admitted later ih =>
    obtain ⟨here,apart⟩ := List.pairwise_cons.mp apart
    have within := Step.done_within admitted.2
    have made := ih apart fun other found =>
      (holds_within within (here other found)).mpr (captured other (List.mem_cons_of_mem _ found))
    refine ⟨within.trans made.within,fun other found => ?_⟩
    rcases List.mem_cons.mp found with rfl | found
    · obtain ⟨undoable,intact⟩ := Step.done_undoable admitted.2 (captured other List.mem_cons_self)
      have free : ∀ p ∈ rest.flatMap Step.keys, p ∉ other.keys := by
        intro p member
        obtain ⟨another,among,key⟩ := List.mem_flatMap.mp member
        exact (here another among).symm p key
      exact ⟨(Step.undoable_within made.within free).mpr undoable,
        (Step.intact_within made.within free).mpr intact⟩
    · exact made.undoable other found

end Run

section Numbered

variable {x : TransactionExecutor} {jobId : Text} {steps : List Step} {w w' u : World}

def number : Nat → List (RowState × Step) → List Logged
  | _, [] => []
  | seq, (state,step) :: rest => ⟨seq,state,step⟩ :: number (seq + 1) rest

theorem mem_number {seq : Nat} {entries : List (RowState × Step)} {logged : Logged}
    (found : logged ∈ number seq entries) : (logged.state,logged.step) ∈ entries := by
  induction entries generalizing seq with
  | nil => simp [number] at found
  | cons entry rest ih =>
    obtain ⟨state,step⟩ := entry
    rcases List.mem_cons.mp found with rfl | later
    · exact List.mem_cons_self
    · exact List.mem_cons_of_mem _ (ih later)

theorem exists_number (seq : Nat) {entries : List (RowState × Step)} {entry : RowState × Step}
    (found : entry ∈ entries) : ∃ logged ∈ number seq entries,
      logged.state = entry.1 ∧ logged.step = entry.2 := by
  induction entries generalizing seq with
  | nil => simp at found
  | cons first rest ih =>
    rcases List.mem_cons.mp found with rfl | later
    · exact ⟨_,List.mem_cons_self,rfl,rfl⟩
    · obtain ⟨logged,there,same⟩ := ih (seq + 1) later
      exact ⟨logged,List.mem_cons_of_mem _ there,same⟩

theorem separate_number {seq : Nat} {entries : List (RowState × Step)}
    (apart : Apart (entries.map Prod.snd)) : Separate (number seq entries) := by
  induction entries generalizing seq with
  | nil => exact List.Pairwise.nil
  | cons first rest ih =>
    obtain ⟨here,apart⟩ := List.pairwise_cons.mp apart
    refine List.pairwise_cons.mpr ⟨fun logged found => ?_,ih apart⟩
    exact here _ (List.mem_map_of_mem (f := Prod.snd) (mem_number found))

/-- A new row takes the place of the one that had its number. -/
theorem insertRow_number (jobId : Text) (step : Step) (earlier old : List (RowState × Step))
    (seq : Nat) :
    Journal.insertRow (step.row jobId (seq + earlier.length) .pending)
        ((number seq (earlier ++ old)).map (Logged.row jobId)) =
      (number seq (earlier ++ (.pending,step) :: old.tail)).map (Logged.row jobId) := by
  induction earlier generalizing seq with
  | nil =>
    cases old with
    | nil => rfl
    | cons row old =>
      have same : (step.row jobId seq .pending).seq = seq := rfl
      simp [number,Journal.insertRow,Logged.row,Step.row]
  | cons row earlier ih =>
    have next := ih (seq + 1)
    have shift : seq + 1 + earlier.length = seq + (earlier.length + 1) := by omega
    rw [shift] at next
    simp only [List.cons_append,number,List.map_cons,List.length_cons,Journal.insertRow]
    have above : ¬ (step.row jobId (seq + (earlier.length + 1)) .pending).seq <
        (Logged.row jobId ⟨seq,row.1,row.2⟩).seq := by
      change ¬ seq + (earlier.length + 1) < seq
      omega
    have other : ¬ (step.row jobId (seq + (earlier.length + 1)) .pending).seq =
        (Logged.row jobId ⟨seq,row.1,row.2⟩).seq := by
      change ¬ seq + (earlier.length + 1) = seq
      omega
    rw [if_neg above,if_neg other,next]

def Numbered (jobId : Text) (entries : List (RowState × Step)) (w : World) : Prop :=
  (w.db.journal jobId).rows = (number 0 entries).map (Logged.row jobId)

theorem Numbered.recorded {earlier old : List (RowState × Step)} {step : Step} {seq : Nat}
    (numbered : Numbered jobId (earlier ++ old) w) (next : earlier.length = seq) :
    Numbered jobId (earlier ++ (.pending,step) :: old.tail) (step.recorded jobId seq w) := by
  subst next
  have put := Db.putRow_journal w.db (step.row jobId earlier.length .pending)
  have inserted := insertRow_number jobId step earlier old 0
  rw [Nat.zero_add] at inserted
  unfold Numbered at numbered ⊢
  calc ((step.recorded jobId earlier.length w).db.journal jobId).rows
      = Journal.insertRow (step.row jobId earlier.length .pending)
          (w.db.journal jobId).rows := congrArg Journal.rows put
    _ = _ := by rw [numbered,inserted]

theorem Numbered.setState {entries : List (RowState × Step)} (numbered : Numbered jobId entries w)
    (state : RowState) :
    Numbered jobId (entries.map fun entry => (state,entry.2))
      {w with db := w.db.setJournalState jobId state} := by
  have each : ∀ seq (entries : List (RowState × Step)),
      ((number seq entries).map (Logged.row jobId)).map (fun row => {row with state}) =
        (number seq (entries.map fun entry => (state,entry.2))).map (Logged.row jobId) := by
    intro seq entries
    induction entries generalizing seq with
    | nil => rfl
    | cons entry rest ih =>
      simp only [number,List.map_cons]
      exact congrArg₂ List.cons rfl (ih (seq + 1))
  unfold Numbered at numbered ⊢
  rw [← each,← numbered,Db.setJournalState_journal]
  rfl

end Numbered

end LocalBook.Recovery
