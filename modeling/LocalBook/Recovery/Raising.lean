import LocalBook.Faults
import LocalBook.Recovery.Steps

/-! Runs of the executor in which one call to the system may fail, also after the change of its
Vault operation is there, and what the rollback makes of them. -/
namespace LocalBook.Recovery

open Effect Vault

def FailsWith (errno : Errno) : (op : SysOp) → op.Res → Prop
  | .fs _,response => response = .error errno
  | .db (.addJournal _),response => ∃ reason : Exc,response = (.error reason : Except Exc Unit)
  | .db _,_ => False

abbrev Faulted := World × Bool

/-- A call does what it does or, once, fails and does nothing. -/
def faulty (errno : Errno) : Behaviour SysOp SysOp.Res Faulted := fun op s response s' =>
  (response = (op.step s.1).1 ∧ s' = ((op.step s.1).2,s.2)) ∨
    s.2 = false ∧ FailsWith errno op response ∧ s' = (s.1,true)

variable {errno : Errno} {s s' t u : Faulted} {α : Type}

section Lifted

variable {p : Fs α} {outcome : Except Exc α}

theorem plain_of_ran (ran : Ran (faulty errno) (liftM p : Sys α) s outcome t) (spent : s.2 = true) :
    (outcome,t.1.disk) = run FsOp.step p s.1.disk ∧ t.1.db = s.1.db := by
  induction p generalizing s with
  | done result =>
    obtain ⟨rfl,rfl⟩ := ran_done.mp ran
    exact ⟨rfl,rfl⟩
  | call op next ih =>
    obtain ⟨response,s',made,rest⟩ := ran_call.mp ran
    obtain ⟨rfl,rfl⟩ | ⟨fresh,_⟩ := made
    · exact ih _ rest spent
    · simp [spent] at fresh

/-- What every run with one failure ensures holds of a procedure on the disk. -/
theorem ensured_of_ran (ran : Ran (faulty errno) (liftM p : Sys α) s outcome t)
    {Q : Option (FsOp × Disk) → Except Exc α → Disk → Prop}
    (ensures : Ensures FsOp.step (FsOp.fail errno) none p s.1.disk Q) :
    (∃ failed,Q failed outcome t.1.disk) ∧ t.1.db = s.1.db := by
  induction p generalizing s with
  | done result =>
    obtain ⟨rfl,rfl⟩ := ran_done.mp ran
    exact ⟨⟨none,ensures⟩,rfl⟩
  | call op next ih =>
    obtain ⟨response,s',made,rest⟩ := ran_call.mp ran
    obtain ⟨rfl,rfl⟩ | ⟨_,failed,rfl⟩ := made
    · have later := ih (op.step s.1.disk).1 rest
      exact later ensures.1
    · obtain rfl : response = .error errno := failed
      obtain ⟨same,db⟩ := plain_of_ran rest rfl
      have after := (ensures_some _ _ _ _).mp ensures.2
      refine ⟨⟨some (op,s.1.disk),?_⟩,db⟩
      have outcome := congrArg Prod.fst same
      have disk := congrArg Prod.snd same
      dsimp only at outcome disk
      rw [outcome,disk]
      exact after

end Lifted

section Carried

variable [Host] {v : VaultService}

omit [Host] in
theorem reached {p : Fs α} {P : α → Prop} {aim : Aim s.1.disk} {value : α}
    (ran : Ran (faulty errno) (liftM p : Sys α) s (.ok value) t)
    (settles : Ensures FsOp.step (FsOp.fail errno) none p s.1.disk (Settles errno aim P)) :
    P value ∧ t.1.disk.tree = aim.goal.tree := by
  obtain ⟨⟨failed,settled⟩,_⟩ := ensured_of_ran ran settles
  cases settled with
  | done quiet answer tree plain => exact ⟨answer,tree⟩

def Applied (op : TransactionOperation) (d e : Disk) : Prop := match op.operation with
  | .create => ∃ data,d.tree.VacantAt (relativeParts op.path) ∧
      e = d.setTree (relativeParts op.path) (some (.file data))
  | .update => ∃ old data,d.tree.FileAt (relativeParts op.path) old ∧ Expects op.beforeHash old ∧
      e = d.setTree (relativeParts op.path) (some (.file data))
  | .move => ∃ data,d.tree.FileAt (relativeParts (op.source.getD [])) data ∧
      d.tree.VacantAt (relativeParts op.path) ∧
      e = moved d (relativeParts (op.source.getD [])) (relativeParts op.path)

omit [Host] in
theorem eq_goal {d : Disk} {aim : Aim d} {e : Disk} (tree : e.tree = aim.goal.tree)
    (tidy : e.temps = d.temps) : e = aim.goal := by
  have temps := aim.temps
  cases e
  cases goal : aim.goal
  simp_all

theorem applied_of_ran {x : TransactionExecutor} {op : TransactionOperation} {receipt : Receipt}
    (ran : Ran (faulty errno) (liftM (x.apply op) : Sys Receipt) s (.ok receipt) t)
    (tidy : t.1.disk.temps = s.1.disk.temps) :
    Applied op s.1.disk t.1.disk ∧ ∃ digest,TransactionExecutor.afterHash op receipt = .ok digest := by
  unfold TransactionExecutor.apply at ran
  unfold Applied
  cases kind : op.operation with
  | create =>
    cases content : op.afterBytes with
    | none =>
      rw [kind,content] at ran
      cases (ran_done.mp ran).1
    | some data =>
      rw [kind,content] at ran
      obtain ⟨⟨_,_,vacant,rfl⟩,tree⟩ := reached ran (settles_createBytes x.vault op.path)
      exact ⟨⟨data,vacant,eq_goal tree tidy⟩,_,rfl⟩
  | update =>
    cases content : op.afterBytes with
    | none =>
      rw [kind,content] at ran
      cases (ran_done.mp ran).1
    | some data =>
      rw [kind,content] at ran
      obtain ⟨⟨_,_,⟨old,file,_,expects⟩,rfl⟩,tree⟩ :=
        reached ran (settles_writeBytes x.vault op.path op.beforeHash)
      exact ⟨⟨old,data,file,expects,eq_goal tree tidy⟩,_,rfl⟩
  | move =>
    rw [kind] at ran
    by_cases named : falsy op.source = true
    · simp only [named,if_true] at ran
      cases (ran_done.mp ran).1
    · simp only [named,Bool.false_eq_true,if_false] at ran
      obtain ⟨⟨_,_,_,data,file,_,_,vacant,rfl⟩,tree⟩ :=
        reached ran (settles_moveFile x.vault (op.source.getD []) op.beforeHash op.path)
      exact ⟨⟨data,file,vacant,eq_goal tree tidy⟩,_,rfl⟩

end Carried

section Undone

variable [Host] {x : TransactionExecutor} {op : TransactionOperation} {digest : Text} {d : Disk}

omit [Host] in
theorem ensures_still (failed : Option (FsOp × Disk)) (p : Look α) (d : Disk) :
    Ensures FsOp.step (FsOp.fail errno) failed (liftM p : Fs α) d fun _ _ e => e = d := by
  cases failed with
  | some before => rw [ensures_some,run_liftLook]
  | none =>
    induction p with
    | done result => exact (ensures_done _ _ _ _).mpr rfl
    | call op next ih =>
      refine ⟨ih _,?_⟩
      rw [ensures_some]
      exact congrArg Prod.snd (run_liftLook (next (.error errno)) d)

omit [Host] in
theorem ensures_assertAbsent (failed : Option (FsOp × Disk)) (v : VaultService) (path : Text)
    (present : Exc) (d : Disk) :
    Ensures FsOp.step (FsOp.fail errno) failed (assertAbsent v path present) d
      fun _ _ e => e = d := by
  rw [assertAbsent,ensures_andThen]
  refine (ensures_still failed (v.readBytes path) d).mono fun later result e same => ?_
  cases result with
  | ok value => exact (ensures_done _ _ _ _).mpr same
  | error reason =>
    dsimp only
    split
    · exact (ensures_done _ _ _ _).mpr same
    · exact (ensures_done _ _ _ _).mpr same

theorem ensures_deleteAgain (v : VaultService) (path : Text) (digest : Option Text)
    (present : Exc) (d : Disk) :
    Ensures FsOp.step (FsOp.fail errno) none (deleteAgain v path digest present) d
      fun _ result e => result = .ok () → e.tree = (d.setTree (relativeParts path) none).tree := by
  rw [deleteAgain,ensures_bind]
  refine (settles_deleteFile v path digest).mono fun later result e settled => ?_
  cases settled with
  | refused quiet => simp
  | late stage loud changed report => simp
  | done quiet answer tree plain =>
    refine (ensures_assertAbsent later v path present e).mono fun _ _ e' same _ => ?_
    rw [same,tree]
    rfl

theorem ensures_writeBack (v : VaultService) (path : Text) (data : Bytes) (digest : Option Text)
    (wrong : Option Text → Bool) (mismatch : Exc) (d : Disk) :
    Ensures FsOp.step (FsOp.fail errno) none (writeBack v path data digest wrong mismatch) d
      fun _ result e => result = .ok () → wrong (some (sha256Bytes data)) = false ∧
        e.tree = (d.setTree (relativeParts path) (some (.file data))).tree := by
  rw [writeBack,ensures_bind]
  refine (settles_writeBytes v path digest).mono fun later result e settled => ?_
  cases settled with
  | refused quiet => simp
  | late stage loud changed report => simp
  | done quiet answer tree plain =>
    obtain ⟨_,_,_,rfl⟩ := answer
    by_cases differs : wrong (some (sha256Bytes data)) = true
    · simp [Proc.raiseIf,differs,Proc.throw]
    · have fits : wrong (some (sha256Bytes data)) = false := by simpa using differs
      simp only [Proc.raiseIf,fits,Bool.false_eq_true,if_false]
      exact (ensures_done _ _ _ _).mpr fun _ => ⟨trivial,tree⟩

theorem ensures_moveBack (v : VaultService) (path source : Text) (digest : Option Text)
    (wrong : Option Text → Bool) (mismatch : Exc) (d : Disk) :
    Ensures FsOp.step (FsOp.fail errno) none (moveBack v path source digest wrong mismatch) d
      fun _ result e => result = .ok () →
        e.tree = (moved d (relativeParts path) (relativeParts source)).tree := by
  rw [moveBack,ensures_bind]
  refine (settles_moveFile v path digest source).mono fun later result e settled => ?_
  cases settled with
  | refused quiet => simp
  | late stage loud changed report => simp
  | @done _ receipt _ quiet answer tree plain =>
    by_cases differs : wrong receipt.sha256 = true
    · simp [Proc.raiseIf,differs,Proc.throw]
    · have fits : wrong receipt.sha256 = false := by simpa using differs
      simp only [Proc.raiseIf,fits,Bool.false_eq_true,if_false]
      exact (ensures_done _ _ _ _).mpr fun _ => tree

omit [Host] in
theorem setTree_setTree (d : Disk) (p : Path) (node node' : Option Node) :
    (d.setTree p node).setTree p node' = d.setTree p node' := by
  simp [Disk.setTree]

omit [Host] in
theorem setTree_of_get {p : Path} {node : Option Node} (here : d.tree.get p = node) :
    d.setTree p node = d := by
  simp [Disk.setTree,Tree.set_of_get _ here]

omit [Host] in
theorem moved_back {source target : Path} {data : Bytes} (file : d.tree.FileAt source data)
    (vacant : d.tree.VacantAt target) : moved (moved d source target) target source = d := by
  have apart : source ≠ target := by
    rintro rfl
    exact absurd file.2 (by simp [vacant.2])
  refine Within.eq_of_tree (fun p => ?_) rfl
  by_cases here : p = source
  · subst here
    simp [moved,bothNames,Tree.get_set,apart,apart.symm,file.2]
  · by_cases there : p = target
    · subst there
      simp [moved,bothNames,Tree.get_set,here,vacant.2]
    · simp [moved,bothNames,Tree.get_set,here,there]

theorem undone_of_ran (applied : Applied op d s.1.disk)
    (told : ∀ before ∈ op.beforeBytes,∀ old,
      d.tree.get (relativeParts op.path) = some (.file old) →
      sha256Bytes old = sha256Bytes before → old = before)
    (ran : Ran (faulty errno) (liftM (x.undoOne ⟨op,digest⟩) : Sys Unit) s (.ok ()) t)
    (tidy : t.1.disk.temps = s.1.disk.temps) : t.1.disk = d := by
  unfold TransactionExecutor.undoOne at ran
  unfold Applied at applied
  cases kind : op.operation with
  | create =>
    simp only [kind] at ran applied
    obtain ⟨data,vacant,left⟩ := applied
    obtain ⟨⟨_,removed⟩,_⟩ := ensured_of_ran ran (ensures_deleteAgain ..)
    have done : t.1.disk = s.1.disk.setTree (relativeParts op.path) none :=
      Within.eq_of_tree (fun p => by rw [removed rfl]) tidy
    rw [done,left,setTree_setTree,setTree_of_get vacant.2]
  | update =>
    simp only [kind] at ran applied
    obtain ⟨old,data,file,expects,left⟩ := applied
    cases known : op.beforeBytes with
    | none =>
      simp only [known] at ran
      cases (ran_done.mp ran).1
    | some before =>
      simp only [known] at ran
      obtain ⟨⟨_,written⟩,_⟩ := ensured_of_ran ran (ensures_writeBack ..)
      obtain ⟨fits,tree⟩ := written rfl
      have done : t.1.disk = s.1.disk.setTree (relativeParts op.path) (some (.file before)) :=
        Within.eq_of_tree (fun p => by rw [tree]) tidy
      have hash : op.beforeHash = some (sha256Bytes before) :=
        (not_not.mp (of_decide_eq_false fits)).symm
      have same : old = before := by
        rw [hash] at expects
        exact told before known old file.2 (expects_iff.mp expects)
      rw [done,left,setTree_setTree,← same,setTree_of_get file.2]
  | move =>
    simp only [kind] at ran applied
    obtain ⟨data,file,vacant,left⟩ := applied
    by_cases named : falsy op.source = true
    · simp only [named,if_true] at ran
      cases (ran_done.mp ran).1
    · simp only [named,Bool.false_eq_true,if_false] at ran
      obtain ⟨⟨_,returned⟩,_⟩ := ensured_of_ran ran (ensures_moveBack ..)
      have done : t.1.disk = moved s.1.disk (relativeParts op.path)
          (relativeParts (op.source.getD [])) :=
        Within.eq_of_tree (fun p => by rw [returned rfl]) tidy
      rw [done,left,moved_back file vacant]

end Undone

/-- A Vault call of the loop, with the disk it found and the one it left. -/
structure VaultCall where
  operation : TransactionOperation
  raised : Bool
  found : Disk
  left : Disk

/-- It left the Vault as it was if it raised, and no temporary file; and where it replaced a
file, the bytes that are to be written back are those of the file, not only of its digest. -/
structure VaultCall.Clean (call : VaultCall) : Prop where
  kept : call.raised = true → call.left = call.found
  tidy : call.left.temps = call.found.temps
  told : ∀ before ∈ call.operation.beforeBytes,∀ old,
    call.found.tree.get (relativeParts call.operation.path) = some (.file old) →
    sha256Bytes old = sha256Bytes before → old = before

theorem ran_raiseIf {c : Prop} [Decidable c] {reason : Exc} {outcome : Except Exc Unit}
    (ran : Ran (faulty errno) (Proc.raiseIf c reason : Sys Unit) s outcome t) : t = s := by
  unfold Proc.raiseIf at ran
  split at ran
  · exact (ran_done.mp ran).2
  · exact (ran_done.mp ran).2

theorem addJournal_still {entry : JournalEntry} {outcome : Except Exc Unit}
    (ran : Ran (faulty errno) (History.addJournal entry) s outcome t) :
    t.1.disk = s.1.disk := by
  obtain ⟨response,s',made,rest⟩ := ran_call.mp ran
  obtain ⟨_,rfl⟩ := ran_done.mp rest
  obtain ⟨_,rfl⟩ | ⟨_,_,rfl⟩ := made
  · rfl
  · rfl

theorem setJournalState_still {state : RowState} {outcome : Except Exc Unit}
    (ran : Ran (faulty errno) (History.setJournalState jobId state) s outcome t) :
    t.1.disk = s.1.disk := by
  obtain ⟨response,s',made,rest⟩ := ran_call.mp ran
  obtain ⟨_,rfl⟩ := ran_done.mp rest
  obtain ⟨_,rfl⟩ | ⟨_,never,_⟩ := made
  · rfl
  · exact never.elim

section Advance

variable [Host] (x : TransactionExecutor) (errno : Errno) (jobId : Text)

/-- A run of the loop of `execute`: the Vault calls, the completed steps and the exception that
ended it. -/
inductive Advance : Nat → Nat → List TransactionOperation → Faulted → List VaultCall →
    List Executed → Option Exc → Faulted → Prop where
  | finished {seq bytes : Nat} {s : Faulted} : Advance seq bytes [] s [] [] none s
  | unrecorded {seq bytes : Nat} {op : TransactionOperation} {rest : List TransactionOperation}
    {s t : Faulted} {reason : Exc}
    (recorded : Ran (faulty errno) (x.record jobId seq bytes op) s (.error reason) t) :
    Advance seq bytes (op :: rest) s [] [] (some reason) t
  | raised {seq bytes bytes' : Nat} {op : TransactionOperation}
    {rest : List TransactionOperation} {s s' t : Faulted} {reason : Exc}
    (recorded : Ran (faulty errno) (x.record jobId seq bytes op) s (.ok bytes') s')
    (applied : Ran (faulty errno) (liftM (x.apply op) : Sys Receipt) s' (.error reason) t) :
    Advance seq bytes (op :: rest) s [⟨op,true,s'.1.disk,t.1.disk⟩] [] (some reason) t
  | unnamed {seq bytes bytes' : Nat} {op : TransactionOperation} {receipt : Receipt}
    {rest : List TransactionOperation} {s s' t : Faulted} {reason : Exc}
    (recorded : Ran (faulty errno) (x.record jobId seq bytes op) s (.ok bytes') s')
    (applied : Ran (faulty errno) (liftM (x.apply op) : Sys Receipt) s' (.ok receipt) t)
    (digest : TransactionExecutor.afterHash op receipt = .error reason) :
    Advance seq bytes (op :: rest) s [⟨op,false,s'.1.disk,t.1.disk⟩] [] (some reason) t
  | carried {seq bytes bytes' : Nat} {op : TransactionOperation} {receipt : Receipt}
    {rest : List TransactionOperation} {s s' t u : Faulted} {digest : Text}
    {calls : List VaultCall} {executed : List Executed} {failure : Option Exc}
    (recorded : Ran (faulty errno) (x.record jobId seq bytes op) s (.ok bytes') s')
    (applied : Ran (faulty errno) (liftM (x.apply op) : Sys Receipt) s' (.ok receipt) t)
    (named : TransactionExecutor.afterHash op receipt = .ok digest)
    (later : Advance (seq + 1) bytes' rest t calls executed failure u) :
    Advance seq bytes (op :: rest) s (⟨op,false,s'.1.disk,t.1.disk⟩ :: calls)
      (⟨op,digest⟩ :: executed) failure u

/-- A run of the loop of `_rollback` that comes to its end, with the disks of its inverses. -/
inductive WalkedBack : List Executed → Faulted → List (Disk × Disk) → Faulted → Prop where
  | finished {s : Faulted} : WalkedBack [] s [] s
  | undone {done : Executed} {rest : List Executed} {s s' t : Faulted}
    {inverses : List (Disk × Disk)}
    (ran : Ran (faulty errno) (liftM (x.undoOne done) : Sys Unit) s (.ok ()) s')
    (later : WalkedBack rest s' inverses t) :
    WalkedBack (done :: rest) s ((s.1.disk,s'.1.disk) :: inverses) t

variable {x errno jobId}
variable {seq bytes : Nat} {operations : List TransactionOperation} {calls : List VaultCall}
variable {executed : List Executed} {failure : Option Exc} {inverses : List (Disk × Disk)}

omit [Host] in
theorem record_still {op : TransactionOperation} {outcome : Except Exc Nat}
    (ran : Ran (faulty errno) (x.record jobId seq bytes op) s outcome t) :
    t.1.disk = s.1.disk := by
  rcases ran.of_bind with ⟨entry,s₁,made,checked⟩ | ⟨_,_,refused⟩
  · obtain ⟨_,rfl⟩ := ran_done.mp made
    rcases checked.of_bind with ⟨_,s₂,fits,stored⟩ | ⟨_,_,full⟩
    · obtain rfl := ran_raiseIf fits
      rcases stored.of_bind with ⟨_,s₃,added,ended⟩ | ⟨_,_,added⟩
      · obtain ⟨_,rfl⟩ := ran_done.mp ended
        exact addJournal_still added
      · exact addJournal_still added
    · rw [ran_raiseIf full]
  · rw [(ran_done.mp refused).2]

theorem step_of_ran {op : TransactionOperation} {outcome : Except Exc (Nat × Executed)}
    (ran : Ran (faulty errno) (x.step jobId seq bytes op) s outcome t) :
    (∃ reason,outcome = .error reason ∧
        Ran (faulty errno) (x.record jobId seq bytes op) s (.error reason) t) ∨
      ∃ bytes' s',Ran (faulty errno) (x.record jobId seq bytes op) s (.ok bytes') s' ∧
        ((∃ reason,outcome = .error reason ∧
            Ran (faulty errno) (liftM (x.apply op) : Sys Receipt) s' (.error reason) t) ∨
          ∃ receipt,Ran (faulty errno) (liftM (x.apply op) : Sys Receipt) s' (.ok receipt) t ∧
            outcome = (TransactionExecutor.afterHash op receipt).map
              fun digest => (bytes',⟨op,digest⟩)) := by
  rcases ran.of_bind with ⟨bytes',s',recorded,second⟩ | ⟨reason,raised,recorded⟩
  · refine .inr ⟨bytes',s',recorded,?_⟩
    rcases second.of_bind with ⟨receipt,s'',applied,third⟩ | ⟨reason,raised,applied⟩
    · right
      rcases third.of_bind with ⟨digest,_,named,ended⟩ | ⟨reason,raised,unnamed⟩
      · obtain ⟨same,rfl⟩ := ran_done.mp named
        obtain ⟨rfl,rfl⟩ := ran_done.mp ended
        exact ⟨receipt,applied,by rw [← same]; rfl⟩
      · obtain ⟨same,rfl⟩ := ran_done.mp unnamed
        exact ⟨receipt,applied,by rw [← same,raised]; rfl⟩
    · exact .inl ⟨reason,raised,applied⟩
  · exact .inl ⟨reason,raised,recorded⟩

theorem advance_of_ran {outcome : Except Exc (List Executed × Option Exc)}
    (ran : Ran (faulty errno) (x.steps jobId seq bytes operations) s outcome t) :
    ∃ calls executed failure,outcome = .ok (executed,failure) ∧
      Advance x errno jobId seq bytes operations s calls executed failure t := by
  induction operations generalizing seq bytes s t outcome with
  | nil =>
    obtain ⟨rfl,rfl⟩ := ran_done.mp ran
    exact ⟨[],[],none,rfl,.finished⟩
  | cons op rest ih =>
    obtain ⟨result,s₁,turn,ran⟩ := ran_andThen.mp ran
    rcases step_of_ran turn with ⟨reason,rfl,recorded⟩ |
      ⟨bytes',s',recorded,⟨reason,rfl,applied⟩ | ⟨receipt,applied,rfl⟩⟩
    · obtain ⟨rfl,rfl⟩ := ran_done.mp ran
      exact ⟨[],[],some reason,rfl,.unrecorded recorded⟩
    · obtain ⟨rfl,rfl⟩ := ran_done.mp ran
      exact ⟨_,[],some reason,rfl,.raised recorded applied⟩
    · cases named : TransactionExecutor.afterHash op receipt with
      | error reason =>
        rw [named] at ran
        obtain ⟨rfl,rfl⟩ := ran_done.mp ran
        exact ⟨_,[],some reason,rfl,.unnamed recorded applied named⟩
      | ok digest =>
        rw [named] at ran
        rcases Ran.of_bind ran with ⟨⟨later,failure⟩,_,second,ended⟩ | ⟨_,_,second⟩
        · obtain ⟨calls,executed,_,same,advance⟩ := ih second
          obtain ⟨rfl,rfl⟩ := ran_done.mp ended
          cases same
          exact ⟨_,_,_,rfl,.carried recorded applied named advance⟩
        · obtain ⟨_,_,_,same,_⟩ := ih second
          cases same

theorem walkedBack_of_ran {restored paths : List Text}
    (ran : Ran (faulty errno) (x.undoAll executed restored) s (.ok (paths,none)) t) :
    ∃ inverses,WalkedBack x errno executed s inverses t := by
  induction executed generalizing s restored with
  | nil =>
    obtain ⟨_,rfl⟩ := ran_done.mp ran
    exact ⟨[],.finished⟩
  | cons done rest ih =>
    obtain ⟨result,s',first,ran⟩ := ran_andThen.mp ran
    cases result with
    | ok value =>
      obtain ⟨inverses,later⟩ := ih ran
      exact ⟨_,.undone first later⟩
    | error reason => cases (ran_done.mp ran).1

theorem WalkedBack.split {first second : List Executed}
    (undoes : WalkedBack x errno (first ++ second) s inverses t) :
    ∃ s' before after,inverses = before ++ after ∧ WalkedBack x errno first s before s' ∧
      WalkedBack x errno second s' after t := by
  induction first generalizing s inverses with
  | nil => exact ⟨s,[],inverses,rfl,.finished,undoes⟩
  | cons done rest ih =>
    cases undoes with
    | undone ran later =>
      obtain ⟨s',before,after,rfl,one,two⟩ := ih later
      exact ⟨s',_,after,rfl,.undone ran one,two⟩

theorem Advance.restored
    (advance : Advance x errno jobId seq bytes operations s calls executed failure u)
    (failed : failure ≠ none) (clean : ∀ call ∈ calls,call.Clean)
    (undoes : WalkedBack x errno executed.reverse u inverses t)
    (tidy : ∀ inverse ∈ inverses,inverse.2.temps = inverse.1.temps) :
    t.1.disk = s.1.disk := by
  induction advance generalizing inverses t with
  | finished => exact absurd rfl failed
  | unrecorded recorded =>
    cases undoes
    exact record_still recorded
  | raised recorded applied =>
    cases undoes
    exact ((clean _ (List.mem_singleton.mpr rfl)).kept rfl).trans (record_still recorded)
  | unnamed recorded applied unnamed =>
    obtain ⟨_,digest,named⟩ := applied_of_ran applied (clean _ (List.mem_singleton.mpr rfl)).tidy
    rw [named] at unnamed
    cases unnamed
  | carried recorded applied named later ih =>
    have here := clean _ (List.mem_cons_self ..)
    rw [List.reverse_cons] at undoes
    obtain ⟨s₁,before,after,rfl,first,last⟩ := undoes.split
    cases last with
    | undone ran ended =>
      cases ended
      have back := ih failed (fun call there => clean call (List.mem_cons_of_mem _ there)) first
        fun inverse there => tidy inverse (List.mem_append_left _ there)
      have done := (applied_of_ran applied here.tidy).1
      rw [← back] at done
      rw [undone_of_ran done here.told ran (tidy (s₁.1.disk,t.1.disk) (List.mem_append_right _ (by simp))),
        record_still recorded]

end Advance

section Execute

variable [Runtime] {x : TransactionExecutor} {jobId : Text}
variable {operations : List TransactionOperation} {result : RecoveryResult}

/-- A run of `execute` that an exception ended and whose rollback, empty where no step was
completed, came to its end: the Vault calls of its loop, and the disks of its inverses. -/
inductive RolledBack (x : TransactionExecutor) (errno : Errno) (jobId : Text)
    (operations : List TransactionOperation) (s : Faulted) (calls : List VaultCall)
    (inverses : List (Disk × Disk)) (t : Faulted) : Prop where
  | intro {executed : List Executed} {reason : Exc} {s₁ s₂ : Faulted}
    (advance : Advance x errno jobId 0 0 operations s calls executed (some reason) s₁)
    (undoes : WalkedBack x errno executed.reverse s₁ inverses s₂) (disk : t.1.disk = s₂.1.disk)

theorem walkedBack_of_rollback {executed : List Executed} {cause : Exc}
    (ran : Ran (faulty errno) (x.rollback jobId executed cause) s (.ok result) t)
    (reported : result.status = .rolledBack ∨ result.status = .conflict) :
    ∃ inverses s₁,WalkedBack x errno executed.reverse s inverses s₁ ∧ t.1.disk = s₁.1.disk := by
  obtain ⟨⟨restored,failure⟩,s₁,undone,marking⟩ := ran.of_bind_ok
  obtain ⟨_,s₂,marked,ended⟩ := marking.of_bind_ok
  cases failure with
  | some failed =>
    obtain ⟨same,_⟩ := ran_done.mp ended
    obtain rfl := Except.ok.inj same
    simp at reported
  | none =>
    obtain ⟨inverses,undoes⟩ := walkedBack_of_ran undone
    obtain ⟨_,rfl⟩ := ran_done.mp ended
    exact ⟨inverses,s₁,undoes,setJournalState_still marked⟩

/-- Whatever single call fails: where the executor reports a run as rolled back or as a conflict
the Vault is as it was before, if every Vault call that raised had left it as it was. -/
theorem rolledBack_restores
    (ran : Ran (faulty errno) (x.execute jobId operations) s (.ok result) t)
    (reported : result.status = .rolledBack ∨ result.status = .conflict) :
    ∃ calls inverses,RolledBack x errno jobId operations s calls inverses t ∧
      ((∀ call ∈ calls,call.Clean) →
        (∀ inverse ∈ inverses,inverse.2.temps = inverse.1.temps) → t.1.disk = s.1.disk) := by
  obtain ⟨⟨executed,failure⟩,s₁,looped,after⟩ := ran.of_bind_ok
  obtain ⟨calls,_,_,same,advance⟩ := advance_of_ran looped
  cases same
  cases failure with
  | none =>
    obtain ⟨_,_,_,ended⟩ := after.of_bind_ok
    obtain ⟨same,_⟩ := ran_done.mp ended
    obtain rfl := Except.ok.inj same
    simp at reported
  | some reason =>
    have ended : ∃ inverses s₂,WalkedBack x errno executed.reverse s₁ inverses s₂ ∧
        t.1.disk = s₂.1.disk := by
      by_cases empty : executed.isEmpty = true
      · simp only [empty,if_true] at after
        obtain ⟨_,s₂,marked,ended⟩ := after.of_bind_ok
        obtain ⟨_,rfl⟩ := ran_done.mp ended
        obtain rfl := List.isEmpty_iff.mp empty
        exact ⟨[],s₁,.finished,setJournalState_still marked⟩
      · simp only [empty,Bool.false_eq_true,if_false] at after
        exact walkedBack_of_rollback after reported
    obtain ⟨inverses,s₂,undoes,disk⟩ := ended
    refine ⟨calls,inverses,.intro advance undoes disk,fun clean tidy => ?_⟩
    rw [disk,advance.restored (by simp) clean undoes tidy]

end Execute

section Late

open scoped AsciiRuntime

theorem ran_of_run (p : Sys α) (s : Faulted) :
    Ran (faulty errno) p s (run SysOp.step p s.1).1 ((run SysOp.step p s.1).2,s.2) := by
  induction p generalizing s with
  | done result => exact .done
  | call op next ih => exact .call (.inl ⟨rfl,rfl⟩) (ih _ ((op.step s.1).2,s.2))

def failing (errno : Errno) : (op : SysOp) → op.Res
  | .fs _ => (.error errno : Except Errno _)
  | .db (.addJournal _) => (.error .integrity : Except Exc Unit)
  | .db (.save _) | .db (.setJournalState _ _) => ()
  | .db (.get _) => (none : Option HistoryRecord)
  | .db (.journal _) => ([] : List JournalEntry)

def diskCall : SysOp → Option FsOp
  | .fs op => some op
  | .db _ => none

theorem ran_of_fault (p : Sys α) (w : World) (n : Nat)
    (made : (((calls SysOp.step p w)[n]?).bind diskCall).isSome = true) :
    Ran (faulty errno) p (w,false) (fault SysOp.step (failing errno) n p w).1
      ((fault SysOp.step (failing errno) n p w).2,true) := by
  induction p generalizing w n with
  | done result => simp at made
  | call op' next ih =>
    cases n with
    | zero =>
      cases op' with
      | fs op => exact .call (.inr ⟨rfl,rfl,rfl⟩) (ran_of_run _ (w,true))
      | db op => simp [diskCall] at made
    | succ n => exact .call (.inl ⟨rfl,rfl⟩) (ih _ (op'.step w).2 n (by simpa using made))

def smallExecutor : TransactionExecutor := ⟨⟨100,hundred_pos⟩,1000⟩

def emptyVault : World where
  disk := Disk.bare
  db := Db.empty.save {jobId := "j".toList,status := .executing}

def helloNote : TransactionOperation := (Step.create "a.md".toList "hello".toUTF8).operation

/-- The second create finds the file of the first: the run is rolled back. -/
theorem twice_restores : ∃ (result : RecoveryResult) (t : Faulted) (calls : List VaultCall)
    (inverses : List (Disk × Disk)),
    Ran (faulty .eio) (smallExecutor.execute "j".toList [helloNote,helloNote])
      (emptyVault,false) (.ok result) t ∧ result.status = .rolledBack ∧
    RolledBack smallExecutor .eio "j".toList [helloNote,helloNote] (emptyVault,false) calls
      inverses t ∧
    ((∀ call ∈ calls,call.Clean) →
      (∀ inverse ∈ inverses,inverse.2.temps = inverse.1.temps) →
      t.1.disk = emptyVault.disk) := by
  have ran := @ran_of_run .eio _ (smallExecutor.execute "j".toList [helloNote,helloNote])
    (emptyVault,false)
  have status : (run SysOp.step (smallExecutor.execute "j".toList [helloNote,helloNote])
      emptyVault).1.map RecoveryResult.status = .ok .rolledBack := by decide +kernel
  cases ended : (run SysOp.step (smallExecutor.execute "j".toList [helloNote,helloNote])
      emptyVault).1 with
  | error reason =>
    rw [ended] at status
    cases status
  | ok result =>
    rw [ended] at status ran
    have reported : result.status = .rolledBack := Except.ok.inj status
    obtain ⟨calls,inverses,rolled,restores⟩ := rolledBack_restores ran (.inl reported)
    exact ⟨result,_,calls,inverses,ran,reported,rolled,restores⟩

/-- The directory sync after the link fails: a conflict before any write, and a new file. -/
theorem lateCreate_remains : ¬ ∀ (errno : Errno) (operations : List TransactionOperation)
    (s t : Faulted) (result : RecoveryResult),
    Ran (faulty errno) (smallExecutor.execute "j".toList operations) s (.ok result) t →
    result.status = .rolledBack ∨ result.status = .conflict →
    ∀ path,t.1.disk.tree.get path = s.1.disk.tree.get path := by
  intro restores
  have ran := @ran_of_fault .eio _ (smallExecutor.execute "j".toList [helloNote]) emptyVault 25
    (by decide +kernel)
  have status : (fault SysOp.step (failing .eio) 25
      (smallExecutor.execute "j".toList [helloNote]) emptyVault).1.map RecoveryResult.status =
        .ok .conflict := by decide +kernel
  have there : (fault SysOp.step (failing .eio) 25
      (smallExecutor.execute "j".toList [helloNote]) emptyVault).2.disk.tree.get
        ["a.md".toList] = some (.file "hello".toUTF8) := by decide +kernel
  have absent : emptyVault.disk.tree.get ["a.md".toList] = none := by decide +kernel
  cases ended : (fault SysOp.step (failing .eio) 25
      (smallExecutor.execute "j".toList [helloNote]) emptyVault).1 with
  | error reason =>
    rw [ended] at status
    cases status
  | ok result =>
    rw [ended] at status ran
    have same := restores .eio [helloNote] _ _ result ran (.inr (Except.ok.inj status))
      ["a.md".toList]
    rw [there,absent] at same
    cases same

end Late

end LocalBook.Recovery
