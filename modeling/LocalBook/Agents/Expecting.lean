import LocalBook.Agents.Measuring

/-! The digest a patch or a move carries. Planning notes the digest of each note it reads and an
acceptance compares that one; the one the action carries has to be there and is compared with
nothing. -/
namespace LocalBook

namespace Effect

variable {Op : Type} {Res : Op → Type} {ε ε' α β σ : Type} {E : ε' → Prop}

/-- Where every outcome is caught only the handler raises. -/
theorem raises_andThen {p : Proc Op Res ε α} {k : Except ε α → Proc Op Res ε' β}
    (rest : ∀ result,Raises E (k result)) : Raises E (p.andThen k) := by
  induction p with
  | done result => exact rest result
  | call op next ih => exact fun response => ih response

theorem Raises.eval {answer : (op : Op) → σ → Res op} {p : Proc Op Res ε' α} (raises : Raises E p)
    {s : σ} {reason : ε'} (raised : eval answer p s = .error reason) : E reason := by
  induction p with
  | done result =>
    obtain rfl : result = .error reason := raised
    exact raises
  | call op next ih => exact ih _ (raises _) raised

end Effect

namespace Agents.AgentJobService

open Effect Vault Recovery Policies

section Hashes

theorem lookup_filter {hashes : Hashes} {path other : Text} (apart : other ≠ path) :
    List.lookup other (hashes.filter fun entry => entry.1 ≠ path) = List.lookup other hashes := by
  induction hashes with
  | nil => rfl
  | cons entry rest ih =>
    by_cases gone : entry.1 = path
    · have other : (other == entry.1) = false := by
        rw [gone]
        exact beq_eq_false_iff_ne.mpr apart
      rw [List.filter_cons_of_neg (by simpa using gone),ih,List.lookup_cons,other]
    · rw [List.filter_cons_of_pos (by simpa using gone),List.lookup_cons,List.lookup_cons,ih]

theorem get_set (hashes : Hashes) (path other : Text) (hash : Option Text) :
    (hashes.set path hash).get other = if other = path then hash else hashes.get other := by
  rw [Hashes.get,Hashes.set,List.lookup_cons]
  by_cases same : other = path
  · simp [same]
  · simp only [beq_eq_false_iff_ne.mpr same,if_neg same,Hashes.get]
    rw [lookup_filter same]

/-- The hashes that `_record_job` collects. -/
def beforeHashes (diffs : List DiffEntry) : Hashes :=
  diffs.foldl (fun hashes diff => hashes.set diff.path diff.beforeHash) []

/-- A path that is in the diffs with one hash only has that hash. -/
theorem get_beforeHashes {diffs : List DiffEntry} {path : Text} {hash : Option Text}
    (there : ∃ diff ∈ diffs,diff.path = path)
    (only : ∀ diff ∈ diffs,diff.path = path → diff.beforeHash = hash) :
    (beforeHashes diffs).get path = hash := by
  induction diffs using List.reverseRecOn with
  | nil => simp at there
  | append_singleton diffs last ih =>
    rw [beforeHashes,List.foldl_append,← beforeHashes,List.foldl_cons,List.foldl_nil,get_set]
    by_cases here : path = last.path
    · rw [if_pos here]
      exact only last (by simp) here.symm
    · rw [if_neg here]
      obtain ⟨diff,member,same⟩ := there
      apply ih
      · rcases List.mem_append.mp member with earlier | now
        · exact ⟨diff,earlier,same⟩
        · obtain rfl := List.mem_singleton.mp now
          exact absurd same.symm here
      · exact fun other earlier => only other (List.mem_append_left _ earlier)

end Hashes

section Noting

variable [Host] {s : AgentJobService} {d : Disk} {action : Action} {item : Prepared}

structure GuardPassed (action : Action) (facts : ActionFacts) : Prop where
  existing : facts.existing = true
  markdown : facts.markdown = true
  attachment : facts.attachment = false
  target : action.action = .moveNote → falsy action.targetFile = false
  free : action.action = .moveNote → facts.targetExists = false

theorem guardPassed {engine : PolicyEngine} {facts : ActionFacts} {level : Nat}
    (kind : action.action = .patchNote ∨ action.action = .moveNote)
    (passed : (engine.evaluate action facts level).decision ≠ .deny) :
    GuardPassed action facts := by
  have unmet : ∀ rule ∈ engine.denyRules action facts level,rule.1 ≠ true :=
    fun rule found applies => passed (evaluate_denied found applies)
  simp only [PolicyEngine.denyRules,List.forall_mem_cons] at unmet
  obtain ⟨_,_,_,_,_,_,attachment,markdown,_,_,present,_,target,free,_⟩ := unmet
  refine ⟨?_,by simpa using markdown,by simpa using attachment,fun move => ?_,fun move => ?_⟩
  · rcases kind with kind | kind <;> simpa [mutatesExisting,kind] using present
  · simpa [move] using target
  · simpa [move] using free

/-- The operation of a patch that passes knows what was read. -/
theorem update_noted {base facts : ActionFacts} {data : Bytes} {digest : Option Text}
    {operation : Option Recovery.TransactionOperation} (kind : action.action = .patchNote)
    (present : base.existing = digest.isSome)
    (made : eval ReadOp.answer (s.preflightUpdate action base data digest) d =
      .ok (facts,operation)) (judged : GuardPassed action facts) :
    ∃ known,digest = some known ∧ ∃ op,operation = some op ∧ op.beforeBytes = some data := by
  simp only [preflightUpdate,kind,reduceCtorEq,if_false] at made
  cases digest with
  | none =>
    obtain ⟨rfl,rfl⟩ := Prod.mk.inj (Except.ok.inj made)
    exact absurd judged.existing (by simp [present])
  | some known =>
    refine ⟨known,rfl,?_⟩
    dsimp only at made
    split at made
    next refused =>
      obtain ⟨rfl,rfl⟩ := Prod.mk.inj (Except.ok.inj made)
      simp [judged.existing,judged.attachment,judged.markdown] at refused
    · cases decoded : decodeUtf8 data with
      | none =>
        rw [decoded] at made
        cases made
      | some before =>
        simp only [decoded,eval_bind_eq_ok] at made
        obtain ⟨⟨facts,after⟩,_,ended⟩ := made
        obtain ⟨rfl,rfl⟩ := Prod.mk.inj (Except.ok.inj ended)
        exact ⟨_,rfl,rfl⟩

theorem move_noted {base facts : ActionFacts} {data : Bytes} {digest : Option Text}
    {operation : Option Recovery.TransactionOperation} (kind : action.action = .moveNote)
    (present : base.existing = digest.isSome)
    (made : eval ReadOp.answer (s.preflightMove action base data digest) d =
      .ok (facts,operation)) (judged : GuardPassed action facts) :
    ∃ known,digest = some known ∧ ∃ op,operation = some op ∧ op.beforeBytes = some data := by
  have named := judged.target kind
  simp only [preflightMove,named,Bool.false_eq_true,if_false,eval_bind_eq_ok] at made
  obtain ⟨found,_,made⟩ := made
  cases target : action.targetFile with
  | none => simp [target,falsy] at named
  | some path =>
    cases digest with
    | none =>
      simp only [target] at made
      obtain ⟨rfl,rfl⟩ := Prod.mk.inj (Except.ok.inj made)
      exact absurd judged.existing (by simp [present])
    | some known =>
      refine ⟨known,rfl,?_⟩
      simp only [target] at made
      split at made
      next refused =>
        obtain ⟨rfl,rfl⟩ := Prod.mk.inj (Except.ok.inj made)
        have free := judged.free kind
        have markdown := judged.markdown
        have existing := judged.existing
        simp_all
      · obtain ⟨rfl,rfl⟩ := Prod.mk.inj (Except.ok.inj made)
        exact ⟨_,rfl,rfl⟩

/-- A note that is patched or moved is in the diffs with its digest. -/
theorem diffEntry_passed (kind : action.action = .patchNote ∨ action.action = .moveNote)
    (prepared : eval ReadOp.answer (s.preflightOne action) d = .ok item)
    (judged : GuardPassed action item.facts) :
    ∃ data diff,d.tree.FileAt (relativeParts action.file) data ∧ diffEntry item = some diff ∧
      diff.path = action.file ∧ diff.beforeHash = some (sha256Bytes data) := by
  simp only [preflightOne,eval_bind_eq_ok] at prepared
  obtain ⟨⟨data,digest⟩,read,rest⟩ := prepared
  rcases kind with kind | kind
  · simp only [kind,eval_bind_eq_ok,eval_pure] at rest
    obtain ⟨⟨facts,operation⟩,made,ended⟩ := rest
    obtain rfl := Except.ok.inj ended
    obtain ⟨digest,rfl,op,rfl,known⟩ := update_noted kind rfl made judged
    obtain ⟨_,file,_,_⟩ := eval_readBytes.mp (eval_tryRead read)
    exact ⟨data,by simp [diffEntry,kind,known,file]⟩
  · simp only [kind,eval_bind_eq_ok,eval_pure] at rest
    obtain ⟨⟨facts,operation⟩,made,ended⟩ := rest
    obtain rfl := Except.ok.inj ended
    obtain ⟨digest,rfl,op,rfl,known⟩ := move_noted kind rfl made judged
    obtain ⟨_,file,_,_⟩ := eval_readBytes.mp (eval_tryRead read)
    exact ⟨data,by simp [diffEntry,kind,known,file]⟩

end Noting

section Planning

variable [Runtime] {s : AgentJobService} {jobId : Text} {request : JobRequest}
variable {planned : Except Exc (List Action)} {w u : World} {job : Job}
variable {action : Action} {actionIds : List Text} {d : Disk} {level : Nat}

def HashesTo (d : Disk) (path digest : Text) : Prop :=
  ∃ data,d.tree.FileAt (relativeParts path) data ∧ canonicalDigest digest = sha256Bytes data

/-- What a job was made from: the actions and digests of its record are those of a read of the
Vault that the policy let pass. -/
structure Previewed (s : AgentJobService) (d : Disk) (level : Nat) (job : Job) : Prop where
  made : ∃ preflight,eval ReadOp.answer (s.preflight job.record.proposedActions) d = .ok preflight ∧
    (s.policy.evaluateSet job.record.proposedActions preflight.facts level).decision ≠ .deny ∧
    job.record.beforeHash = beforeHashes preflight.diffs

structure Inherits (job later : Job) : Prop where
  actions : later.record.proposedActions = job.record.proposedActions
  hashes : later.record.beforeHash = job.record.beforeHash

theorem Inherits.previewed {later : Job} (inherits : Inherits job later)
    (previewed : Previewed s d level job) : Previewed s d level later := by
  obtain ⟨preflight,prepared,passed,hashes⟩ := previewed.made
  refine ⟨preflight,?_,?_,?_⟩
  · rwa [inherits.actions]
  · rwa [inherits.actions]
  · rwa [inherits.hashes]

theorem inherits_commit {record : HistoryRecord} {review : Review} {committed : Job}
    (ran : run SysOp.step (commit record review) w = (.ok committed,u)) (policy : Option PolicyView) :
    Inherits ⟨record,policy⟩ committed := by
  obtain ⟨proposed,w₁,_,saved⟩ := run_bind_eq_ok SysOp.step ran
  obtain ⟨_,w₂,_,ended⟩ := run_bind_eq_ok SysOp.step saved
  obtain rfl := Except.ok.inj (Prod.mk.inj ended).1
  exact ⟨rfl,rfl⟩

omit [Runtime] in
/-- A transaction that is not committed ends in an exception. -/
theorem terminal_raises {record : HistoryRecord} {status : JobStatus} {code : M7ErrorCode}
    {statusText codeText message : String} {result : RecoveryResult} {committed : Job} :
    run SysOp.step (terminal record status statusText code codeText message result) w ≠
      (.ok committed,u) := by
  intro ended
  obtain ⟨_,_,_,raised⟩ := run_bind_eq_ok SysOp.step ended
  cases (Prod.mk.inj raised).1

/-- A job is executed when its review passes and what the transaction has done is committed. -/
theorem committed_of_executeLocked {confirm : Bool} {committed : Job}
    (ran : run SysOp.step (s.executeLocked job confirm actionIds) w = (.ok committed,u)) :
    ∃ review v v',eval ReadOp.answer (s.review job confirm actionIds) w.disk = .ok review ∧
      run SysOp.step (commit job.record review) v = (.ok committed,v') := by
  obtain ⟨review,_,reviewed,saving⟩ := run_bind_eq_ok SysOp.step ran
  obtain ⟨_,_,_,executing⟩ := run_bind_eq_ok SysOp.step saving
  obtain ⟨result,v,_,ended⟩ := run_bind_eq_ok SysOp.step executing
  rw [run_liftLookSys] at reviewed
  refine ⟨review,v,u,(Prod.mk.inj reviewed).1,?_⟩
  cases status : result.status
  case committed => simpa only [status] using ended
  all_goals
    simp only [status] at ended
    first
    | exact absurd ended terminal_raises
    | cases (Prod.mk.inj ended).1

theorem inherits_executeLocked {confirm : Bool} {committed : Job}
    (ran : run SysOp.step (s.executeLocked job confirm actionIds) w = (.ok committed,u)) :
    Inherits job committed := by
  obtain ⟨_,_,_,_,kept⟩ := committed_of_executeLocked ran
  exact inherits_commit kept job.policy

theorem inherits_accept {confirm : Bool} {committed : Job}
    (ran : run SysOp.step (s.accept job confirm actionIds) w = (.ok committed,u)) :
    Inherits job committed := by
  obtain ⟨_,_,_,executed⟩ := run_bind_eq_ok SysOp.step ran
  exact inherits_executeLocked executed

structure Recorded (s : AgentJobService) (d : Disk) (level : Nat) (job : Job) : Prop where
  previewed : Previewed s d level job
  awaiting : job.record.status = .awaitingConfirmation
  executed : job.record.executedActions = []

omit [Runtime] in
theorem recordJob_ok {actions : List Action} {preflight : Preflight} {status : JobStatus}
    {record : HistoryRecord}
    (ran : run SysOp.step (recordJob jobId request actions preflight status) w = (.ok record,u)) :
    record.proposedActions = actions ∧ record.beforeHash = beforeHashes preflight.diffs ∧
      record.status = status ∧ record.executedActions = [] := by
  obtain ⟨_,_,_,saving⟩ := run_bind_eq_ok SysOp.step ran
  obtain ⟨_,_,_,ended⟩ := run_bind_eq_ok SysOp.step saving
  obtain rfl := Except.ok.inj (Prod.mk.inj ended).1
  exact ⟨rfl,rfl,rfl,rfl⟩

/-- A plan records a job, and may execute it as a whole. -/
theorem recorded_of_plan
    (made : run SysOp.step (s.plan jobId request planned) w = (.ok job,u)) :
    ∃ first,Recorded s w.disk request.permissionLevel first ∧ (job = first ∨
      ∃ v,run SysOp.step (s.executeLocked first true
        (first.record.proposedActions.map Action.actionId)) v = (.ok job,u)) := by
  obtain ⟨actions,_,requested,made⟩ := run_bind_eq_ok SysOp.step made
  obtain ⟨_,rfl⟩ := Prod.mk.inj requested
  obtain ⟨_,_,within,made⟩ := run_bind_eq_ok SysOp.step made
  obtain ⟨_,rfl⟩ := Prod.mk.inj within
  obtain ⟨preflight,_,read,made⟩ := run_bind_eq_ok SysOp.step made
  rw [run_liftLookSys] at read
  obtain ⟨prepared,rfl⟩ := Prod.mk.inj read
  obtain ⟨_,_,clean,made⟩ := run_bind_eq_ok SysOp.step made
  obtain ⟨_,rfl⟩ := Prod.mk.inj clean
  obtain ⟨_,_,judged,made⟩ := run_bind_eq_ok SysOp.step made
  rw [run_raiseIf] at judged
  obtain ⟨judged,rfl⟩ := Prod.mk.inj judged
  obtain ⟨record,_,recorded,made⟩ := run_bind_eq_ok SysOp.step made
  obtain ⟨rfl,hashes,awaiting,executed⟩ := recordJob_ok recorded
  have passed : (s.policy.evaluateSet record.proposedActions preflight.facts
      request.permissionLevel).decision ≠ .deny := by
    intro denied
    simp [denied] at judged
  have kept : ∀ policy,Recorded s w.disk request.permissionLevel ⟨record,policy⟩ :=
    fun policy => ⟨⟨preflight,prepared,passed,hashes⟩,awaiting,executed⟩
  split at made
  · exact ⟨_,kept _,.inr ⟨_,made⟩⟩
  · exact ⟨_,kept _,.inl (Except.ok.inj (Prod.mk.inj made).1).symm⟩

theorem previewed_of_plan
    (made : run SysOp.step (s.plan jobId request planned) w = (.ok job,u)) :
    Previewed s w.disk request.permissionLevel job := by
  obtain ⟨first,recorded,rfl | ⟨v,executed⟩⟩ := recorded_of_plan made
  · exact recorded.previewed
  · exact (inherits_executeLocked executed).previewed recorded.previewed

omit [Runtime] in
theorem file_mem_mutatedPaths (action : Action) : action.file ∈ mutatedPaths action := by
  unfold mutatedPaths
  split <;> simp

omit [Runtime] in
/-- An action is known by its file where no path is touched twice. -/
theorem eq_of_file {actions : List Action} {other : Action}
    (apart : (actions.flatMap mutatedPaths).Nodup) (here : action ∈ actions)
    (there : other ∈ actions) (same : other.file = action.file) : other = action := by
  by_contra distinct
  have : Std.Symm (Function.onFun List.Disjoint mutatedPaths) :=
    ⟨fun _ _ both => List.Disjoint.symm both⟩
  have disjoint : List.Disjoint (mutatedPaths other) (mutatedPaths action) :=
    (List.nodup_flatMap.mp apart).2.forall there here distinct
  apply disjoint (file_mem_mutatedPaths other)
  rw [same]
  exact file_mem_mutatedPaths action

omit [Runtime] in
theorem diffEntry_path [Host] {item : Prepared} {diff : DiffEntry}
    (entry : diffEntry item = some diff) : diff.path = item.action.file := by
  simp only [diffEntry] at entry
  split at entry
  · obtain rfl := Option.some.inj entry
    rfl
  · obtain rfl := Option.some.inj entry
    rfl
  · obtain ⟨data,_,rfl⟩ := Option.map_eq_some_iff.mp entry
    rfl

/-- The digest that planning noted of a note is the one the note had. -/
theorem noted_of_previewed (previewed : Previewed s d level job)
    (proposed : action ∈ job.record.proposedActions)
    (kind : action.action = .patchNote ∨ action.action = .moveNote) :
    ∃ data,d.tree.FileAt (relativeParts action.file) data ∧
      job.record.beforeHash.get action.file = some (sha256Bytes data) := by
  obtain ⟨preflight,prepared,passed,hashes⟩ := previewed.made
  obtain ⟨_,apart,each⟩ := evaluateSet_passed (preflight_lengths prepared) passed
  simp only [AgentJobService.preflight,eval_bind_eq_ok,eval_pure] at prepared
  obtain ⟨items,looked,same⟩ := prepared
  obtain rfl := Except.ok.inj same
  obtain ⟨named,made⟩ := preflightEach_each looked
  obtain ⟨item,listed,rfl⟩ : ∃ item ∈ items,item.action = action := by
    rw [← named] at proposed
    simpa using proposed
  have judged : GuardPassed item.action item.facts := by
    have judged := each (item.action,(counted (distinctFiles job.record.proposedActions).length
      item).facts) (by
        simp only [Preflight.facts,← named,List.map_map,List.zip_map']
        exact List.mem_map.mpr ⟨item,listed,rfl⟩)
    obtain ⟨existing,markdown,attachment,target,free⟩ := guardPassed kind judged
    exact ⟨existing,markdown,attachment,target,free⟩
  obtain ⟨data,diff,file,entry,path,digest⟩ := diffEntry_passed kind (made item listed) judged
  refine ⟨data,file,?_⟩
  rw [hashes]
  apply get_beforeHashes
  · exact ⟨diff,List.mem_filterMap.mpr ⟨item,listed,entry⟩,path⟩
  · intro other found there
    obtain ⟨twin,also,twinEntry⟩ := List.mem_filterMap.mp found
    have acts : ∀ item ∈ items,item.action ∈ job.record.proposedActions := by
      rw [← named]
      exact fun item member => List.mem_map.mpr ⟨item,member,rfl⟩
    have alike : twin.action = item.action :=
      eq_of_file apart (acts item listed) (acts twin also) ((diffEntry_path twinEntry).symm.trans there)
    have again := made twin also
    rw [alike,made item listed] at again
    obtain rfl := Except.ok.inj again
    obtain rfl := Option.some.inj (entry.symm.trans twinEntry)
    exact digest

inductive Later (s : AgentJobService) : Job → Job → Prop where
  | same {job : Job} : Later s job job
  | accepted {job committed later : Job} {actionIds : List Text} {w u : World}
    (ran : run SysOp.step (s.accept job true actionIds) w = (.ok committed,u))
    (rest : Later s committed later) : Later s job later

theorem Later.inherits {now : Job} (later : Later s job now) : Inherits job now := by
  induction later with
  | same => exact ⟨rfl,rfl⟩
  | accepted ran rest ih =>
    have first := inherits_accept ran
    exact ⟨ih.actions.trans first.actions,ih.hashes.trans first.hashes⟩

end Planning

section Refusing

variable [Host] {s : AgentJobService} {job : Job} {d : Disk} {action : Action}
variable {actionIds : List Text} {proposed selected : List Action}

def IsConflict (reason : Exc) : Prop :=
  ∃ message extra,reason = m7 .jobStateConflict message extra

omit [Host] in
theorem not_isConflict (message : String) : ¬ IsConflict (invalidAction message) := by
  rintro ⟨_,_,same⟩
  simp [invalidAction,m7] at same

omit [Host] in
theorem raises_supported {α : Type} (result : Except Patches.Unsupported α) :
    Raises (fun reason => ¬ IsConflict reason)
      (Proc.ofExcept (supported result) : Look α) := by
  cases result with
  | ok value => trivial
  | error message => exact not_isConflict message

omit [Host] in
theorem raises_tryRead (path : Text) :
    Raises (fun reason => ¬ IsConflict reason) (s.tryRead path) := by
  apply raises_andThen
  rintro (reason | content) <;> trivial

theorem raises_patched (action : Action) (facts : ActionFacts) (data : Bytes) (before : Text) :
    Raises (fun reason => ¬ IsConflict reason) (s.patched action facts data before) := by
  unfold patched
  cases action.action
  case addTags | removeTags | patchNote => exact (raises_supported _).bind fun _ => trivial
  case addLink =>
    cases action.linkTarget with
    | none => exact not_isConflict _
    | some target =>
      exact (raises_tryRead target).bind fun _ => (raises_supported _).bind fun _ => trivial
  case createNote | moveNote => trivial

theorem raises_preflightUpdate (action : Action) (facts : ActionFacts) (data : Bytes)
    (digest : Option Text) :
    Raises (fun reason => ¬ IsConflict reason) (s.preflightUpdate action facts data digest) := by
  cases digest with
  | none => trivial
  | some digest =>
    simp only [preflightUpdate]
    generalize (if action.action = .addLink then _ else facts : ActionFacts) = judged
    split
    · trivial
    · split
      · exact not_isConflict _
      · exact (raises_patched _ _ _ _).bind fun _ => trivial

theorem raises_preflightMove (action : Action) (facts : ActionFacts) (data : Bytes)
    (digest : Option Text) :
    Raises (fun reason => ¬ IsConflict reason) (s.preflightMove action facts data digest) := by
  simp only [preflightMove]
  split
  · refine Raises.bind trivial fun found => ?_
    split
    · split <;> trivial
    · trivial
  · refine Raises.bind (raises_andThen ?_) fun found => ?_
    · rintro (reason | content) <;> trivial
    · split
      · split <;> trivial
      · trivial

omit [Host] in
theorem raises_preflightCreate (action : Action) (facts : ActionFacts) :
    Raises (fun reason => ¬ IsConflict reason)
      (Proc.ofExcept (preflightCreate action facts) :
        Look (ActionFacts × Option TransactionOperation)) := by
  unfold preflightCreate
  cases decodeUtf8 (action.content.getD .empty) with
  | none => exact not_isConflict _
  | some text =>
    dsimp only
    split
    · trivial
    · cases action.content with
      | none => exact not_isConflict _
      | some after => trivial

/-- A preflight that cannot be made is not a conflict. -/
theorem raises_preflightOne (action : Action) :
    Raises (fun reason => ¬ IsConflict reason) (s.preflightOne action) := by
  apply (raises_tryRead _).bind
  rintro ⟨data,digest⟩
  dsimp only
  split
  · exact (raises_preflightCreate _ _).bind fun _ => trivial
  · exact (raises_preflightMove _ _ _ _).bind fun _ => trivial
  · exact (raises_preflightUpdate _ _ _ _).bind fun _ => trivial

theorem raises_preflight (actions : List Action) :
    Raises (fun reason => ¬ IsConflict reason) (s.preflight actions) := by
  refine Raises.bind ?_ fun _ => trivial
  induction actions with
  | nil => trivial
  | cons action rest ih =>
    exact (raises_preflightOne action).bind fun _ => ih.bind fun _ => trivial

omit [Host] in
/-- What is compared before a job is executed. -/
theorem compared {record : HistoryRecord} {actions : List Action}
    (passed : eval ReadOp.answer (s.assertPreviewHashes record actions) d = .ok ())
    (member : action ∈ actions) {digest : Text}
    (noted : record.beforeHash.get action.file = some digest) :
    ∃ data,d.tree.FileAt (relativeParts action.file) data ∧ sha256Bytes data = digest := by
  induction actions with
  | nil => simp at member
  | cons first rest ih =>
    rw [assertPreviewHashes] at passed
    cases expected : record.beforeHash.get first.file with
    | none =>
      simp only [expected] at passed
      rcases List.mem_cons.mp member with rfl | later
      · simp [noted] at expected
      · exact ih passed later
    | some known =>
      simp only [expected,eval_andThen] at passed
      cases read : eval ReadOp.answer (s.vault.readBytes first.file) d with
      | error reason => simp [read] at passed
      | ok content =>
        obtain ⟨data,found⟩ := content
        simp only [read,eval_bind_eq_ok,eval_raiseIf] at passed
        obtain ⟨_,same,passed⟩ := passed
        rcases List.mem_cons.mp member with rfl | later
        · obtain ⟨_,file,_,rfl⟩ := eval_readBytes.mp read
          obtain rfl := Option.some.inj (noted.symm.trans expected)
          refine ⟨data,file,?_⟩
          by_contra differs
          simp [differs] at same
        · exact ih passed later

omit [Host] in
theorem conflict_of_assertPreviewHashes {record : HistoryRecord} {actions : List Action}
    {reason : Exc}
    (refused : eval ReadOp.answer (s.assertPreviewHashes record actions) d = .error reason) :
    IsConflict reason := by
  induction actions with
  | nil => cases refused
  | cons first rest ih =>
    rw [assertPreviewHashes] at refused
    cases expected : record.beforeHash.get first.file with
    | none =>
      simp only [expected] at refused
      exact ih refused
    | some known =>
      simp only [expected,eval_andThen] at refused
      cases read : eval ReadOp.answer (s.vault.readBytes first.file) d with
      | error failed =>
        simp only [read,eval_throw] at refused
        exact ⟨_,_,(Except.error.inj refused).symm⟩
      | ok content =>
        obtain ⟨data,found⟩ := content
        simp only [read,eval_bind,eval_raiseIf] at refused
        by_cases differs : found = known
        · simp only [differs,ne_eq,not_true_eq_false,if_false] at refused
          exact ih refused
        · simp only [ne_eq,differs,not_false_eq_true,if_true] at refused
          exact ⟨_,_,(Except.error.inj refused).symm⟩

end Refusing

section Guarding

variable [Runtime] {s : AgentJobService} {jobId : Text} {request : JobRequest}
variable {planned : Except Exc (List Action)} {w u : World} {job now : Job}
variable {action : Action} {actionIds : List Text} {proposed selected : List Action}

omit [Runtime] in
/-- Validating an action keeps the text of its path. -/
theorem modelValidate_file [Host] {valid : Action} (checked : action.modelValidate = .ok valid) :
    valid.file = action.file := by
  cases named : validateRelativePath action.file false with
  | error reason =>
    simp only [Action.modelValidate,named,bind,Except.bind] at checked
    split at checked <;> cases checked
  | ok file =>
    obtain ⟨_,rfl⟩ := validate_iff.mp named
    simp only [Action.modelValidate,named,bind,Except.bind,pure,Except.pure] at checked
    repeat' split at checked
    all_goals first
      | rw [← Except.ok.inj checked]
      | cases checked

omit [Runtime] in
theorem original_of_validated [Host] {actions : List Action}
    (validated : actions.mapM Action.modelValidate = .ok proposed) (member : action ∈ proposed) :
    ∃ original ∈ actions,original.modelValidate = .ok action := by
  have each := validated_each validated
  clear validated
  induction each with
  | nil => simp at member
  | @cons original kept rest others first _ ih =>
    rcases List.mem_cons.mp member with rfl | later
    · exact ⟨original,List.mem_cons_self,first⟩
    · obtain ⟨origin,listed,same⟩ := ih later
      exact ⟨origin,List.mem_cons_of_mem _ listed,same⟩

omit [Runtime] in
/-- An action that is selected is one of those of the record. -/
theorem original_of_selected [Host] {record : HistoryRecord}
    (stored : actionsFromRecord record = .ok proposed)
    (chosen : selectActions proposed actionIds record.jobId = .ok selected)
    (member : action ∈ selected) :
    ∃ original ∈ record.proposedActions,original.modelValidate = .ok action := by
  have listed : action ∈ proposed := by
    unfold selectActions at chosen
    split at chosen
    · obtain rfl := Except.ok.inj chosen
      exact member
    · split at chosen
      · obtain rfl := Except.ok.inj chosen
        exact List.mem_of_mem_filter member
      · cases chosen
  unfold actionsFromRecord at stored
  split at stored
  next valid validated =>
    obtain rfl := Except.ok.inj stored
    exact original_of_validated validated listed
  · cases stored

/-- The note is the one whose digest the action carries. -/
def AsExpected (d : Disk) (action : Action) : Prop :=
  ∃ digest ∈ action.expectedSha256,HashesTo d action.file digest

/-- The guard of an action over a planned job and an acceptance of it: the job was planned on the
note that the action expects, the acceptance changes the Vault only if the note still is that one,
and where it is another the acceptance is refused with a conflict and changes nothing. -/
structure Guarded (s : AgentJobService) (now : Job) (actionIds : List Text) (action : Action)
    (planning : Disk) (v : World) : Prop where
  planned : AsExpected planning action
  written : (run SysOp.step (s.accept now true actionIds) v).2.disk ≠ v.disk →
    AsExpected v.disk action
  refused : ¬ AsExpected v.disk action → ∃ reason,
    run SysOp.step (s.accept now true actionIds) v = (.error reason,v) ∧ IsConflict reason

theorem run_accept_refused {reason : Exc} {v : World}
    (refused : eval ReadOp.answer (s.review now true actionIds) v.disk = .error reason) :
    run SysOp.step (s.accept now true actionIds) v = (.error reason,v) := by
  simp only [accept,executeLocked,run_bind,run_raiseIf,run_liftLookSys,refused,
    Bool.true_eq_false,if_false]

/-- An acceptance of an action whose note is not the one of the plan is refused. -/
theorem review_refused {d : Disk} {digest : Text}
    (stored : actionsFromRecord now.record = .ok proposed)
    (chosen : selectActions proposed actionIds now.record.jobId = .ok selected)
    (member : action ∈ selected)
    (noted : now.record.beforeHash.get action.file = some digest)
    (differs : ∀ data,d.tree.FileAt (relativeParts action.file) data → sha256Bytes data ≠ digest) :
    ∃ reason,eval ReadOp.answer (s.review now true actionIds) d = .error reason ∧
      (IsConflict reason ↔ now.record.status ≠ .awaitingConfirmation ∨
        ∃ preflight,eval ReadOp.answer (s.preflight selected) d = .ok preflight) := by
  by_cases awaiting : now.record.status = .awaitingConfirmation
  · cases prepared : eval ReadOp.answer (s.preflight selected) d with
    | error reason =>
      refine ⟨reason,?_,?_⟩
      · simp [AgentJobService.review,eval_bind,awaiting,stored,chosen,prepared]
      · have apart : ¬ IsConflict reason := (raises_preflight selected).eval prepared
        simp [apart,awaiting]
    | ok preflight =>
      cases asserted : eval ReadOp.answer (s.assertPreviewHashes now.record selected) d with
      | ok _ =>
        obtain ⟨data,file,same⟩ := compared asserted member noted
        exact absurd same (differs data file)
      | error reason =>
        refine ⟨reason,?_,?_⟩
        · simp [AgentJobService.review,eval_bind,awaiting,stored,chosen,prepared,asserted]
        · simp [conflict_of_assertPreviewHashes asserted]
  · refine ⟨jobStateConflict "job is not awaiting confirmation",?_,?_⟩
    · simp [AgentJobService.review,eval_bind,awaiting]
    · have conflict : IsConflict (jobStateConflict "job is not awaiting confirmation") :=
        ⟨_,_,rfl⟩
      simp [conflict,awaiting]

/-- For every planned job, whatever acceptances have come before, and whatever the Vault has become:
a selected patch or move is guarded exactly when the job was planned on the note that the action
expects and an acceptance that finds another note still gets to the comparison, or is refused
because the job is not awaiting a confirmation. -/
theorem guarded_iff (made : run SysOp.step (s.plan jobId request planned) w = (.ok job,u))
    (later : Later s job now) (stored : actionsFromRecord now.record = .ok proposed)
    (chosen : selectActions proposed actionIds now.record.jobId = .ok selected)
    (member : action ∈ selected)
    (kind : action.action = .patchNote ∨ action.action = .moveNote) (v : World) :
    Guarded s now actionIds action w.disk v ↔ AsExpected w.disk action ∧
      (AsExpected v.disk action ∨ now.record.status ≠ .awaitingConfirmation ∨
        ∃ preflight,eval ReadOp.answer (s.preflight selected) v.disk = .ok preflight) := by
  obtain ⟨original,listed,validated⟩ := original_of_selected stored chosen member
  have file := modelValidate_file validated
  have previewed := later.inherits.previewed (previewed_of_plan made)
  obtain ⟨data,found,noted⟩ := noted_of_previewed previewed listed
    (by rwa [← (modelValidate_kept validated).1])
  rw [← file] at found noted
  -- What the plan noted is the digest the action expects, where it was planned on that note.
  have moved : AsExpected w.disk action → ¬ AsExpected v.disk action →
      ∀ other,v.disk.tree.FileAt (relativeParts action.file) other →
        sha256Bytes other ≠ sha256Bytes data := by
    rintro ⟨digest,carried,held,there,same⟩ unexpected other here alike
    have : held = data := by
      have both := there.2.symm.trans found.2
      simpa using both
    subst this
    exact unexpected ⟨digest,carried,other,here,same.trans alike.symm⟩
  constructor
  · rintro ⟨expected,written,refused⟩
    refine ⟨expected,?_⟩
    by_cases still : AsExpected v.disk action
    · exact .inl still
    · right
      obtain ⟨reason,ended,conflict⟩ := refused still
      obtain ⟨told,reviewed,decided⟩ := review_refused (s := s) stored chosen member noted
        (moved expected still)
      rw [run_accept_refused reviewed] at ended
      obtain rfl := Except.error.inj (Prod.mk.inj ended).1
      exact decided.mp conflict
  · rintro ⟨expected,refusable⟩
    refine ⟨expected,?_,?_⟩
    · intro changed
      by_contra unexpected
      obtain ⟨reason,reviewed,_⟩ := review_refused (s := s) stored chosen member noted
        (moved expected unexpected)
      rw [run_accept_refused reviewed] at changed
      exact changed rfl
    · intro unexpected
      obtain ⟨reason,reviewed,conflict⟩ := review_refused (s := s) stored chosen member noted
        (moved expected unexpected)
      exact ⟨reason,run_accept_refused reviewed,conflict.mpr (refusable.resolve_left unexpected)⟩

end Guarding

section Carried

open scoped AsciiRuntime

def moving : AgentJobService where
  vault := ⟨100,hundred_pos⟩
  policy := PolicyEngine.init {}
  recovery := ⟨⟨100,hundred_pos⟩,100⟩
  frontmatter := Runner.loadsTags
  protectedPrefixes := defaultProtectedPrefixes
  maxJournalBytes := 100

def helloData : Bytes := "hello".toUTF8

/-- A move of the only note, with the digest it carries. -/
def moveOf (digest : Text) : Action where
  actionId := "a".toList
  action := .moveNote
  file := "a.md".toList
  targetFile := some "b.md".toList
  expectedSha256 := some digest

def moveRequest (digest : Text) : JobRequest := {actions := [moveOf digest]}

def noteVault : World where
  disk := Disk.bare.setTree ["a.md".toList] (some (.file helloData))
  db := Db.empty

def plannedMove (digest : Text) : Except Exc Job × World :=
  run SysOp.step (moving.plan "j".toList (moveRequest digest) (.ok [])) noteVault

theorem job_of_planned {outcome : Except Exc Job × World} {actions : List Action}
    (planned : (outcome.1.toOption.bind fun job =>
      (actionsFromRecord job.record).toOption) = some actions) :
    ∃ job u,outcome = (.ok job,u) ∧ actionsFromRecord job.record = .ok actions := by
  obtain ⟨result | job,u⟩ := outcome
  · cases planned
  · refine ⟨job,u,rfl,?_⟩
    cases stored : actionsFromRecord job.record with
    | error reason => simp [Except.toOption,stored] at planned
    | ok found => simpa [Except.toOption,stored] using planned

theorem noteVault_file :
    noteVault.disk.tree.FileAt (relativeParts "a.md".toList) helloData := by
  have vacant : Disk.bare.tree.VacantAt ["a.md".toList] := by
    refine ⟨fun p below => ?_,by decide +kernel⟩
    obtain rfl : p = [] := by simpa using below
    decide +kernel
  exact file_of_vacant vacant

/-- A move is planned and accepted on a note of another digest than the one it carries. -/
theorem otherNote_moved : ¬ ∀ (s : AgentJobService) (jobId : Text) (request : JobRequest)
    (w u v : World) (job : Job) (actionIds : List Text) (proposed selected : List Action)
    (action : Action), run SysOp.step (s.plan jobId request (.ok [])) w = (.ok job,u) →
    actionsFromRecord job.record = .ok proposed →
    selectActions proposed actionIds job.record.jobId = .ok selected → action ∈ selected →
    action.action = .moveNote → action.expectedSha256 ≠ none →
    Guarded s job actionIds action w.disk v := by
  intro guarded
  have planned : ((plannedMove (List.replicate 64 '0')).1.toOption.bind fun job =>
      (actionsFromRecord job.record).toOption) = some [moveOf (List.replicate 64 '0')] := by
    decide +kernel
  obtain ⟨job,u,made,stored⟩ := job_of_planned planned
  have moved : ((plannedMove (List.replicate 64 '0')).1.toOption.map fun job =>
      (run SysOp.step (moving.accept job true []) noteVault).2.disk.tree.get ["b.md".toList]) =
        some (some (.file helloData)) := by decide +kernel
  have changed : (run SysOp.step (moving.accept job true []) noteVault).2.disk ≠
      noteVault.disk := by
    intro same
    have absent : noteVault.disk.tree.get ["b.md".toList] = none := by decide +kernel
    rw [made] at moved
    have there : (run SysOp.step (moving.accept job true []) noteVault).2.disk.tree.get
        ["b.md".toList] = some (.file helloData) := Option.some.inj moved
    rw [same,absent] at there
    cases there
  have guard := guarded moving "j".toList _ noteVault u noteVault job [] _ _ _ made stored rfl
    (List.mem_singleton.mpr rfl) rfl (by simp [moveOf])
  obtain ⟨digest,carried,data,there,same⟩ := guard.written changed
  obtain rfl := Option.some.inj carried
  obtain rfl : data = helloData := by
    have both := there.2.symm.trans noteVault_file.2
    simpa using both
  revert same
  decide +kernel

/-- The guard over a plan and an acceptance of a move of the note that the action expects. -/
theorem ownNote_guarded : ∃ (job : Job) (u : World),
    run SysOp.step (moving.plan "j".toList (moveRequest (sha256Bytes helloData)) (.ok []))
      noteVault = (.ok job,u) ∧
    Guarded moving job [] (moveOf (sha256Bytes helloData)) noteVault.disk noteVault := by
  have planned : ((plannedMove (sha256Bytes helloData)).1.toOption.bind fun job =>
      (actionsFromRecord job.record).toOption) = some [moveOf (sha256Bytes helloData)] := by
    decide +kernel
  obtain ⟨job,u,made,stored⟩ := job_of_planned planned
  have expected : AsExpected noteVault.disk (moveOf (sha256Bytes helloData)) :=
    ⟨_,rfl,helloData,noteVault_file,canonicalDigest_sha256Bytes helloData⟩
  exact ⟨job,u,made,(guarded_iff made .same stored rfl (List.mem_singleton.mpr rfl) (.inr rfl)
    noteVault).mpr ⟨expected,.inl expected⟩⟩

end Carried

end Agents.AgentJobService

end LocalBook
