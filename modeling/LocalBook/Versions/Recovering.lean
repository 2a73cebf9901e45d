import LocalBook.Keeps
import LocalBook.Versions.Store

/-! What a crash or a failing command leaves of the version store, and whether the next
snapshot makes up for it. -/
namespace LocalBook.Versions

open Effect

variable {Tree : Type} [DecidableEq Tree] [EmptyCollection Tree]

/-- A call of `snapshot`: which of its commands fail, and after how many the process dies. -/
structure Call (Tree : Type) where
  vault : Tree
  reason : Text
  fates : List Bool := []
  cut : Option Nat := none

def Call.after (disk : Disk Tree) (call : Call Tree) : Disk Tree :=
  match call.cut with
  | none => (run faulty (snapshot call.vault call.reason) (disk,call.fates)).2.1
  | some n => (crash faulty n (snapshot call.vault call.reason) (disk,call.fates)).1

def afterCalls (calls : List (Call Tree)) : Disk Tree := calls.foldl Call.after {}

omit [DecidableEq Tree] [EmptyCollection Tree] in
/-- The commit `HEAD` names. -/
def Disk.head (disk : Disk Tree) : Option (Commit Tree) := disk.repo.bind Repo.head

/-- The configuration names `HEAD`, nothing is pending, and `HEAD` has the files of the
Vault. -/
structure Settled (vault : Tree) (disk : Disk Tree) : Prop where
  lastSnapshot : (disk.config.bind Config.lastSnapshot) = disk.head.map Commit.id
  idle : disk.pending = none
  tree : (disk.head.map Commit.tree).getD ∅ = vault

/-- A snapshot of any Vault, with a message, succeeds when nothing fails, and settles. -/
def Recovers (disk : Disk Tree) : Prop :=
  ∀ vault reason, ¬ Blank reason → ∃ result after,
    run perform (snapshot vault reason) disk = (.ok result,after) ∧ Settled vault after

/-- A journal of a snapshot that was to be the first, and was not committed. -/
def Stranded (disk : Disk Tree) : Prop := disk.pending = some .prepared ∧ disk.head = none

structure Safe (disk : Disk Tree) : Prop where
  fresh : disk.config = none → disk.pending = none
  idle : disk.pending = none →
    (disk.config.bind Config.lastSnapshot) = disk.head.map Commit.id
  committed : ∀ commit, disk.pending = some (.committed commit) →
    disk.head.map Commit.id = some commit

section Rules

variable {op : Op Tree} {disk : Disk Tree} {fates : List Bool} {s : Disk Tree × List Bool}

omit [DecidableEq Tree] [EmptyCollection Tree] in
theorem git_none {command : Repo Tree → Option (α × Repo Tree)} {after : Disk Tree}
    (failed : git disk command = (none,after)) : after = disk := by
  unfold git at failed
  split at failed
  · cases failed
  · exact (Prod.mk.inj failed).2.symm

theorem perform_none {after : Disk Tree} (failed : perform op disk = (none,after)) :
    after = disk := by
  cases op <;> first
    | exact git_none failed
    | cases failed

theorem faulty_cases (op : Op Tree) (s : Disk Tree × List Bool) :
    (∃ answer after rest, perform op s.1 = (some answer,after) ∧
      faulty op s = (some answer,(after,rest))) ∨ ∃ rest, faulty op s = (none,(s.1,rest)) := by
  obtain ⟨disk,fates⟩ := s
  have plain : ∀ rest, ((perform op disk).1,((perform op disk).2,rest)) = faulty op (disk,fates) →
      (∃ answer after rest, perform op disk = (some answer,after) ∧
        faulty op (disk,fates) = (some answer,(after,rest))) ∨
          ∃ rest, faulty op (disk,fates) = (none,(disk,rest)) := by
    intro rest same
    cases ran : perform op disk with
    | mk answer after =>
      rw [ran] at same
      cases answer with
      | some answer => exact .inl ⟨answer,after,rest,rfl,same.symm⟩
      | none => exact .inr ⟨rest,(perform_none ran) ▸ same.symm⟩
  match fates with
  | true :: rest => exact .inr ⟨rest,rfl⟩
  | false :: rest => exact plain rest rfl
  | [] => exact plain [] rfl

abbrev KeepsSafe (p : Action Tree α) (s : Disk Tree × List Bool)
    (Q : α → Disk Tree × List Bool → Prop) : Prop :=
  Keeps faulty (fun s => Safe s.1) (fun s => Safe s.1) p s Q

theorem keeps_attempt {Q : Res op → Disk Tree × List Bool → Prop} (here : Safe s.1)
    (answered : ∀ answer after rest, perform op s.1 = (some answer,after) →
      Safe after ∧ Q (some answer) (after,rest))
    (failed : ∀ rest, Q none (s.1,rest)) : KeepsSafe (attempt op) s Q := by
  refine ⟨here,?_⟩
  rcases faulty_cases op s with ⟨answer,after,rest,ran,same⟩ | ⟨rest,same⟩
  · rw [same]
    exact answered answer after rest ran
  · rw [same]
    exact ⟨here,failed rest⟩

theorem keeps_check {Q : op.Answer → Disk Tree × List Bool → Prop} (here : Safe s.1)
    (answered : ∀ answer after rest, perform op s.1 = (some answer,after) →
      Safe after ∧ Q answer (after,rest)) : KeepsSafe (check op) s Q := by
  refine (keeps_attempt here ?_ ?_).bind
  · intro answer after rest ran
    obtain ⟨safe,post⟩ := answered answer after rest ran
    exact ⟨safe,safe,post⟩
  · exact fun rest => ⟨here,here⟩

omit [DecidableEq Tree] [EmptyCollection Tree] in
theorem git_some {command : Repo Tree → Option (α × Repo Tree)} {answer : α}
    {after : Disk Tree} (ran : git disk command = (some answer,after)) :
    ∃ repo repo', disk.repo = some repo ∧ command repo = some (answer,repo') ∧
      after = {disk with repo := some repo'} := by
  unfold git at ran
  split at ran
  · rename_i answer' repo' found
    obtain ⟨repo,here,run_⟩ := Option.bind_eq_some_iff.mp found
    simp only [Prod.mk.injEq,Option.some.injEq] at ran
    obtain ⟨rfl,rfl⟩ := ran
    exact ⟨repo,repo',here,run_,rfl⟩
  · cases (Prod.mk.inj ran).1

omit [DecidableEq Tree] [EmptyCollection Tree] in
/-- The configuration, the journal and `HEAD` are what they were. -/
structure Untouched (disk after : Disk Tree) : Prop where
  config : after.config = disk.config
  pending : after.pending = disk.pending
  head : after.head = disk.head

omit [DecidableEq Tree] [EmptyCollection Tree] in
theorem Safe.untouched {after : Disk Tree} (safe : Safe disk) (same : Untouched disk after) :
    Safe after := by
  obtain ⟨config,pending,head⟩ := same
  exact ⟨config ▸ pending ▸ safe.fresh,config ▸ pending ▸ head ▸ safe.idle,
    pending ▸ head ▸ safe.committed⟩

def Op.isLook : Op Tree → Bool
  | .repoExists | .configExists | .readPending | .stage | .revParseHead => true
  | .readTree | .addAll _ | .diffCached => true
  | _ => false

theorem untouched_look {answer : op.Answer} {after : Disk Tree} (look : op.isLook = true)
    (ran : perform op disk = (some answer,after)) : Untouched disk after := by
  cases op with
  | repoExists | configExists | readPending | stage =>
    obtain rfl := (Prod.mk.inj ran).2
    exact ⟨rfl,rfl,rfl⟩
  | revParseHead =>
    obtain ⟨repo,repo',here,command,rfl⟩ := git_some ran
    obtain ⟨commit,-,same⟩ := Option.map_eq_some_iff.mp command
    obtain rfl := (Prod.mk.inj same).2
    exact ⟨rfl,rfl,by simp [Disk.head,here]⟩
  | readTree =>
    obtain ⟨repo,repo',here,command,rfl⟩ := git_some ran
    obtain rfl := (Prod.mk.inj (Option.some.inj command)).2
    exact ⟨rfl,rfl,by simp [Disk.head,here]⟩
  | addAll staging =>
    obtain ⟨repo,repo',here,command,rfl⟩ := git_some ran
    obtain rfl := (Prod.mk.inj (Option.some.inj command)).2
    exact ⟨rfl,rfl,by simp [Disk.head,here]⟩
  | diffCached =>
    obtain ⟨repo,repo',here,command,rfl⟩ := git_some ran
    obtain ⟨-,same⟩ := Option.ite_none_right_eq_some.mp command
    obtain rfl := (Prod.mk.inj (Option.some.inj same)).2
    exact ⟨rfl,rfl,by simp [Disk.head,here]⟩
  | _ => cases look

theorem keeps_look {Q : op.Answer → Disk Tree × List Bool → Prop} (look : op.isLook = true)
    (here : Safe s.1) (answered : ∀ answer after rest, perform op s.1 = (some answer,after) →
      Untouched s.1 after → Q answer (after,rest)) : KeepsSafe (check op) s Q := by
  refine keeps_check here fun answer after rest ran => ?_
  have same := untouched_look look ran
  exact ⟨here.untouched same,answered answer after rest ran same⟩

end Rules

section Steps

variable {disk : Disk Tree} {s : Disk Tree × List Bool}

omit [DecidableEq Tree] [EmptyCollection Tree] in
theorem safe_idle (idle : disk.pending = none)
    (named : (disk.config.bind Config.lastSnapshot) = disk.head.map Commit.id) : Safe disk := by
  refine ⟨fun _ => idle,fun _ => named,fun commit pending => ?_⟩
  rw [idle] at pending
  cases pending

omit [DecidableEq Tree] [EmptyCollection Tree] in
theorem safe_prepared (configured : disk.config ≠ none)
    (prepared : disk.pending = some .prepared) : Safe disk := by
  refine ⟨fun absent => absurd absent configured,fun idle => ?_,fun commit pending => ?_⟩
  · rw [prepared] at idle
    cases idle
  · rw [prepared] at pending
    cases pending

omit [DecidableEq Tree] [EmptyCollection Tree] in
theorem safe_committed {commit : CommitId} (configured : disk.config ≠ none)
    (committed : disk.pending = some (.committed commit))
    (head : disk.head.map Commit.id = some commit) : Safe disk := by
  refine ⟨fun absent => absurd absent configured,fun idle => ?_,fun other pending => ?_⟩
  · rw [committed] at idle
    cases idle
  · rw [committed] at pending
    obtain rfl := Journal.committed.inj (Option.some.inj pending)
    exact head

theorem keeps_enable (here : Safe s.1) : KeepsSafe enable s fun _ t =>
    Safe t.1 ∧ t.1.config ≠ none := by
  refine (keeps_look (Q := fun (answer : Bool) t => Safe t.1 ∧
    (answer = false → t.1.repo = none)) rfl here ?_).then fun made t fine => ?_
  · intro answer after rest ran same
    refine ⟨here.untouched same,fun absent => ?_⟩
    obtain ⟨answered,rfl⟩ := Prod.mk.inj ran
    have seen : s.1.repo.isSome = answer := Option.some.inj answered
    rwa [absent,Option.isSome_eq_false_iff,Option.isNone_iff_eq_none] at seen
  obtain ⟨safe,absent⟩ := fine
  refine Keeps.then (Q := fun _ t => Safe t.1) ?_ fun _ t safe => ?_
  · cases made with
    | true => exact keeps_pure safe safe
    | false =>
      refine keeps_check safe fun answer after rest ran => ?_
      obtain rfl := (Prod.mk.inj ran).2
      have none_ : t.1.head = none := by rw [Disk.head,absent rfl,Option.bind_none]
      have after : Safe {t.1 with repo := some {index := ∅}} :=
        safe.untouched ⟨rfl,rfl,none_.symm⟩
      exact ⟨after,after⟩
  · refine (keeps_look (Q := fun (answer : Bool) t => Safe t.1 ∧ (answer = decide (t.1.config ≠ none)))
      rfl safe ?_).then fun configured t fine => ?_
    · intro answer after rest ran same
      refine ⟨safe.untouched same,?_⟩
      obtain ⟨answered,rfl⟩ := Prod.mk.inj ran
      rw [← (Option.some.inj answered : t.1.config.isSome = answer)]
      cases t.1.config <;> simp
    · obtain ⟨safe,known⟩ := fine
      cases configured with
      | true => exact keeps_pure safe ⟨safe,of_decide_eq_true known.symm⟩
      | false =>
        refine keeps_check safe fun answer after rest ran => ?_
        obtain rfl := (Prod.mk.inj ran).2
        have absent : t.1.config = none := by simpa using known
        have idle := safe.fresh absent
        have named := safe.idle idle
        rw [absent] at named
        have after : Safe {t.1 with config := some {}} := safe_idle idle named
        exact ⟨after,after,by simp⟩

/-- The end of a recovery, where the commit that was found is `HEAD`. -/
theorem keeps_settle {commit : CommitId} (here : Safe s.1)
    (found : s.1.head.map Commit.id = some commit) : KeepsSafe (settle commit) s fun _ t =>
    Safe t.1 ∧ t.1.config ≠ none ∧ t.1.pending = none := by
  refine (keeps_check (Q := fun _ t => Safe t.1 ∧ t.1.config =
    some {lastSnapshot := some commit} ∧ t.1.head.map Commit.id = some commit) here
      fun answer after rest ran => ?_).then fun _ t fine => ?_
  · obtain rfl := (Prod.mk.inj ran).2
    have after : Safe {s.1 with config := some {lastSnapshot := some commit}} := by
      refine ⟨fun impossible => ?_,fun _ => found.symm,here.committed⟩
      cases impossible
    exact ⟨after,after,rfl,found⟩
  · obtain ⟨safe,config,head⟩ := fine
    refine keeps_check safe fun answer after rest ran => ?_
    obtain rfl := (Prod.mk.inj ran).2
    have named : (t.1.config.bind Config.lastSnapshot) = t.1.head.map Commit.id := by
      rw [config,head]
      rfl
    have after : Safe {t.1 with pending := none} := safe_idle rfl named
    exact ⟨after,after,by simp [config],rfl⟩

theorem keeps_recoverPending (here : Safe s.1) (configured : s.1.config ≠ none) :
    KeepsSafe recoverPending s fun _ t =>
      Safe t.1 ∧ t.1.config ≠ none ∧ t.1.pending = none := by
  refine (keeps_look (Q := fun (answer : Option Journal) t => Safe t.1 ∧ t.1.config ≠ none ∧
    t.1.pending = answer) rfl here ?_).then fun pending t fine => ?_
  · intro answer after rest ran same
    obtain ⟨answered,rfl⟩ := Prod.mk.inj ran
    exact ⟨here,configured,Option.some.inj answered⟩
  obtain ⟨safe,configured,known⟩ := fine
  match pending,known with
  | none,known => exact keeps_pure safe ⟨safe,configured,known⟩
  | some (.committed commit),known => exact keeps_settle safe (safe.committed commit known)
  | some .prepared,known =>
    refine (keeps_look (Q := fun (commit : CommitId) t => Safe t.1 ∧
      t.1.head.map Commit.id = some commit)
      rfl safe ?_).then fun commit t fine => keeps_settle fine.1 fine.2
    intro answer after rest ran same
    obtain ⟨repo,repo',present,command,rfl⟩ := git_some ran
    obtain ⟨commit,head,equal⟩ := Option.map_eq_some_iff.mp command
    obtain ⟨rfl,rfl⟩ := Prod.mk.inj equal
    exact ⟨safe.untouched same,by simp [Disk.head,head]⟩

theorem keeps_commitStaged {reason : Text} (here : Safe s.1) (configured : s.1.config ≠ none) :
    KeepsSafe (commitStaged reason) s fun _ t => Safe t.1 := by
  refine (keeps_check (Q := fun _ t => Safe t.1 ∧ t.1.config ≠ none ∧
    t.1.pending = some .prepared) here fun answer after rest ran => ?_).then fun _ t fine => ?_
  · obtain rfl := (Prod.mk.inj ran).2
    have after : Safe {s.1 with pending := some .prepared} := safe_prepared configured rfl
    exact ⟨after,after,configured,rfl⟩
  obtain ⟨safe,configured,prepared⟩ := fine
  refine (keeps_check (Q := fun _ t => t.1.config ≠ none ∧ t.1.pending = some .prepared) safe
    fun answer after rest ran => ?_).then fun _ t fine => ?_
  · obtain ⟨repo,repo',-,-,rfl⟩ := git_some ran
    exact ⟨safe_prepared configured prepared,configured,prepared⟩
  obtain ⟨configured,prepared⟩ := fine
  refine (keeps_look (Q := fun (commit : CommitId) t => t.1.config ≠ none ∧
    t.1.pending = some .prepared ∧ t.1.head.map Commit.id = some commit) rfl
      (safe_prepared configured prepared) ?_).then fun commit t fine => ?_
  · intro answer after rest ran same
    obtain ⟨repo,repo',present,command,rfl⟩ := git_some ran
    obtain ⟨commit,head,equal⟩ := Option.map_eq_some_iff.mp command
    obtain ⟨rfl,rfl⟩ := Prod.mk.inj equal
    exact ⟨configured,prepared,by simp [Disk.head,head]⟩
  obtain ⟨configured,prepared,head⟩ := fine
  refine (keeps_check (Q := fun _ t => Safe t.1 ∧ t.1.head.map Commit.id = some commit)
    (safe_prepared configured prepared) fun answer after rest ran => ?_).then fun _ t fine => ?_
  · obtain rfl := (Prod.mk.inj ran).2
    have after : Safe {t.1 with pending := some (.committed commit)} :=
      safe_committed configured rfl head
    exact ⟨after,after,head⟩
  · exact (keeps_settle fine.1 fine.2).then fun _ t settled => keeps_pure settled.1 settled.1

theorem keeps_snapshotLocked {vault : Tree} {reason : Text} (here : Safe s.1)
    (configured : s.1.config ≠ none) :
    KeepsSafe (snapshotLocked vault reason) s fun _ t => Safe t.1 := by
  have look : ∀ {op : Op Tree} {s : Disk Tree × List Bool}, op.isLook = true →
      Safe s.1 ∧ s.1.config ≠ none →
      KeepsSafe (check op) s fun _ t => Safe t.1 ∧ t.1.config ≠ none := by
    intro op s look fine
    exact keeps_look look fine.1 fun answer after rest ran same =>
      ⟨fine.1.untouched same,same.config ▸ fine.2⟩
  have try_ : ∀ {op : Op Tree} {s : Disk Tree × List Bool}, op.isLook = true →
      Safe s.1 ∧ s.1.config ≠ none →
      KeepsSafe (attempt op) s fun _ t => Safe t.1 ∧ t.1.config ≠ none := by
    intro op s look fine
    refine keeps_attempt fine.1 (fun answer after rest ran => ?_) fun rest => fine
    have same := untouched_look look ran
    exact ⟨fine.1.untouched same,fine.1.untouched same,same.config ▸ fine.2⟩
  refine (look rfl ⟨here,configured⟩).then fun _ t fine => ?_
  refine (try_ rfl fine).then fun old t fine => ?_
  refine Keeps.then (Q := fun _ t => Safe t.1 ∧ t.1.config ≠ none) ?_ fun _ t fine => ?_
  · rcases old with _ | commit
    · exact keeps_pure fine.1 fine
    · exact look rfl fine
  refine (look rfl fine).then fun _ t fine => ?_
  refine (try_ rfl fine).then fun same t fine => ?_
  rcases same with _ | same
  · exact keeps_commitStaged fine.1 fine.2
  · exact keeps_pure fine.1 fine.1

theorem keeps_snapshot {vault : Tree} {reason : Text} (here : Safe s.1) :
    KeepsSafe (snapshot vault reason) s fun _ t => Safe t.1 := by
  refine (keeps_enable here).then fun _ t fine => ?_
  refine (keeps_recoverPending fine.1 fine.2).then fun _ t fine => ?_
  exact keeps_snapshotLocked fine.1 fine.2.1

theorem safe_after (safe : Safe disk) (call : Call Tree) : Safe (call.after disk) := by
  have keeps : KeepsSafe (snapshot call.vault call.reason) (disk,call.fates)
      fun _ t => Safe t.1 := keeps_snapshot safe
  unfold Call.after
  split
  · have ended := keeps.run
    split at ended
    · rename_i ran
      exact ran ▸ ended.1
    · rename_i ran
      exact ran ▸ ended.1
  · exact keeps.crash _

theorem safe_afterCalls (calls : List (Call Tree)) : Safe (afterCalls calls) := by
  have fold : ∀ disk : Disk Tree, Safe disk → Safe (calls.foldl Call.after disk) := by
    induction calls with
    | nil => exact fun _ safe => safe
    | cons call rest ih => exact fun disk safe => ih _ (safe_after safe call)
  exact fold {} ⟨fun _ => rfl,fun _ => rfl,fun _ impossible => by cases impossible⟩

end Steps

section Success

variable {disk : Disk Tree}

theorem run_check {op : Op Tree} {answer : op.Answer} {after : Disk Tree}
    (ran : perform op disk = (some answer,after)) (f : op.Answer → Action Tree α) :
    run perform (check op >>= f) disk = run perform (f answer) after := by
  rw [run_bind,check,run_bind,attempt,run_perform,ran]
  rfl

structure Enabled (disk : Disk Tree) (repo : Repo Tree) (config : Config) : Prop where
  repo : disk.repo = some repo
  config : disk.config = some config

theorem run_enable (safe : Safe disk) :
    ∃ after repo config, run perform enable disk = (.ok (),after) ∧ Enabled after repo config ∧
      Safe after ∧ after.pending = disk.pending ∧ after.head = disk.head := by
  obtain ⟨repo,config,pending⟩ := disk
  cases config with
  | none =>
    have idle := safe.fresh rfl
    have named := safe.idle idle
    cases repo with
    | none => exact ⟨_,_,_,rfl,⟨rfl,rfl⟩,safe_idle idle named,rfl,rfl⟩
    | some repo => exact ⟨_,_,_,rfl,⟨rfl,rfl⟩,safe_idle idle named,rfl,rfl⟩
  | some config =>
    cases repo with
    | none => exact ⟨_,_,_,rfl,⟨rfl,rfl⟩,safe.untouched ⟨rfl,rfl,rfl⟩,rfl,rfl⟩
    | some repo => exact ⟨_,_,_,rfl,⟨rfl,rfl⟩,safe,rfl,rfl⟩

/-- A journal is settled, unless it is that of a first snapshot that was not committed. -/
theorem run_recoverPending {repo : Repo Tree} {config : Config} (safe : Safe disk)
    (enabled : Enabled disk repo config) (fine : ¬ Stranded disk) :
    ∃ after config, run perform recoverPending disk = (.ok (),after) ∧
      Enabled after repo config ∧ after.pending = none ∧
        config.lastSnapshot = repo.head.map Commit.id := by
  obtain ⟨_,_,pending⟩ := disk
  obtain ⟨repo_,config_⟩ := enabled
  subst repo_
  subst config_
  match pending with
  | none => exact ⟨_,config,rfl,⟨rfl,rfl⟩,rfl,safe.idle rfl⟩
  | some (.committed commit) =>
    exact ⟨_,_,rfl,⟨rfl,rfl⟩,rfl,(safe.committed commit rfl).symm⟩
  | some .prepared =>
    obtain ⟨head,index,commits⟩ := repo
    cases head with
    | none => exact absurd ⟨rfl,rfl⟩ fine
    | some commit => exact ⟨_,_,rfl,⟨rfl,rfl⟩,rfl,rfl⟩

theorem run_commitStaged {repo : Repo Tree} {config : Config} {reason : Text}
    (enabled : Enabled disk repo config) (message : ¬ Blank reason)
    (changed : repo.index ≠ repo.headTree) :
    ∃ after, run perform (commitStaged reason) disk = (.ok (some repo.commits),after) ∧
      Settled repo.index after := by
  obtain ⟨_,_,pending⟩ := disk
  obtain ⟨repo_,config_⟩ := enabled
  subst repo_
  subst config_
  have committed : perform (.commit reason)
      (⟨some repo,some config,some .prepared⟩ : Disk Tree) =
        (some (),⟨some {repo with head := some ⟨repo.commits,repo.index⟩,commits :=
          repo.commits + 1},some config,some .prepared⟩) := by
    simp [perform,git,Repo.commit,message,changed]
    rfl
  refine ⟨⟨some {repo with head := some ⟨repo.commits,repo.index⟩,commits := repo.commits + 1},
    some {lastSnapshot := some repo.commits},none⟩,?_,rfl,rfl,rfl⟩
  have prepared : perform (.writePending .prepared) (⟨some repo,some config,pending⟩ : Disk Tree) =
      (some (),⟨some repo,some config,some .prepared⟩) := rfl
  exact (run_check prepared _).trans ((run_check committed _).trans rfl)

theorem run_snapshotLocked {repo : Repo Tree} {config : Config} {vault : Tree} {reason : Text}
    (enabled : Enabled disk repo config) (idle : disk.pending = none)
    (named : config.lastSnapshot = repo.head.map Commit.id) (message : ¬ Blank reason) :
    ∃ result after, run perform (snapshotLocked vault reason) disk = (.ok result,after) ∧
      Settled vault after := by
  obtain ⟨_,_,pending⟩ := disk
  obtain ⟨repo_,config_⟩ := enabled
  subst repo_
  subst config_
  have idle_ : pending = none := idle
  subst idle_
  -- The index has the files of the Vault, whatever it had before.
  have staged : run perform (snapshotLocked vault reason)
      (⟨some repo,some config,none⟩ : Disk Tree) =
        run perform (attempt .diffCached >>= fun same =>
          if same.isSome then return none else commitStaged reason)
          ⟨some {repo with index := vault},some config,none⟩ := by
    obtain ⟨head,index,commits⟩ := repo
    cases head <;> rfl
  rw [staged,run_bind,attempt,run_perform]
  by_cases same : vault = repo.headTree
  · have looked : perform .diffCached
        (⟨some {repo with index := vault},some config,none⟩ : Disk Tree) =
          (some (),⟨some {repo with index := vault},some config,none⟩) := by
      simp [perform,git,same,Repo.headTree]
      rfl
    rw [looked]
    exact ⟨none,_,rfl,named,rfl,same.symm⟩
  · have looked : perform .diffCached
        (⟨some {repo with index := vault},some config,none⟩ : Disk Tree) =
          (none,⟨some {repo with index := vault},some config,none⟩) := by
      have other : ¬ vault = ({repo with index := vault} : Repo Tree).headTree := same
      simp [perform,git,other]
    have enabled : Enabled (⟨some {repo with index := vault},some config,none⟩ : Disk Tree)
        {repo with index := vault} config := ⟨rfl,rfl⟩
    obtain ⟨after,ran,settled⟩ := run_commitStaged enabled message same
    rw [looked]
    exact ⟨_,after,ran,settled⟩

theorem recovers_of_safe (safe : Safe disk) (fine : ¬ Stranded disk) : Recovers disk := by
  intro vault reason message
  obtain ⟨first,repo,config,enable_,enabled,safe',pending,head⟩ := run_enable safe
  have fine' : ¬ Stranded first := fun stranded =>
    fine ⟨pending ▸ stranded.1,head ▸ stranded.2⟩
  obtain ⟨second,config',recover,enabled',idle,named⟩ := run_recoverPending safe' enabled fine'
  obtain ⟨result,after,locked,settled⟩ := run_snapshotLocked enabled' idle named message
  refine ⟨result,after,?_,settled⟩
  rw [snapshot,run_bind_ok perform enable_,run_bind_ok perform recover,locked]

theorem run_stranded (stranded : Stranded disk) (safe : Safe disk) (vault : Tree)
    (reason : Text) : ∃ after, run perform (snapshot vault reason) disk =
      (.error .vaultUnavailable,after) := by
  obtain ⟨first,repo,config,enable_,enabled,-,pending,head⟩ := run_enable safe
  have pending_ : first.pending = some .prepared := pending.trans stranded.1
  have head_ : repo.head = none := by
    have same := head.trans stranded.2
    rwa [Disk.head,enabled.repo,Option.bind_some] at same
  have refused : run perform recoverPending first = (.error .vaultUnavailable,first) := by
    obtain ⟨_,_,_⟩ := first
    obtain ⟨repo_,config_⟩ := enabled
    obtain ⟨_,index,commits⟩ := repo
    subst repo_
    subst config_
    subst pending_
    subst head_
    rfl
  refine ⟨first,?_⟩
  rw [snapshot,run_bind_ok perform enable_,run_bind_error perform refused]

/-- After any snapshots that were cut off or had commands fail, the next one with nothing
failing succeeds and settles exactly when the store is not stranded. -/
theorem every_cut_recovers_iff (calls : List (Call Tree)) :
    Recovers (afterCalls calls) ↔ ¬ Stranded (afterCalls calls) := by
  refine ⟨fun recovers stranded => ?_,recovers_of_safe (safe_afterCalls calls)⟩
  obtain ⟨result,after,ran,-⟩ := recovers ∅ ['-'] (by decide)
  obtain ⟨after',refused⟩ := run_stranded stranded (safe_afterCalls calls) ∅ ['-']
  rw [ran] at refused
  cases (Prod.mk.inj refused).1

end Success

section Stranding

/-- The process dies between the journal and the commit of the first snapshot. -/
def firstSnapshotCut : List (Call (List Text)) :=
  [{vault := [['a']],reason := ['-'],cut := some 10}]

/-- No later snapshot succeeds. -/
theorem firstSnapshotCut_not_recovers : ¬ Recovers (afterCalls firstSnapshotCut) := by
  intro recovers
  obtain ⟨result,after,ran,-⟩ := recovers [['a']] ['-'] (by decide)
  have refused : ((run perform (snapshot [['a']] ['-'])
      (afterCalls firstSnapshotCut)).1.toOption.isSome) = false := by decide +kernel
  rw [ran] at refused
  cases refused

end Stranding

end LocalBook.Versions
