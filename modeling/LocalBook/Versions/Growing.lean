import LocalBook.Interleaving
import LocalBook.Versions.Recovering

/-! The versions of a Vault over whole runs: no call takes an earlier version back, whatever fails
and wherever the process dies, and one that returns has stored the files of the Vault. -/
namespace LocalBook.Versions

open Effect

section Plain

variable {Tree : Type}

/-- `HEAD` has stayed, or moved on to a newer commit. -/
def Extends (disk after : Disk Tree) : Prop :=
  ∀ commit,disk.head = some commit → ∃ newer,after.head = some newer ∧
    (newer = commit ∨ commit.id < newer.id)

structure Grown (start disk : Disk Tree) : Prop where
  numbered : ∀ repo,disk.repo = some repo → ∀ commit,repo.head = some commit →
    commit.id < repo.commits
  extended : Extends start disk

variable {start disk : Disk Tree} {P : Op Tree → Prop} {op : Op Tree}

theorem Grown.same (grown : Grown start disk) {after : Disk Tree} (repo : after.repo = disk.repo) :
    Grown start after := by
  have head : after.head = disk.head := by rw [Disk.head,repo,Disk.head]
  exact ⟨repo ▸ grown.numbered,fun commit there => head ▸ grown.extended commit there⟩

/-- A Git command that leaves `HEAD` alone, or commits. -/
theorem Grown.git (grown : Grown start disk) {command : Repo Tree → Option (α × Repo Tree)}
    (moves : ∀ repo answer repo',command repo = some (answer,repo') →
      (repo'.head = repo.head ∧ repo'.commits = repo.commits) ∨
        (∃ tree,repo'.head = some ⟨repo.commits,tree⟩) ∧ repo'.commits = repo.commits + 1) :
    Grown start (git disk command).2 := by
  cases ran : Versions.git disk command with
  | mk answer after =>
    cases answer with
    | none =>
      obtain rfl := git_none ran
      exact grown
    | some answer =>
      obtain ⟨repo,repo',here,run_,rfl⟩ := git_some ran
      have head : disk.head = repo.head := by rw [Disk.head,here,Option.bind_some]
      rcases moves repo answer repo' run_ with ⟨stays,count⟩ | ⟨⟨tree,moved⟩,count⟩
      · refine ⟨fun other same commit there => ?_,fun commit there => ?_⟩
        · obtain rfl := Option.some.inj same
          rw [count]
          exact grown.numbered repo here commit (stays ▸ there)
        · obtain ⟨newer,found,order⟩ := grown.extended commit there
          exact ⟨newer,stays.trans (head.symm.trans found),order⟩
      · refine ⟨fun other same commit there => ?_,fun commit there => ?_⟩
        · obtain rfl := Option.some.inj same
          rw [moved] at there
          obtain rfl := Option.some.inj there
          simp [count]
        · obtain ⟨newer,found,order⟩ := grown.extended commit there
          have below := grown.numbered repo here newer (head ▸ found)
          refine ⟨_,moved,.inr ?_⟩
          rcases order with rfl | before
          · exact below
          · exact before.trans below

theorem Grown.restart (grown : Grown start disk) : Grown disk disk :=
  ⟨grown.numbered,fun commit there => ⟨commit,there,.inl rfl⟩⟩

theorem every_check (allowed : P op) : Every P (check op) :=
  (every_perform allowed).bind fun answer => by cases answer <;> trivial

def Mild (op : Op Tree) : Prop := (∀ message,op ≠ .commit message) ∧ op ≠ .init

theorem every_settle (commit : CommitId) : Every Mild (settle commit : Action Tree Unit) :=
  (every_check ⟨nofun,nofun⟩).bind fun _ => every_check ⟨nofun,nofun⟩

theorem every_recoverPending : Every Mild (recoverPending : Action Tree Unit) := by
  refine (every_check ⟨nofun,nofun⟩).bind fun pending => ?_
  match pending with
  | none => trivial
  | some (.committed commit) => exact every_settle commit
  | some .prepared =>
    exact (every_check ⟨nofun,nofun⟩).bind fun commit => every_settle commit

theorem every_snapshotLocked (vault : Tree) (reason : Text) :
    Every (· ≠ .init) (snapshotLocked vault reason) := by
  refine (every_check nofun).bind fun _ => (every_perform nofun).bind fun old =>
    Every.bind ?_ fun _ => (every_check nofun).bind fun _ =>
      (every_perform nofun).bind fun same => ?_
  · cases old with
    | none => trivial
    | some _ => exact every_check nofun
  · cases same with
    | some _ => trivial
    | none =>
      exact (every_check nofun).bind fun _ => (every_check nofun).bind fun _ =>
        (every_check nofun).bind fun commit => (every_check nofun).bind fun _ =>
          ((every_settle commit).mono fun _ mild => mild.2).bind fun _ => trivial

theorem plain_or_commit (op : Op Tree) :
    (∀ message,op ≠ .commit message) ∨ ∃ message,op = .commit message := by
  cases op <;> first | exact .inr ⟨_,rfl⟩ | exact .inl nofun

end Plain

variable {Tree : Type} [DecidableEq Tree] [EmptyCollection Tree]

/-- What a snapshot that returns has made of the store. -/
structure Stored (vault : Tree) (disk after : Disk Tree) (result : Option CommitId) : Prop where
  settled : Settled vault after
  extended : Extends disk after
  unchanged : result = none → after.head = disk.head
  committed : ∀ commit,result = some commit → after.head.map Commit.id = some commit ∧
    disk.head.map Commit.id ≠ some commit

section Calls

variable {P : Op Tree → Prop} {I : Disk Tree → Prop} {op : Op Tree} {s : Disk Tree × List Bool}

/-- The calls that are allowed keep `I`, and a repository is only made where there is none. -/
def Steady (P : Op Tree → Prop) (I : Disk Tree → Prop) : Prop :=
  ∀ op disk,P op → (op = .init → disk.repo = none) → I disk → I (perform op disk).2

abbrev KeepsDisk (I : Disk Tree → Prop) (p : Action Tree α) (s : Disk Tree × List Bool) : Prop :=
  Keeps faulty (fun t => I t.1) (fun t => I t.1) p s fun _ t => I t.1

theorem Steady.answered (steady : Steady P I) (allowed : P op)
    (missing : op = .init → s.1.repo = none) (here : I s.1) : I (faulty op s).2.1 := by
  rcases faulty_cases op s with ⟨answer,after,rest,ran,same⟩ | ⟨rest,same⟩
  · rw [same]
    exact (congrArg (fun r => I r.2) ran).mp (steady op s.1 allowed missing here)
  · rw [same]
    exact here

theorem Steady.keeps (steady : Steady P I) {p : Action Tree α}
    (every : Every (fun op => P op ∧ op ≠ .init) p) (here : I s.1) : KeepsDisk I p s := by
  induction p generalizing s with
  | done result => cases result <;> exact ⟨here,here⟩
  | call op next ih =>
    have after := steady.answered every.1.1 (fun init => absurd init every.1.2) here
    exact ⟨here,ih _ (every.2 _) after⟩

theorem Steady.keeps_enable (steady : Steady P I) (allowed : ∀ op,P op ∨ ∃ message,op = .commit message)
    (here : I s.1) : KeepsDisk I enable s := by
  have plain (op : Op Tree) (other : ∀ message,op ≠ .commit message) : P op :=
    (allowed op).resolve_right fun found => found.elim other
  refine Keeps.then (Q := fun (made : Bool) t => I t.1 ∧ (made = false → t.1.repo = none)) ?_
    fun made t fine => Keeps.then (Q := fun _ t => I t.1) ?_ fun _ t here => steady.keeps ?_ here
  · refine ⟨here,?_⟩
    rcases faulty_cases (.repoExists : Op Tree) s with ⟨answer,after,rest,ran,same⟩ | ⟨rest,same⟩
    · rw [same]
      obtain ⟨answered,rfl⟩ := Prod.mk.inj ran
      refine ⟨here,here,fun none_ => ?_⟩
      have seen : s.1.repo.isSome = answer := Option.some.inj answered
      rwa [none_,Option.isSome_eq_false_iff,Option.isNone_iff_eq_none] at seen
    · rw [same]
      exact ⟨here,here⟩
  · obtain ⟨here,missing⟩ := fine
    cases made with
    | true => exact ⟨here,here⟩
    | false =>
      have after := steady.answered (plain .init nofun) (fun _ => missing rfl) here
      refine ⟨here,?_⟩
      generalize faulty .init t = answer at after ⊢
      obtain ⟨_ | _,_⟩ := answer <;> exact ⟨after,after⟩
  · refine (every_check ⟨plain _ nofun,nofun⟩).bind fun configured => ?_
    cases configured with
    | true => trivial
    | false => exact every_check ⟨plain _ nofun,nofun⟩

end Calls

section Growing

variable {start disk : Disk Tree}

theorem steady_grown : Steady (fun _ => True) (Grown start) := by
  intro op disk _ missing grown
  cases op with
  | init =>
    refine ⟨fun repo made commit head => ?_,fun commit there => ?_⟩
    · obtain rfl := Option.some.inj made
      cases head
    · obtain ⟨newer,found,-⟩ := grown.extended commit there
      rw [Disk.head,missing rfl] at found
      cases found
  | repoExists | configExists | writeConfig | readPending | writePending | removePending | stage =>
    exact grown.same rfl
  | revParseHead =>
    refine grown.git fun repo answer repo' ran => .inl ?_
    obtain ⟨commit,-,same⟩ := Option.map_eq_some_iff.mp ran
    obtain rfl := (Prod.mk.inj same).2
    exact ⟨rfl,rfl⟩
  | readTree | addAll =>
    refine grown.git fun repo answer repo' ran => .inl ?_
    obtain rfl := (Prod.mk.inj (Option.some.inj ran)).2
    exact ⟨rfl,rfl⟩
  | diffCached =>
    refine grown.git fun repo answer repo' ran => .inl ?_
    obtain rfl := (Prod.mk.inj (Option.some.inj (Option.ite_none_right_eq_some.mp ran).2)).2
    exact ⟨rfl,rfl⟩
  | commit message =>
    refine grown.git fun repo answer repo' ran => .inr ?_
    obtain ⟨made,committed,same⟩ := Option.map_eq_some_iff.mp ran
    obtain rfl := (Prod.mk.inj same).2
    obtain rfl := Option.some.inj (Option.ite_none_left_eq_some.mp committed).2
    exact ⟨⟨_,rfl⟩,rfl⟩

theorem keeps_grown {vault : Tree} {reason : Text} {s : Disk Tree × List Bool}
    (grown : Grown start s.1) : KeepsDisk (Grown start) (snapshot vault reason) s := by
  refine (steady_grown.keeps_enable (fun _ => .inl trivial) grown).then fun _ _ grown =>
    (steady_grown.keeps ?_ grown).then fun _ _ grown => steady_grown.keeps ?_ grown
  · exact every_recoverPending.mono fun _ mild => ⟨trivial,mild.2⟩
  · exact (every_snapshotLocked vault reason).mono fun _ other => ⟨trivial,other⟩

theorem grown_after (grown : Grown start disk) (call : Call Tree) :
    Grown start (call.after disk) := by
  have keeps : KeepsDisk (Grown start) (snapshot call.vault call.reason) (disk,call.fates) :=
    keeps_grown grown
  unfold Call.after
  split
  · have ended := keeps.run
    split at ended
    · rename_i ran
      exact ran ▸ ended.1
    · rename_i ran
      exact ran ▸ ended.1
  · exact keeps.crash _

theorem grown_calls (calls : List (Call Tree)) (grown : Grown start disk) :
    Grown start (calls.foldl Call.after disk) := by
  induction calls generalizing disk with
  | nil => exact grown
  | cons call rest ih => exact ih (grown_after grown call)

theorem grown_afterCalls (calls : List (Call Tree)) :
    Grown (afterCalls calls) (afterCalls calls) := by
  have start : Grown ({} : Disk Tree) {} :=
    ⟨fun repo here => (nomatch here),fun commit there => ⟨commit,there,.inl rfl⟩⟩
  exact (grown_calls calls start).restart

end Growing

section Storing

variable {disk after : Disk Tree} {op : Op Tree} {s t : Disk Tree × List Bool}

theorem steady_head (head : Option (Commit Tree)) :
    Steady (fun op => ∀ message,op ≠ .commit message) fun disk => disk.head = head := by
  intro op disk plain missing here
  by_cases look : op.isLook = true
  · cases ran : perform op disk with
    | mk answer after =>
      cases answer with
      | none =>
        obtain rfl := perform_none ran
        exact here
      | some answer => exact (untouched_look look ran).head.trans here
  · cases op with
    | init =>
      rw [← here,Disk.head,Disk.head,missing rfl]
      rfl
    | writeConfig | writePending | removePending => exact here
    | commit message => exact absurd rfl (plain message)
    | _ => exact absurd rfl look

theorem ran_keeps {I : Disk Tree → Prop} {p : Action Tree α} {value : α} (keeps : KeepsDisk I p s)
    (ran : run faulty p s = (.ok value,t)) : I t.1 := by
  have ended := keeps.run
  rw [ran] at ended
  exact ended.2

theorem ran_check {answer : op.Answer} (ran : run faulty (check op) s = (.ok answer,t)) :
    perform op s.1 = (some answer,t.1) := by
  rcases faulty_cases op s with ⟨given,after,rest,performed,same⟩ | ⟨rest,same⟩
  · rw [check,attempt,run_bind,run_perform,same] at ran
    obtain ⟨answered,rfl⟩ := Prod.mk.inj ran
    rw [performed,Except.ok.inj answered]
  · rw [check,attempt,run_bind,run_perform,same] at ran
    cases (Prod.mk.inj ran).1

theorem ran_attempt {answer : Res op} (ran : run faulty (attempt op) s = (.ok answer,t)) :
    perform op s.1 = (answer,t.1) ∨ answer = none ∧ t.1 = s.1 := by
  rcases faulty_cases op s with ⟨given,after,rest,performed,same⟩ | ⟨rest,same⟩
  · rw [attempt,run_perform,same] at ran
    obtain ⟨answered,rfl⟩ := Prod.mk.inj ran
    exact .inl (performed.trans (congrArg (·,after) (Except.ok.inj answered)))
  · rw [attempt,run_perform,same] at ran
    obtain ⟨answered,rfl⟩ := Prod.mk.inj ran
    exact .inr ⟨(Except.ok.inj answered).symm,rfl⟩

theorem ran_look {answer : Res op} (look : op.isLook = true)
    (ran : run faulty (attempt op) s = (.ok answer,t)) : Untouched s.1 t.1 := by
  rcases ran_attempt ran with performed | ⟨-,same⟩
  · cases answer with
    | none =>
      rw [perform_none performed]
      exact ⟨rfl,rfl,rfl⟩
    | some answer => exact untouched_look look performed
  · rw [same]
    exact ⟨rfl,rfl,rfl⟩

/-- A commit that was made is of the Vault, which `HEAD` did not have. -/
theorem stored_of_commitStaged {repo : Repo Tree} {vault : Tree} {reason : Text}
    {result : Option CommitId} (here : s.1.repo = some repo) (index : repo.index = vault)
    (ran : run faulty (commitStaged reason) s = (.ok result,t)) :
    Settled vault t.1 ∧ result = t.1.head.map Commit.id ∧ result ≠ none ∧
      repo.headTree ≠ vault := by
  obtain ⟨_,s1,prepared,ran⟩ := run_bind_eq_ok faulty ran
  obtain ⟨_,s2,committed,ran⟩ := run_bind_eq_ok faulty ran
  obtain ⟨commit,s3,named,ran⟩ := run_bind_eq_ok faulty ran
  obtain ⟨_,s4,journaled,ran⟩ := run_bind_eq_ok faulty ran
  obtain ⟨_,s5,settled,ran⟩ := run_bind_eq_ok faulty ran
  obtain ⟨same,rfl⟩ := Prod.mk.inj ran
  obtain rfl := Except.ok.inj same
  obtain ⟨_,s6,configured,removed⟩ := run_bind_eq_ok faulty settled
  have first : s1.1 = _ := (Prod.mk.inj (ran_check prepared)).2.symm
  obtain ⟨repo',_,there,command,second⟩ := git_some (ran_check committed)
  obtain rfl : repo' = repo := by
    rw [first] at there
    exact Option.some.inj (there.symm.trans here)
  obtain ⟨_,new,same⟩ := Option.map_eq_some_iff.mp command
  obtain rfl := (Prod.mk.inj same).2
  obtain ⟨changed,made⟩ := Option.ite_none_left_eq_some.mp new
  obtain rfl := Option.some.inj made
  have third := untouched_look rfl (ran_check named)
  obtain ⟨repo2,_,there2,command2,_⟩ := git_some (ran_check named)
  obtain ⟨last,head2,same2⟩ := Option.map_eq_some_iff.mp command2
  have head : s2.1.head = some ⟨repo'.commits,repo'.index⟩ := by rw [second]; rfl
  have commit_ : commit = repo'.commits := by
    rw [Disk.head,there2,Option.bind_some,head2] at head
    obtain rfl := Option.some.inj head
    exact (Prod.mk.inj same2).1.symm
  have fourth : s4.1 = _ := (Prod.mk.inj (ran_check journaled)).2.symm
  have sixth : s6.1 = _ := (Prod.mk.inj (ran_check configured)).2.symm
  have fifth : s5.1 = _ := (Prod.mk.inj (ran_check removed)).2.symm
  have final : s5.1.head = some ⟨repo'.commits,repo'.index⟩ := by
    rw [fifth,sixth,fourth]
    exact third.head.trans head
  refine ⟨⟨?_,?_,?_⟩,?_,Option.some_ne_none _,fun same =>
    changed (.inr (index.trans same.symm))⟩
  · rw [final,fifth,sixth,commit_]
    rfl
  · rw [fifth]
  · rw [final,← index]
    rfl
  · rw [final,commit_]
    rfl

/-- What a locked snapshot that returns has made of a store without a journal. -/
theorem stored_of_locked {vault : Tree} {reason : Text} {result : Option CommitId}
    (safe : Safe s.1) (idle : s.1.pending = none)
    (ran : run faulty (snapshotLocked vault reason) s = (.ok result,t)) :
    Settled vault t.1 ∧ (result = none ∧ t.1.head = s.1.head ∨
      result ≠ none ∧ result = t.1.head.map Commit.id ∧
        (s.1.head.map Commit.tree).getD ∅ ≠ vault) := by
  obtain ⟨_,s1,staged,ran⟩ := run_bind_eq_ok faulty ran
  obtain ⟨old,s2,looked,ran⟩ := run_bind_eq_ok faulty ran
  obtain ⟨_,s3,read,ran⟩ := run_bind_eq_ok faulty ran
  obtain ⟨_,s4,added,ran⟩ := run_bind_eq_ok faulty ran
  obtain ⟨same,s5,compared,ran⟩ := run_bind_eq_ok faulty ran
  have one := untouched_look rfl (ran_check staged)
  have two := ran_look rfl looked
  have three : Untouched s2.1 s3.1 := by
    cases old with
    | none =>
      rw [(Prod.mk.inj read).2]
      exact ⟨rfl,rfl,rfl⟩
    | some _ => exact untouched_look rfl (ran_check read)
  have four := untouched_look rfl (ran_check added)
  have five := ran_look rfl compared
  have whole : Untouched s.1 s5.1 :=
    ⟨five.config.trans (four.config.trans (three.config.trans (two.config.trans one.config))),
      five.pending.trans (four.pending.trans (three.pending.trans (two.pending.trans one.pending))),
      five.head.trans (four.head.trans (three.head.trans (two.head.trans one.head)))⟩
  obtain ⟨repo,_,-,command,after⟩ := git_some (ran_check added)
  obtain rfl := (Prod.mk.inj (Option.some.inj command)).2
  have indexed : s4.1.repo = some {repo with index := vault} := by rw [after]
  have headed : s.1.head = repo.head := by
    rw [← one.head,← two.head,← three.head,← four.head,Disk.head,indexed]
    rfl
  cases same with
  | some equal =>
    obtain ⟨value,rfl⟩ := Prod.mk.inj ran
    obtain rfl := Except.ok.inj value
    have performed := (ran_attempt compared).resolve_right (by simp)
    obtain ⟨repo2,_,there,command2,_⟩ := git_some performed
    obtain rfl := Option.some.inj (there.symm.trans indexed)
    have tree : vault = _ := (Option.ite_none_right_eq_some.mp command2).1
    refine ⟨⟨?_,whole.pending.trans idle,?_⟩,.inl ⟨rfl,whole.head⟩⟩
    · rw [whole.config,whole.head]
      exact safe.idle idle
    · rw [whole.head,headed]
      exact tree.symm
  | none =>
    have unchanged : s5.1.repo = s4.1.repo := by
      rcases ran_attempt compared with performed | ⟨-,same⟩
      · rw [perform_none performed]
      · rw [same]
    obtain ⟨settled,named,some_,changed⟩ :=
      stored_of_commitStaged (unchanged.trans indexed) rfl ran
    exact ⟨settled,.inr ⟨some_,named,headed ▸ changed⟩⟩

theorem stored_of_snapshot {vault : Tree} {reason : Text} {result : Option CommitId}
    (safe : Safe s.1) (grown : Grown s.1 s.1)
    (ran : run faulty (snapshot vault reason) s = (.ok result,t)) :
    Stored vault s.1 t.1 result := by
  have extended : Extends s.1 t.1 := (ran_keeps (keeps_grown grown) ran).extended
  obtain ⟨_,s1,enabled,ran⟩ := run_bind_eq_ok faulty ran
  obtain ⟨_,s2,recovered,ran⟩ := run_bind_eq_ok faulty ran
  have first : s1.1.head = s.1.head :=
    ran_keeps ((steady_head s.1.head).keeps_enable plain_or_commit rfl) enabled
  have second : s2.1.head = s1.1.head :=
    ran_keeps ((steady_head s1.1.head).keeps every_recoverPending rfl) recovered
  have made := (keeps_enable safe).run
  rw [enabled] at made
  have settled := (keeps_recoverPending made.2.1 made.2.2).run
  rw [recovered] at settled
  have head : s2.1.head = s.1.head := second.trans first
  obtain ⟨after,kept⟩ := stored_of_locked settled.2.1 settled.2.2.2 ran
  refine ⟨after,extended,fun none_ => ?_,fun commit some_ => ?_⟩
  · rcases kept with ⟨-,same⟩ | ⟨other,-⟩
    · exact same.trans head
    · exact absurd none_ other
  · rcases kept with ⟨none_,-⟩ | ⟨-,named,changed⟩
    · rw [none_] at some_
      cases some_
    · refine ⟨named.symm.trans some_,fun same => changed ?_⟩
      -- A commit of that number would be the one that `HEAD` names now.
      obtain ⟨before,there,number⟩ := Option.map_eq_some_iff.mp same
      obtain ⟨newer,found,order⟩ := extended before there
      have numbered := named.symm.trans some_
      rw [found] at numbered
      have equal : newer.id = before.id := (Option.some.inj numbered).trans number.symm
      obtain rfl : newer = before := order.resolve_right fun less => less.ne' equal
      rw [head,there,← after.tree,found]

end Storing

end LocalBook.Versions
