import LocalBook.Effect
import LocalBook.Text

/-! The version store of a Vault: a bare Git repository, a configuration that names the last
snapshot, and a journal of the snapshot that is being made. -/
namespace LocalBook.Versions

open Effect

abbrev CommitId := Nat

structure Commit (Tree : Type) where
  id : CommitId
  tree : Tree
deriving DecidableEq

/-- The bare repository: the commit `HEAD` names, if there is one, and the index. -/
structure Repo (Tree : Type) where
  head : Option (Commit Tree) := none
  index : Tree
  commits : Nat := 0

/-- `config.json`. -/
structure Config where
  lastSnapshot : Option CommitId := none
deriving DecidableEq

/-- `pending.json`. -/
inductive Journal where
  | prepared
  | committed (commit : CommitId)
deriving DecidableEq

structure Disk (Tree : Type) where
  repo : Option (Repo Tree) := none
  config : Option Config := none
  pending : Option Journal := none

variable {Tree : Type}

inductive Op (Tree : Type) where
  | repoExists
  | init
  | configExists
  | writeConfig (values : Config)
  | readPending
  | writePending (journal : Journal)
  | removePending
  | stage
  | revParseHead
  | readTree
  | addAll (staging : Tree)
  | diffCached
  | commit (message : Text)

def Op.Answer : Op Tree → Type
  | .repoExists | .configExists => Bool
  | .readPending => Option Journal
  | .revParseHead => CommitId
  | _ => Unit

abbrev Res (op : Op Tree) : Type := Option op.Answer

def Blank (message : Text) : Prop := Text.strip message = []

instance (message : Text) : Decidable (Blank message) := inferInstanceAs (Decidable (_ = _))

section Git

variable [DecidableEq Tree] [EmptyCollection Tree]

def Repo.headTree (repo : Repo Tree) : Tree := (repo.head.map Commit.tree).getD ∅

/-- `git commit -m message`, where there is something to commit. -/
def Repo.commit (message : Text) (repo : Repo Tree) : Option (Repo Tree) :=
  if Blank message ∨ repo.index = repo.headTree then none
  else some {repo with
    head := some {id := repo.commits,tree := repo.index},
    commits := repo.commits + 1}

def git (disk : Disk Tree) (command : Repo Tree → Option (α × Repo Tree)) :
    Option α × Disk Tree :=
  match disk.repo.bind command with
  | some (answer,repo) => (some answer,{disk with repo := some repo})
  | none => (none,disk)

def perform : Handler (Op Tree) Res (Disk Tree)
  | .repoExists,disk => (some disk.repo.isSome,disk)
  | .init,disk => (some (),{disk with repo := some {index := ∅}})
  | .configExists,disk => (some disk.config.isSome,disk)
  | .writeConfig values,disk => (some (),{disk with config := some values})
  | .readPending,disk => (some disk.pending,disk)
  | .writePending journal,disk => (some (),{disk with pending := some journal})
  | .removePending,disk => (some (),{disk with pending := none})
  | .stage,disk => (some (),disk)
  | .revParseHead,disk => git disk fun repo => repo.head.map fun commit => (commit.id,repo)
  | .readTree,disk => git disk fun repo => some ((),{repo with index := repo.headTree})
  | .addAll staging,disk => git disk fun repo => some ((),{repo with index := staging})
  | .diffCached,disk => git disk fun repo =>
    if repo.index = repo.headTree then some ((),repo) else none
  | .commit message,disk => git disk fun repo => (repo.commit message).map fun repo => ((),repo)

/-- The calls when some fail: a call that does has no answer and no effect. -/
def faulty : Handler (Op Tree) Res (Disk Tree × List Bool) := fun op state =>
  match state.2 with
  | true :: fates => (none,(state.1,fates))
  | false :: fates => ((perform op state.1).1,((perform op state.1).2,fates))
  | [] => ((perform op state.1).1,((perform op state.1).2,[]))

end Git

section Snapshot

/-- `VaultUnavailable`, the one error of a command. -/
inductive Failure where
  | vaultUnavailable
deriving DecidableEq

abbrev Action (Tree α : Type) := Proc (Op Tree) Res Failure α

/-- A command with `check=False`. -/
def attempt (op : Op Tree) : Action Tree (Res op) := Proc.perform op

def check (op : Op Tree) : Action Tree op.Answer := do
  match ← attempt op with
  | some answer => pure answer
  | none => Proc.throw .vaultUnavailable

/-- `if not c: action`. -/
def skipIf (c : Bool) (action : Action Tree Unit) : Action Tree Unit :=
  if c then pure () else action

/-- `enable`. -/
def enable : Action Tree Unit := do
  let made : Bool ← check .repoExists
  skipIf made (check .init)
  let configured : Bool ← check .configExists
  skipIf configured (check (.writeConfig {}))

def settle (commit : CommitId) : Action Tree Unit := do
  check (.writeConfig {lastSnapshot := some commit})
  check .removePending

/-- `_recover_pending`. -/
def recoverPending : Action Tree Unit := do
  let pending : Option Journal ← check .readPending
  match pending with
  | none => pure ()
  | some (.committed commit) => settle commit
  | some .prepared => do
    let commit : CommitId ← check .revParseHead
    settle commit

def commitStaged (reason : Text) : Action Tree (Option CommitId) := do
  check (.writePending .prepared)
  check (.commit reason)
  let commit : CommitId ← check .revParseHead
  check (.writePending (.committed commit))
  settle commit
  return some commit

/-- `_snapshot_locked`. -/
def snapshotLocked (vault : Tree) (reason : Text) : Action Tree (Option CommitId) := do
  check .stage
  let old ← attempt .revParseHead
  skipIf old.isNone (check .readTree)
  check (.addAll vault)
  let same ← attempt .diffCached
  if same.isSome then return none else commitStaged reason

/-- `snapshot`, of a Vault with these versioned files. -/
def snapshot (vault : Tree) (reason : Text) : Action Tree (Option CommitId) := do
  enable
  recoverPending
  snapshotLocked vault reason

end Snapshot

end LocalBook.Versions
