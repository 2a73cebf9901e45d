import LocalBook.Vault.Service

/-! How a mutation can end when at most one call fails: refused with the disk as it
was, done, or failed after its change had already become visible. Every state before
a call is recorded as well, so the same statement covers a crash at any call. -/
namespace LocalBook.Vault

open Effect

def ignored (errno : Errno) : FsOp → Bool
  | .unlinkTemp _ | .closeDir _ => true
  | .openDir _ | .syncDir _ => tolerated errno
  | _ => false

def removesTemp : FsOp → Bool
  | .unlinkTemp _ => true
  | _ => false

/-- Where a mutation of `s` leads, and what may be seen on the way. -/
structure Aim (s : Disk) where
  goal : Disk
  stages : Disk → Prop
  temps : goal.temps = s.temps
  first : stages s
  last : stages goal

variable {s : Disk}

/-- A failure that is noticed too late: the change is already visible, or what fails is
the removal of a temporary file that was never published. -/
def Loud (errno : Errno) (aim : Aim s) (op : FsOp) (before : Disk) : Prop :=
  (before.tree = aim.goal.tree ∧ aim.goal.tree ≠ s.tree ∧ ignored errno op = false) ∨
    (removesTemp op = true ∧ before.tree = s.tree)

/-- The call that failed, if any, is none of those. -/
def Quiet (errno : Errno) (aim : Aim s) (failed : Option (FsOp × Disk)) : Prop :=
  ∀ op before, failed = some (op,before) → aim.stages before ∧ ¬ Loud errno aim op before

/-- The ways a mutation ends; `P` is what holds of its answer. -/
inductive Settles (errno : Errno) (aim : Aim s) {α : Type} (P : α → Prop) :
    Option (FsOp × Disk) → Except Exc α → Disk → Prop where
  | refused {failed : Option (FsOp × Disk)} {reason : Exc} (quiet : Quiet errno aim failed) :
    Settles errno aim P failed (.error reason) s
  | done {failed : Option (FsOp × Disk)} {value : α} {t : Disk}
    (quiet : Quiet errno aim failed) (answer : P value) (tree : t.tree = aim.goal.tree)
    (plain : failed = none → t = aim.goal) :
    Settles errno aim P failed (.ok value) t
  | late {op : FsOp} {before t : Disk} {reason : Exc} (stage : aim.stages before)
    (loud : Loud errno aim op before) (changed : t ≠ s) (report : reason.NoCollision) :
    Settles errno aim P (some (op,before)) (.error reason) t

variable {errno : Errno} {aim : Aim s} {α β : Type} {P : α → Prop} {P' : β → Prop}

theorem quiet_none : Quiet errno aim none := by simp [Quiet]

theorem quiet_some {op : FsOp} {before : Disk} (stage : aim.stages before)
    (soft : ¬ Loud errno aim op before) : Quiet errno aim (some (op,before)) := by
  intro op' before' same
  obtain ⟨rfl,rfl⟩ := Prod.mk.inj (Option.some.inj same)
  exact ⟨stage,soft⟩

/-- A call made while the tree is still the initial one. -/
theorem quiet_here {op : FsOp} {before : Disk} (stage : aim.stages before)
    (same : before.tree = s.tree) (keeps : removesTemp op = false) :
    Quiet errno aim (some (op,before)) := by
  refine quiet_some stage fun loud => ?_
  rcases loud with visible | leaked
  · exact visible.2.1 (visible.1.symm.trans same)
  · simp [keeps] at leaked

theorem quiet_start {op : FsOp} (keeps : removesTemp op = false) :
    Quiet errno aim (some (op,s)) := quiet_here aim.first rfl keeps

/-- A call made while the requested change is not there yet. -/
theorem quiet_hidden {op : FsOp} {before : Disk} (stage : aim.stages before)
    (hidden : before.tree ≠ aim.goal.tree) (keeps : removesTemp op = false) :
    Quiet errno aim (some (op,before)) := by
  refine quiet_some stage fun loud => ?_
  rcases loud with visible | leaked
  · exact hidden visible.1
  · simp [keeps] at leaked

theorem quiet_ignored {op : FsOp} {before : Disk} (stage : aim.stages before)
    (silent : ignored errno op = true)
    (moved : removesTemp op = true → before.tree ≠ s.tree) :
    Quiet errno aim (some (op,before)) := by
  refine quiet_some stage fun loud => ?_
  rcases loud with visible | leaked
  · simp [silent] at visible
  · exact moved leaked.1 leaked.2

/-- A reported failure once the change is visible; with no real change it is a refusal. -/
theorem Settles.visible {op : FsOp} {before : Disk} {reason : Exc} (stage : aim.stages before)
    (visible : before.tree = aim.goal.tree) (heard : ignored errno op = false)
    (keeps : removesTemp op = false) (report : reason.NoCollision) :
    Settles errno aim P (some (op,before)) (.error reason : Except Exc α) aim.goal := by
  by_cases same : aim.goal.tree = s.tree
  · have back : aim.goal = s := by
      have temps := aim.temps
      cases goal : aim.goal
      cases s
      simp_all
    rw [back]
    exact .refused (quiet_here stage (visible.trans same) keeps)
  · exact .late stage (.inl ⟨visible,same,heard⟩) (fun equal => same (congrArg Disk.tree equal))
      report

theorem Settles.imp {failed : Option (FsOp × Disk)} {result : Except Exc α} {t : Disk}
    {P' : α → Prop} (settled : Settles errno aim P failed result t)
    (weaker : ∀ value, P value → P' value) : Settles errno aim P' failed result t := by
  cases settled with
  | refused quiet => exact .refused quiet
  | done quiet answer tree plain => exact .done quiet (weaker _ answer) tree plain
  | late stage loud changed report => exact .late stage loud changed report

/-- A plain run either refuses and changes nothing, or reaches the goal. -/
def Atomic (p : Fs α) (aim : Aim s) (P : α → Prop) : Prop :=
  (∃ reason, run FsOp.step p s = (.error reason,s)) ∨
    ∃ value, P value ∧ run FsOp.step p s = (.ok value,aim.goal)

theorem Atomic.settles {p : Fs α} {before : FsOp × Disk} (atomic : Atomic p aim P)
    (quiet : Quiet errno aim (some before)) :
    Ensures FsOp.step (FsOp.fail errno) (some before) p s (Settles errno aim P) := by
  rw [ensures_some]
  obtain ⟨reason,ran⟩ | ⟨value,answer,ran⟩ := atomic
  · rw [ran]
    exact .refused quiet
  · rw [ran]
    exact .done quiet answer rfl (by simp)

/-- Checks before the first step: a failing one refuses, or lets the plain rest run. -/
theorem settles_look {p : Look β} {f : β → Fs α} (returns : Returns P' p)
    (rest : ∀ value, P' value → Atomic (f value) aim P)
    (next : ∀ value, P' value → eval ReadOp.answer p s = .ok value →
      Ensures FsOp.step (FsOp.fail errno) none (f value) s (Settles errno aim P)) :
    Ensures FsOp.step (FsOp.fail errno) none (liftM p >>= f) s
      (Settles errno aim P) := by
  refine ensures_bind_look returns (Quiet errno aim) quiet_none ?_ ?_ ?_
  · exact fun op => quiet_start rfl
  · exact fun later reason quiet => .refused quiet
  · intro later value quiet found plain
    cases later with
    | none => exact next value found (plain rfl)
    | some before => exact (rest value found).settles quiet

/-- The same for strict checks, after which nothing has failed. -/
theorem settles_strict {p : Look β} {f : β → Fs α} (strict : Strict (fun _ => .error errno) p)
    (next : ∀ value, eval ReadOp.answer p s = .ok value →
      Ensures FsOp.step (FsOp.fail errno) none (f value) s (Settles errno aim P)) :
    Ensures FsOp.step (FsOp.fail errno) none (liftM p >>= f) s
      (Settles errno aim P) :=
  ensures_bind_strict strict (fun _ _ => .refused (quiet_start rfl))
    (fun _ _ => .refused quiet_none) next

/-- Checks after the last step: a failing one reports a failure of a change already made. -/
theorem Settles.after {p : Fs β} {q : β → Look α}
    (before : Ensures FsOp.step (FsOp.fail errno) none p s (Settles errno aim P'))
    (strict : ∀ value, Strict (fun _ => .error errno) (q value))
    (raises : ∀ value, Raises Exc.NoCollision (q value))
    (passes : ∀ value, P' value →
      ∃ result, eval ReadOp.answer (q value) aim.goal = .ok result ∧ P result) :
    Ensures FsOp.step (FsOp.fail errno) none (p >>= fun value => liftM (q value)) s
      (Settles errno aim P) := by
  rw [ensures_bind]
  refine before.mono fun later result t settled => ?_
  cases settled with
  | refused quiet => exact .refused quiet
  | late stage loud changed report => exact .late stage loud changed report
  | @done _ value t quiet answer tree plain =>
    obtain ⟨result,passed,answered⟩ := passes value answer
    cases later with
    | some before =>
      dsimp only
      rw [ensures_some,run_liftLook,eval_congr_tree tree,passed]
      exact .done quiet answered tree (by simp)
    | none =>
      obtain rfl := plain rfl
      refine ensures_liftStrict (strict value) (raises value) ?_ ?_
      · rw [passed]
        exact .done quiet answered rfl fun _ => rfl
      · exact fun op reason report => .visible aim.last rfl rfl rfl report

/-- The plain part of a settled mutation. -/
theorem Settles.atomic {p : Fs α}
    (settles : Ensures FsOp.step (FsOp.fail errno) none p s (Settles errno aim P)) :
    Atomic p aim P := by
  obtain ⟨plain,_⟩ := (ensures_iff p s _).mp settles
  rcases ran : run FsOp.step p s with ⟨result,t⟩
  rw [ran] at plain
  cases plain with
  | refused quiet => exact .inl ⟨_,ran⟩
  | done quiet answer tree plain =>
    obtain rfl := plain rfl
    exact .inr ⟨_,answer,ran⟩

theorem Settles.stage {failed : Option (FsOp × Disk)} {result : Except Exc α} {t before : Disk}
    {op : FsOp} (settled : Settles errno aim P failed result t)
    (same : failed = some (op,before)) : aim.stages before := by
  cases settled with
  | refused quiet => exact (quiet op before same).1
  | done quiet answer tree plain => exact (quiet op before same).1
  | late stage loud changed report =>
    obtain ⟨rfl,rfl⟩ := Prod.mk.inj (Option.some.inj same)
    exact stage

/-- What a mutation can leave behind when the process dies. -/
theorem Settles.visits {p : Fs α} {t : Disk}
    (settles : Ensures FsOp.step (FsOp.fail errno) none p s (Settles errno aim P))
    (visit : Visits FsOp.step p s t) : aim.stages t := by
  obtain ⟨n,rfl⟩ := visit
  obtain ⟨_,each⟩ := (ensures_iff p s _).mp settles
  by_cases inside : n < (calls FsOp.step p s).length
  · have settled := each n _ (List.getElem?_eq_getElem inside)
    exact settled.stage rfl
  · rw [crash_of_length_le FsOp.step p s n (Nat.not_lt.mp inside)]
    obtain ⟨reason,ran⟩ | ⟨value,_,ran⟩ := Settles.atomic settles
    · rw [ran]
      exact aim.first
    · rw [ran]
      exact aim.last

/-- Renaming the exception of a mutation. -/
theorem Settles.rethrow {p : Fs α} {rename : Exc → Exc}
    (keeps : ∀ reason, reason.NoCollision → (rename reason).NoCollision)
    (settles : Ensures FsOp.step (FsOp.fail errno) none p s (Settles errno aim P)) :
    Ensures FsOp.step (FsOp.fail errno) none
      (p.tryCatch fun reason => Proc.throw (rename reason)) s (Settles errno aim P) := by
  rw [ensures_tryCatch]
  refine settles.mono fun later result t settled => ?_
  cases settled with
  | refused quiet => exact (ensures_done _ _ _ _).mpr (.refused quiet)
  | done quiet answer tree plain => exact .done quiet answer tree plain
  | late stage loud changed report => exact .late stage loud changed (keeps _ report)

theorem Atomic.look {p : Look β} {f : β → Fs α}
    (next : ∀ value, eval ReadOp.answer p s = .ok value → Atomic (f value) aim P) :
    Atomic (liftM p >>= f) aim P := by
  cases outcome : eval ReadOp.answer p s with
  | error reason =>
    exact .inl ⟨reason,run_bind_error FsOp.step (by rw [run_liftLook,outcome])⟩
  | ok value =>
    have ran : run FsOp.step (liftM p : Fs β) s = (.ok value,s) := by
      rw [run_liftLook,outcome]
    obtain ⟨reason,rest⟩ | ⟨result,answer,rest⟩ := next value outcome
    · exact .inl ⟨reason,by rw [run_bind_ok FsOp.step ran,rest]⟩
    · exact .inr ⟨result,answer,by rw [run_bind_ok FsOp.step ran,rest]⟩

theorem Atomic.imp {p : Fs α} {P' : α → Prop} (atomic : Atomic p aim P)
    (weaker : ∀ value, P value → P' value) : Atomic p aim P' := by
  obtain refused | ⟨value,answer,ran⟩ := atomic
  · exact .inl refused
  · exact .inr ⟨value,weaker value answer,ran⟩

theorem Atomic.throw (reason : Exc) : Atomic (Proc.throw reason : Fs α) aim P :=
  .inl ⟨reason,rfl⟩

theorem settles_throw (reason : Exc) :
    Ensures FsOp.step (FsOp.fail errno) none (Proc.throw reason : Fs α) s
      (Settles errno aim P) := (ensures_done _ _ _ _).mpr (.refused quiet_none)

/-- The same as `Loud` for a mutation that can lead to one of several trees. -/
def Exposed (errno : Errno) (s : Disk) (change : Tree → Prop) (op : FsOp) (before : Disk) : Prop :=
  (change before.tree ∧ before.tree ≠ s.tree ∧ ignored errno op = false) ∨
    (removesTemp op = true ∧ before.tree = s.tree)

/-- How a mutation ends, seen from outside: `P` relates its answer to the tree it left. -/
inductive Ends (errno : Errno) (s : Disk) (change : Tree → Prop) {α : Type}
    (P : α → Tree → Prop) : Option (FsOp × Disk) → Except Exc α → Disk → Prop where
  | refused {failed : Option (FsOp × Disk)} {reason : Exc}
    (quiet : ∀ op before, failed = some (op,before) → ¬ Exposed errno s change op before) :
    Ends errno s change P failed (.error reason) s
  | done {failed : Option (FsOp × Disk)} {value : α} {t : Disk}
    (quiet : ∀ op before, failed = some (op,before) → ¬ Exposed errno s change op before)
    (answer : P value t.tree) : Ends errno s change P failed (.ok value) t
  | late {op : FsOp} {before t : Disk} {reason : Exc} (exposed : Exposed errno s change op before)
    (changed : t ≠ s) : Ends errno s change P (some (op,before)) (.error reason) t

theorem loud_iff_exposed {change : Tree → Prop} {op : FsOp} {before : Disk}
    (goal : change aim.goal.tree)
    (only : change before.tree → before.tree ≠ s.tree → before.tree = aim.goal.tree) :
    Loud errno aim op before ↔ Exposed errno s change op before := by
  unfold Loud Exposed
  refine or_congr_left ?_
  constructor
  · intro loud
    obtain ⟨same,new,heard⟩ := loud
    rw [same]
    exact ⟨goal,new,heard⟩
  · intro exposed
    obtain ⟨changed,new,heard⟩ := exposed
    have same := only changed new
    exact ⟨same,same ▸ new,heard⟩

theorem Settles.ends {change : Tree → Prop} {P' : α → Tree → Prop}
    {failed : Option (FsOp × Disk)} {result : Except Exc α} {t : Disk}
    (settled : Settles errno aim P failed result t) (goal : change aim.goal.tree)
    (only : ∀ before, aim.stages before → change before.tree → before.tree ≠ s.tree →
      before.tree = aim.goal.tree)
    (answers : ∀ value, P value → P' value aim.goal.tree) :
    Ends errno s change P' failed result t := by
  have soft : Quiet errno aim failed → ∀ op before, failed = some (op,before) →
      ¬ Exposed errno s change op before := by
    intro quiet op before same exposed
    obtain ⟨stage,soft⟩ := quiet op before same
    exact soft ((loud_iff_exposed goal (only before stage)).mpr exposed)
  cases settled with
  | refused quiet => exact .refused (soft quiet)
  | done quiet answer tree plain => exact .done (soft quiet) (tree ▸ answers _ answer)
  | late stage loud changed report =>
    exact .late ((loud_iff_exposed goal (only _ stage)).mp loud) changed

/-- After a failure that left no mark, the rest is the plain run. -/
theorem Ends.quietly {change : Tree → Prop} {P : α → Tree → Prop} {result : Except Exc α}
    {t : Disk} {failed : Option (FsOp × Disk)} (ends : Ends errno s change P none result t)
    (quiet : ∀ op before, failed = some (op,before) → ¬ Exposed errno s change op before) :
    Ends errno s change P failed result t := by
  cases ends with
  | refused _ => exact .refused quiet
  | done _ answer => exact .done quiet answer

theorem not_exposed_look {change : Tree → Prop} {op : ReadOp} :
    ∀ op' before, some (FsOp.look op,s) = some (op',before) →
      ¬ Exposed errno s change op' before := by
  intro op' before same
  obtain ⟨rfl,rfl⟩ := Prod.mk.inj (Option.some.inj same)
  simp [Exposed,removesTemp]

end LocalBook.Vault
