import LocalBook.Recovery.Steps

/-! Rows of a journal are reversed one after the other, each with an audit row, up to
the first that cannot be. Undo and explicit recovery both do this. -/
namespace LocalBook.Recovery

open Effect Vault UndoLog

structure Logged where
  seq : Nat
  state : RowState
  step : Step

namespace Logged

def row (jobId : Text) (logged : Logged) : JournalEntry :=
  logged.step.row jobId logged.seq logged.state

def image (logged : Logged) : Image Path (Option Node) := logged.step.image

@[simp] theorem row_path (jobId : Text) (logged : Logged) :
    (logged.row jobId).path = logged.step.path := rfl

theorem executable_row (jobId : Text) (logged : Logged) :
    (logged.row jobId).operation.executable = true := by
  cases logged with
  | mk seq state step => cases step <;> rfl

end Logged

structure Auditable (jobId : Text) (w : World) : Prop where
  named : jobId ≠ [] ∧ jobId.length ≤ 128
  known : (w.db.jobs jobId).isSome

theorem length_le_utf8Length (t : Text) : t.length ≤ Text.utf8Length t := by
  have each : ∀ size ∈ t.map Char.utf8Size, 1 ≤ size := by
    intro size found
    obtain ⟨c,_,rfl⟩ := List.mem_map.mp found
    exact Char.utf8Size_pos c
  have total := List.length_le_sum_of_one_le (t.map Char.utf8Size) each
  simpa [Text.utf8Length] using total

theorem short_path {path : Text} (valid : PublicPath path) : path.length ≤ 4096 :=
  (length_le_utf8Length path).trans valid.1.short

theorem run_appendAudit {jobId path : Text} {w : World} (seq : Nat) (hash : Option Text)
    (auditable : Auditable jobId w) (short : path.length ≤ 4096) :
    run SysOp.step (appendAudit jobId seq path hash) w =
      (.ok (),{w with db := w.db.putRow (auditRow jobId seq path hash)}) := by
  have valid : (auditRow jobId seq path hash).modelValidate =
      .ok (auditRow jobId seq path hash) := by
    simp [JournalEntry.modelValidate,auditRow,JournalEntry.journalLength,auditable.named.1,
      Nat.not_lt.mpr auditable.named.2,Nat.not_lt.mpr short]
  have known : (w.db.jobs (auditRow jobId seq path hash).jobId).isSome := auditable.known
  simp [appendAudit,run_bind,valid,Db.addJournal,known]

/-- Rows are reversed in this order; the first that cannot be stops the rest. -/
inductive Reversal (v : VaultService) (jobId : Text) :
    List Logged → Nat → World → Option Logged → World → Prop where
  | nil (seq : Nat) (w : World) : Reversal v jobId [] seq w none w
  | stuck {first : Logged} {rest : List Logged} (seq : Nat) (w : World)
    (stuck : ¬ first.step.Undoable v w.disk) :
    Reversal v jobId (first :: rest) seq w (some first) w
  | cons {first : Logged} {rest : List Logged} {seq : Nat} {w w' : World} {stop : Option Logged}
    {path : Text} {hash : Option Text} (undoable : first.step.Undoable v w.disk)
    (later : Reversal v jobId rest (seq + 1)
      {disk := first.step.undone w.disk,db := w.db.putRow (auditRow jobId seq path hash)}
      stop w') :
    Reversal v jobId (first :: rest) seq w stop w'

abbrev Separate (log : List Logged) : Prop :=
  log.Pairwise fun first second => first.step.Apart second.step

theorem separate_reverse {log : List Logged} (separate : Separate log) : Separate log.reverse :=
  List.pairwise_reverse.mpr (separate.imp fun apart => apart.symm)

theorem separate_apart {log : List Logged} (separate : Separate log) {first second : Logged}
    (one : first ∈ log) (other : second ∈ log) (differs : first ≠ second) :
    first.step.Apart second.step := by
  have symm : Std.Symm fun first second : Logged => first.step.Apart second.step :=
    ⟨fun _ _ apart => apart.symm⟩
  exact separate.forall one other differs

structure Reversed (v : VaultService) (log : List Logged) (d d' : Disk) : Prop where
  within : Within (log.flatMap fun logged => logged.step.keys) d d'
  replays : (∀ logged ∈ log, logged.step.Intact d) →
    Replays (log.map Logged.image) d.tree.get d'.tree.get
  gone : ∀ logged ∈ log, ¬ logged.step.Silent → ¬ logged.step.Applied v d'

namespace Reversal

variable {v : VaultService} {jobId : Text} {log : List Logged} {seq : Nat} {w w' : World}
variable {stop : Option Logged}

theorem jobs (reversal : Reversal v jobId log seq w stop w') : w'.db.jobs = w.db.jobs := by
  induction reversal with
  | nil => rfl
  | stuck => rfl
  | cons undoable later ih => exact ih

/-- Rows numbered below the audit rows stay. -/
theorem stays (reversal : Reversal v jobId log seq w stop w') {row : JournalEntry}
    (there : row ∈ (w.db.journal jobId).rows) (before : row.seq < seq) :
    row ∈ (w'.db.journal jobId).rows := by
  induction reversal with
  | nil => exact there
  | stuck => exact there
  | @cons first rest seq w w' stop path hash undoable later ih =>
    refine ih ?_ (before.trans (Nat.lt_succ_self _))
    have put := Db.putRow_journal w.db (auditRow jobId seq path hash)
    have kept := (@Journal.mem_insertRow (auditRow jobId seq path hash) _ _
      (w.db.journal jobId).sorted).mpr (.inr ⟨there,before.ne⟩)
    exact put ▸ kept

/-- Whoever reverses a row leaves an audit row. -/
theorem audited {first : Logged} {rest : List Logged}
    (reversal : Reversal v jobId (first :: rest) seq w stop w')
    (undoable : first.step.Undoable v w.disk) :
    ∃ row ∈ (w'.db.journal jobId).rows, row.operation = .undo := by
  cases reversal with
  | stuck _ _ stuck => exact absurd undoable stuck
  | @cons _ _ _ _ _ _ path hash undoable later =>
    refine ⟨auditRow jobId seq path hash,later.stays ?_ (Nat.lt_succ_self _),rfl⟩
    have put := Db.putRow_journal w.db (auditRow jobId seq path hash)
    have inserted := (@Journal.mem_insertRow (auditRow jobId seq path hash) _ _
      (w.db.journal jobId).sorted).mpr (.inl rfl)
    exact put ▸ inserted

theorem still {first : Logged} {rest : List Logged} {d : Disk}
    (undoable : first.step.Undoable v d)
    (apart : ∀ logged ∈ rest, first.step.Apart logged.step) :
    ∀ logged ∈ rest, (logged.step.Undoable v (first.step.undone d) ↔
      logged.step.Undoable v d) := fun logged found =>
  Step.undoable_within (Step.undone_within undoable) (apart logged found)

/-- Only a row that could not be reversed at the outset stops the others. -/
theorem stop_iff (reversal : Reversal v jobId log seq w stop w') (separate : Separate log) :
    stop = none ↔ ∀ logged ∈ log, logged.step.Undoable v w.disk := by
  induction reversal with
  | nil => simp
  | @stuck first rest seq w stuck => simp [stuck]
  | @cons first rest seq w w' stop path hash undoable later ih =>
    obtain ⟨here,apart⟩ := List.pairwise_cons.mp separate
    rw [ih apart,List.forall_mem_cons]
    simp only [undoable,true_and]
    exact forall_congr' fun logged => forall_congr' fun found =>
      still undoable here logged found

theorem reversed (reversal : Reversal v jobId log seq w stop w') (separate : Separate log)
    (whole : stop = none) : Reversed v log w.disk w'.disk := by
  induction reversal with
  | nil => exact ⟨Within.refl _ _,fun _ => .nil _,by simp⟩
  | stuck => cases whole
  | @cons first rest seq w w' stop path hash undoable later ih =>
    obtain ⟨here,apart⟩ := List.pairwise_cons.mp separate
    have moved := Step.undone_within undoable
    have after := ih apart whole
    refine ⟨moved.trans after.within,fun intact => ?_,fun logged found loud => ?_⟩
    · refine .cons (Step.undone_restored undoable (intact first List.mem_cons_self)) ?_
      exact after.replays fun logged found =>
        (Step.intact_within moved (here logged found)).mpr
          (intact logged (List.mem_cons_of_mem _ found))
    · rcases List.mem_cons.mp found with rfl | found
      · have free : ∀ p ∈ rest.flatMap fun logged => logged.step.keys, p ∉ logged.step.keys := by
          intro p member
          obtain ⟨other,among,key⟩ := List.mem_flatMap.mp member
          exact (here other among).symm p key
        rw [Step.applied_within after.within free]
        exact Step.not_applied_undone undoable loud
      · exact after.gone logged found loud

/-- A step whose image is back was intact: a reversed move carries over whatever it finds. -/
theorem intact_of_holds (reversal : Reversal v jobId log seq w stop w') (separate : Separate log)
    (whole : stop = none) :
    ∀ logged ∈ log, logged.image.Holds w'.disk.tree.get → logged.step.Intact w.disk := by
  induction reversal with
  | nil => simp
  | stuck => cases whole
  | @cons first rest seq w w' stop path hash undoable later ih =>
    obtain ⟨here,apart⟩ := List.pairwise_cons.mp separate
    have moved := Step.undone_within undoable
    intro logged found holds
    rcases List.mem_cons.mp found with rfl | found
    · have same : logged.image.Holds (logged.step.undone w.disk).tree.get := by
        intro p key
        have free : p ∉ rest.flatMap fun other => other.step.keys := by
          intro member
          obtain ⟨other,among,also⟩ := List.mem_flatMap.mp member
          exact here other among p key also
        rw [← (later.reversed apart whole).within.elsewhere p free]
        exact holds p key
      exact Step.intact_of_undone undoable same
    · exact (Step.intact_within moved (here logged found)).mp (ih apart whole logged found holds)

end Reversal

end LocalBook.Recovery
