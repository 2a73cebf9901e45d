import LocalBook.Actions.Schemas
import LocalBook.Sha256

/-! The derived history: one record per job and its journal, one row per step. The
repository's statements are the calls of this module. -/
namespace LocalBook

open Effect

inductive JobStatus where
  | planned
  | preflighted
  | captured
  | awaitingConfirmation
  | executing
  | validating
  | committed
  | rejected
  | rolledBack
  | failed
  | conflict
  | undone
  | undoUnavailable
  | rollbackFailed
  | recoveryRequired
deriving Repr,DecidableEq

inductive DiffOperation where
  | create
  | update
  | move
deriving Repr,DecidableEq

inductive DiffStatus where
  | proposed
  | accepted
deriving Repr,DecidableEq

structure DiffEntry where
  path : Text
  actionId : Text
  operation : DiffOperation
  targetFile : Option Text := none
  beforeHash : Option Text
  afterHash : Option Text
  beforeSize : Nat
  afterSize : Nat
  status : DiffStatus := .proposed
deriving Repr,DecidableEq

/-- The `error` of a record. -/
structure RecordError where
  code : String
  message : Text
  rules : List String := []
deriving Repr,DecidableEq

/-- A `dict` with texts as keys. -/
abbrev Hashes := List (Text × Option Text)

namespace Hashes

def get (hashes : Hashes) (path : Text) : Option Text := (hashes.lookup path).join

def set (hashes : Hashes) (path : Text) (hash : Option Text) : Hashes :=
  (path,hash) :: hashes.filter fun entry => entry.1 ≠ path

end Hashes

structure HistoryRecord where
  jobId : Text
  taskType : Text := "manual".toList
  permissionLevel : Nat := 1
  status : JobStatus := .planned
  error : Option RecordError := none
  filesRead : List Text := []
  proposedActions : List Action := []
  executedActions : List Action := []
  diff : List DiffEntry := []
  beforeHash : Hashes := []
  afterHash : Hashes := []
deriving DecidableEq

namespace HistoryRecord

def WithinLimits (record : HistoryRecord) : Prop :=
  0 < record.jobId.length ∧ record.jobId.length ≤ 128 ∧ record.taskType.length ≤ 64 ∧
    record.permissionLevel ≤ 2 ∧ record.filesRead.length ≤ 200 ∧
    record.proposedActions.length ≤ 20 ∧ record.executedActions.length ≤ 20 ∧
    record.diff.length ≤ 20

instance (record : HistoryRecord) : Decidable record.WithinLimits :=
  inferInstanceAs (Decidable (_ ∧ _))

end HistoryRecord

inductive JournalOperation where
  | create
  | update
  | move
  | undo
deriving Repr,DecidableEq

/-- `operation in _EXECUTABLE_OPERATIONS`. -/
def JournalOperation.executable : JournalOperation → Bool
  | .undo => false
  | _ => true

inductive RowState where
  | pending
  | applied
  | rolledBack
deriving Repr,DecidableEq

/-- One durable step of a transaction; `source` is the one of its `inverse`. -/
structure JournalEntry where
  jobId : Text
  seq : Nat
  operation : JournalOperation
  path : Text
  beforeExists : Bool
  beforeBytes : Option Bytes
  beforeHash : Option Text
  afterExists : Bool
  afterHash : Option Text
  source : Option Text := none
  state : RowState := .pending
deriving DecidableEq

/-- `len(base64.b64encode(data))`. -/
def base64Length (size : Nat) : Nat := 4 * ((size + 2) / 3)

def maxJournalBytesBase64 : Nat := 14000000

namespace JournalEntry

def journalLength (entry : JournalEntry) : Nat :=
  (entry.beforeBytes.map fun data => base64Length data.size).getD 0

def modelValidate (entry : JournalEntry) : Except Exc JournalEntry :=
  if entry.jobId.length = 0 ∨ entry.jobId.length > 128 then
    .error (.value "String should have between 1 and 128 characters")
  else if entry.path.length > 4096 then
    .error (.value "String should have at most 4096 characters")
  else if entry.journalLength > maxJournalBytesBase64 then
    .error (.value "journal before-state exceeds the size limit")
  else .ok entry

end JournalEntry

/-- The rows of one job, as `ORDER BY seq` lists them. -/
structure Journal where
  rows : List JournalEntry := []
  sorted : rows.Pairwise fun first second => first.seq < second.seq := by simp

namespace Journal

/-- `INSERT OR REPLACE` under the key `seq`. -/
def insertRow (entry : JournalEntry) : List JournalEntry → List JournalEntry
  | [] => [entry]
  | row :: rest =>
    if entry.seq < row.seq then entry :: row :: rest
    else if entry.seq = row.seq then entry :: rest
    else row :: insertRow entry rest

theorem mem_insertRow {entry row : JournalEntry} {rows : List JournalEntry}
    (sorted : rows.Pairwise fun first second => first.seq < second.seq) :
    row ∈ insertRow entry rows ↔ row = entry ∨ row ∈ rows ∧ row.seq ≠ entry.seq := by
  induction rows with
  | nil => simp [insertRow]
  | cons first rest ih =>
    obtain ⟨below,tail⟩ := List.pairwise_cons.mp sorted
    unfold insertRow
    split
    · next early =>
      have apart : ∀ row ∈ first :: rest, row.seq ≠ entry.seq := by
        intro row found
        rcases List.mem_cons.mp found with rfl | later
        · omega
        · have := below row later
          omega
      constructor
      · intro found
        rcases List.mem_cons.mp found with same | old
        · exact .inl same
        · exact .inr ⟨old,apart row old⟩
      · rintro (same | ⟨old,_⟩)
        · exact List.mem_cons.mpr (.inl same)
        · exact List.mem_cons.mpr (.inr old)
    · split
      · next same =>
        constructor
        · intro found
          rcases List.mem_cons.mp found with rfl | later
          · exact .inl rfl
          · have := below row later
            exact .inr ⟨List.mem_cons.mpr (.inr later),by omega⟩
        · rintro (rfl | ⟨found,other⟩)
          · simp
          · rcases List.mem_cons.mp found with rfl | later
            · exact absurd same.symm other
            · exact List.mem_cons.mpr (.inr later)
      · next differs =>
        rw [List.mem_cons,ih tail,List.mem_cons]
        constructor
        · rintro (rfl | rfl | ⟨old,other⟩)
          · exact .inr ⟨.inl rfl,by omega⟩
          · exact .inl rfl
          · exact .inr ⟨.inr old,other⟩
        · rintro (rfl | ⟨rfl | old,other⟩)
          · exact .inr (.inl rfl)
          · exact .inl rfl
          · exact .inr (.inr ⟨old,other⟩)

theorem sorted_insertRow (entry : JournalEntry) {rows : List JournalEntry}
    (sorted : rows.Pairwise fun first second => first.seq < second.seq) :
    (insertRow entry rows).Pairwise fun first second => first.seq < second.seq := by
  induction rows with
  | nil => simp [insertRow]
  | cons first rest ih =>
    obtain ⟨below,tail⟩ := List.pairwise_cons.mp sorted
    unfold insertRow
    split
    · next early =>
      refine List.pairwise_cons.mpr ⟨fun row found => ?_,sorted⟩
      rcases List.mem_cons.mp found with rfl | later
      · exact early
      · exact early.trans (below row later)
    · split
      · next same =>
        exact List.pairwise_cons.mpr ⟨fun row later => same ▸ below row later,tail⟩
      · next early differs =>
        refine List.pairwise_cons.mpr ⟨fun row found => ?_,ih tail⟩
        rcases (mem_insertRow tail).mp found with rfl | old
        · omega
        · exact below row old.1

def insert (journal : Journal) (entry : JournalEntry) : Journal :=
  ⟨insertRow entry journal.rows,sorted_insertRow entry journal.sorted⟩

/-- `UPDATE ai_job_journal SET state=? WHERE job_id=?`. -/
def setState (journal : Journal) (state : RowState) : Journal :=
  ⟨journal.rows.map fun row => {row with state},List.pairwise_map.mpr journal.sorted⟩

def get? (journal : Journal) (seq : Nat) : Option JournalEntry :=
  journal.rows.find? fun row => row.seq = seq

@[ext] theorem ext {journal journal' : Journal} (same : journal.rows = journal'.rows) :
    journal = journal' := by
  cases journal
  cases journal'
  exact (Journal.mk.injEq _ _ _ _).mpr same

end Journal

/-- The tables `ai_jobs` and `ai_job_journal`. -/
structure Db where
  jobs : Text → Option HistoryRecord
  journal : Text → Journal
  keyed : ∀ jobId record, jobs jobId = some record → record.jobId = jobId

inductive DbOp where
  | save (record : HistoryRecord)
  | get (jobId : Text)
  | addJournal (entry : JournalEntry)
  | journal (jobId : Text)
  | setJournalState (jobId : Text) (state : RowState)

def DbOp.Res : DbOp → Type
  | .get _ => Option HistoryRecord
  | .addJournal _ => Except Exc Unit
  | .journal _ => List JournalEntry
  | _ => Unit

namespace Db

def empty : Db := ⟨fun _ => none,fun _ => {},by simp⟩

def save (db : Db) (record : HistoryRecord) : Db where
  jobs := Function.update db.jobs record.jobId (some record)
  journal := db.journal
  keyed jobId stored found := by
    by_cases same : jobId = record.jobId
    · subst same
      simp_all
    · rw [Function.update_of_ne same] at found
      exact db.keyed jobId stored found

/-- A stored record that no longer passes its validators reads as absent. -/
def get (db : Db) (jobId : Text) : Option HistoryRecord :=
  (db.jobs jobId).filter fun record => record.WithinLimits

def putRow (db : Db) (entry : JournalEntry) : Db :=
  {db with
    journal := Function.update db.journal entry.jobId ((db.journal entry.jobId).insert entry)}

def addJournal (db : Db) (entry : JournalEntry) : Except Exc Unit × Db :=
  if (db.jobs entry.jobId).isSome then (.ok (),db.putRow entry) else (.error .integrity,db)

def setJournalState (db : Db) (jobId : Text) (state : RowState) : Db :=
  {db with journal := Function.update db.journal jobId ((db.journal jobId).setState state)}

theorem get_eq_some {db : Db} {jobId : Text} {record : HistoryRecord} :
    db.get jobId = some record ↔ db.jobs jobId = some record ∧ record.WithinLimits := by
  simp [get,Option.filter_eq_some_iff]

theorem get_save (db : Db) {record : HistoryRecord} (fits : record.WithinLimits) :
    (db.save record).get record.jobId = some record := by simp [save,get,fits]

@[simp] theorem save_journal (db : Db) (record : HistoryRecord) :
    (db.save record).journal = db.journal := rfl

@[simp] theorem putRow_jobs (db : Db) (entry : JournalEntry) :
    (db.putRow entry).jobs = db.jobs := rfl

@[simp] theorem putRow_journal (db : Db) (entry : JournalEntry) :
    (db.putRow entry).journal entry.jobId = (db.journal entry.jobId).insert entry := by
  simp [putRow]

@[simp] theorem setJournalState_jobs (db : Db) (jobId : Text) (state : RowState) :
    (db.setJournalState jobId state).jobs = db.jobs := rfl

@[simp] theorem setJournalState_journal (db : Db) (jobId : Text) (state : RowState) :
    (db.setJournalState jobId state).journal jobId = (db.journal jobId).setState state := by
  simp [setJournalState]

end Db

def DbOp.step (op : DbOp) (db : Db) : op.Res × Db := match op with
  | .save record => ((),db.save record)
  | .get jobId => (db.get jobId,db)
  | .addJournal entry => db.addJournal entry
  | .journal jobId => ((db.journal jobId).rows,db)
  | .setJournalState jobId state => ((),db.setJournalState jobId state)

end LocalBook
