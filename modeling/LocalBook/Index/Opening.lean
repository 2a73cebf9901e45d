import Mathlib

/-! Opening the derived database. Its index tables come from a chain of versions, the history
tables beside them are made apart, and a database that cannot be prepared is dropped. -/
namespace LocalBook.Index.Opening

/-- The tables of the database and their indexes, each with its present definition. -/
inductive Object where
  | notes
  | tags
  | tagsFolded
  | properties
  | links
  | linksSource
  | linksResolved
  | backlinks
  | backlinksTarget
  | aiJobs
  | aiJobsTime
  | aiJobJournal
  | schedulerRuns
  | schedulerRunsTime
  | schedulerRunsTask
deriving DecidableEq

def schemaVersion : Int := 1

/-- `MIGRATIONS`: what the step from a version to the next one creates. -/
def migrations (version : Int) : List Object :=
  if version = 0 then
    [.notes,.tags,.tagsFolded,.properties,.links,.linksSource,.linksResolved,.backlinks,
      .backlinksTarget]
  else []

/-- `STATEMENTS` of the history schema. -/
def historyStatements : List Object :=
  [.aiJobs,.aiJobsTime,.aiJobJournal,.schedulerRuns,.schedulerRunsTime,.schedulerRunsTask]

variable {Row : Type}

/-- What a database holds: the rows of `schema_migrations` if it has that table, what else was
created, and the rows of the history tables. -/
structure Database (Row : Type) where
  schemaMigrations : Option (List Int) := none
  objects : List Object := []
  history : List Row := []
deriving DecidableEq

/-- `SELECT COALESCE(MAX(version), 0)`. -/
def Database.currentVersion (d : Database Row) : Int :=
  ((d.schemaMigrations.getD []).max?).getD 0

/-- `CREATE … IF NOT EXISTS`. -/
def Database.create (d : Database Row) (object : Object) : Database Row :=
  {d with objects := if object ∈ d.objects then d.objects else d.objects ++ [object]}

inductive Statement where
  | createSchemaMigrations
  | selectVersion
  | begin
  | create (object : Object)
  | insertVersion (version : Int)
  | commit
deriving DecidableEq

/-- A connection: what is committed, and what an open transaction sees. -/
structure Connection (Row : Type) where
  committed : Database Row
  working : Option (Database Row) := none

def Connection.change (c : Connection Row) (f : Database Row → Database Row) : Connection Row :=
  match c.working with
  | some content => {c with working := some (f content)}
  | none => {c with committed := f c.committed}

def Connection.after (c : Connection Row) : Statement → Connection Row
  | .createSchemaMigrations =>
    c.change fun d => {d with schemaMigrations := some (d.schemaMigrations.getD [])}
  | .selectVersion => c
  | .begin => {c with working := some c.committed}
  | .create object => c.change fun d => d.create object
  | .insertVersion version =>
    c.change fun d => {d with schemaMigrations := some (version :: d.schemaMigrations.getD [])}
  | .commit => {committed := c.working.getD c.committed}

inductive Failure where
  | futureSchemaVersion
  | migrationGap
  | databaseError
deriving DecidableEq

section prepare

variable (fails : Statement → Bool)

/-- `conn.execute`. -/
def execute (c : Connection Row) (statement : Statement) : Except Failure (Connection Row) :=
  if fails statement then .error .databaseError else .ok (c.after statement)

/-- `range(current, target)`. -/
def versions (current target : Int) : List Int :=
  (List.range (target - current).toNat).map fun n => current + n

def migrateStep (c : Connection Row) (version : Int) : Except Failure (Connection Row) :=
  if migrations version = [] then .error .migrationGap
  else do
    let c ← execute fails c .begin
    let c ← (migrations version).foldlM (fun c object => execute fails c (.create object)) c
    let c ← execute fails c (.insertVersion (version + 1))
    execute fails c .commit

/-- `_migrate`. -/
def migrate (c : Connection Row) : Except Failure (Connection Row) := do
  let c ← execute fails c .createSchemaMigrations
  let c ← execute fails c .selectVersion
  let current := c.committed.currentVersion
  if schemaVersion < current then .error .futureSchemaVersion
  else (versions current schemaVersion).foldlM (migrateStep fails) c

/-- `_ensure_history_tables`. -/
def ensureHistoryTables (c : Connection Row) : Except Failure (Connection Row) :=
  historyStatements.foldlM (fun c object => execute fails c (.create object)) c

end prepare

inductive File (Row : Type) where
  | absent
  | foreign
  | database (d : Database Row)

/-- The connections that one opening makes: the first, the one after it was refused, and the one
to the database made afresh. -/
inductive Attempt where
  | first
  | again
  | fresh
deriving DecidableEq

/-- How a connect fails: with a `DatabaseError`, or with another `sqlite3.Error`. -/
inductive Refusal where
  | databaseError
  | other
deriving DecidableEq

structure Faults where
  connect : Attempt → Option Refusal
  statement : Attempt → Statement → Bool

/-- `_connect`: content that is no database is refused by the first `PRAGMA`. -/
def connect (faults : Faults) (attempt : Attempt) : File Row → Except Refusal (Connection Row)
  | .foreign => .error ((faults.connect attempt).getD .databaseError)
  | .absent =>
    match faults.connect attempt with
    | some refusal => .error refusal
    | none => .ok ⟨{},none⟩
  | .database d =>
    match faults.connect attempt with
    | some refusal => .error refusal
    | none => .ok ⟨d,none⟩

/-- `_prepare`: what cannot be migrated is dropped, and a fresh database is migrated. -/
def prepare (faults : Faults) (attempt : Attempt) (c : Connection Row) :
    Option (Connection Row) :=
  match migrate (faults.statement attempt) c >>= ensureHistoryTables (faults.statement attempt) with
  | .ok c => some c
  | .error _ =>
    match connect faults .fresh (.absent : File Row) with
    | .ok c => (migrate (faults.statement .fresh) c).toOption
    | .error _ => none

/-- The connection that `open` prepares: content that is no database is dropped. -/
def opened (faults : Faults) (file : File Row) : Option (Attempt × Connection Row) :=
  match connect faults .first file with
  | .ok c => some (.first,c)
  | .error .other => none
  | .error .databaseError =>
    match connect faults .again (.absent : File Row) with
    | .ok c => some (.again,c)
    | .error _ => none

/-- `IndexDatabase.open`, with the database behind it if it returns. -/
def openDatabase (faults : Faults) (file : File Row) : Option (Database Row) :=
  (opened faults file).bind fun found =>
    (prepare faults found.1 found.2).map Connection.committed

structure Complete (d : Database Row) : Prop where
  version : d.currentVersion = schemaVersion
  index : ∀ object ∈ migrations 0, object ∈ d.objects
  history : ∀ object ∈ historyStatements, object ∈ d.objects

/-- What there is to lose: the history of a database of a version that the server knows. -/
def File.history : File Row → List Row
  | .database d => if d.currentVersion ≤ schemaVersion then d.history else []
  | _ => []

/-- A database of the current version has the index tables of that version. -/
def File.Faithful : File Row → Prop
  | .database d => d.currentVersion = schemaVersion → ∀ object ∈ migrations 0, object ∈ d.objects
  | _ => True

/-- The schema is complete and the history is still there. -/
def Opens (file : File Row) (d : Database Row) : Prop :=
  Complete d ∧ ∀ row ∈ file.history, row ∈ d.history

def statements (version : Int) : List Statement :=
  [.createSchemaMigrations,.selectVersion] ++
    (if version = 0 then
      [.begin] ++ (migrations 0).map .create ++ [.insertVersion 1,.commit] else []) ++
    historyStatements.map .create

/-- A database of a version is prepared at once: there is a way from its version to the current
one, and no statement fails. -/
def Prepares (fails : Statement → Bool) (version : Int) : Prop :=
  (version = 0 ∨ version = schemaVersion) ∧ ∀ statement ∈ statements version,
    fails statement = false

/-- The database that is opened is faithful and prepared at once, and if a refused file was
dropped for it then that file had no history to lose. -/
def Straight (faults : Faults) (file : File Row) : Prop :=
  match connect faults .first file with
  | .ok c => Prepares (faults.statement .first) c.committed.currentVersion ∧ file.Faithful
  | .error _ => Prepares (faults.statement .again) 0 ∧ file.history = []

section runs

variable {fails : Statement → Bool} {c : Connection Row}

def runAll (fails : Statement → Bool) (c : Connection Row) (l : List Statement) :
    Except Failure (Connection Row) :=
  l.foldlM (execute fails) c

theorem runAll_append (l m : List Statement) :
    runAll fails c (l ++ m) = runAll fails c l >>= fun c => runAll fails c m :=
  List.foldlM_append

theorem runAll_create (objects : List Object) :
    objects.foldlM (fun c object => execute fails c (.create object)) c =
      runAll fails c (objects.map .create) := by
  simp only [runAll,List.foldlM_map]

theorem runAll_ok {l : List Statement} (works : ∀ statement ∈ l, fails statement = false) :
    runAll fails c l = .ok (l.foldl Connection.after c) := by
  induction l generalizing c with
  | nil => rfl
  | cons statement l ih =>
    have first : execute fails c statement = .ok (c.after statement) := by
      simp [execute,works statement List.mem_cons_self]
    have rest := ih (c := c.after statement) fun later mem =>
      works later (List.mem_cons_of_mem _ mem)
    simp only [runAll,List.foldlM_cons,first,List.foldl_cons] at rest ⊢
    exact rest

theorem works_of_runAll {l : List Statement} {d : Connection Row}
    (done : runAll fails c l = .ok d) : ∀ statement ∈ l, fails statement = false := by
  induction l generalizing c with
  | nil => nofun
  | cons statement l ih =>
    cases failed : fails statement with
    | true =>
      simp only [runAll,List.foldlM_cons,execute,failed,if_true] at done
      cases done
    | false =>
      simp only [runAll,List.foldlM_cons,execute,failed,Bool.false_eq_true,if_false] at done
      rintro other mem
      rcases List.mem_cons.mp mem with rfl | later
      · exact failed
      · exact ih done other later

end runs

section migrating

variable {fails : Statement → Bool} {d : Database Row}

theorem ok_bind {α β : Type} (a : α) (f : α → Except Failure β) :
    (Except.ok a >>= f) = f a := rfl

theorem error_bind {α β : Type} (reason : Failure) (f : α → Except Failure β) :
    (Except.error reason >>= f) = .error reason := rfl

theorem execute_ok {c e : Connection Row} {statement : Statement}
    (done : execute fails c statement = .ok e) : e = c.after statement := by
  unfold execute at done
  split at done
  · cases done
  · exact (Except.ok.inj done).symm

theorem migrate_eq : migrate fails ⟨d,none⟩ =
    (runAll fails ⟨d,none⟩ [.createSchemaMigrations,.selectVersion] >>= fun c =>
      if schemaVersion < d.currentVersion then .error .futureSchemaVersion
      else (versions d.currentVersion schemaVersion).foldlM (migrateStep fails) c) := by
  simp only [migrate,runAll,List.foldlM_cons,List.foldlM_nil,bind_assoc,pure_bind]
  cases created : execute fails ⟨d,none⟩ .createSchemaMigrations with
  | error reason => rfl
  | ok c =>
    have new := execute_ok created
    subst new
    cases selected : execute fails
      ((⟨d,none⟩ : Connection Row).after .createSchemaMigrations) .selectVersion with
    | error reason =>
      simp only [ok_bind,selected,error_bind]
    | ok c =>
      have same := execute_ok selected
      subst same
      simp only [ok_bind,selected]
      rfl

theorem migrateStep_zero (c : Connection Row) : migrateStep fails c 0 =
    runAll fails c ([Statement.begin] ++ (migrations 0).map Statement.create ++
      [Statement.insertVersion 1,Statement.commit]) := by
  have some : migrations 0 ≠ [] := by decide
  rw [migrateStep,if_neg some,List.append_assoc,runAll_append]
  simp only [runAll_append,runAll_create]
  simp only [runAll,List.foldlM_cons,List.foldlM_nil,bind_pure,zero_add]

theorem prepared_eq (known : d.currentVersion = 0 ∨ d.currentVersion = schemaVersion) :
    (migrate fails ⟨d,none⟩ >>= ensureHistoryTables fails) =
      runAll fails ⟨d,none⟩ (statements d.currentVersion) := by
  have ensured : ensureHistoryTables fails =
      fun c : Connection Row => runAll fails c (historyStatements.map .create) := by
    funext c
    exact runAll_create historyStatements
  rw [migrate_eq,ensured,statements,runAll_append,runAll_append]
  rcases known with zero | one
  · have chain : versions d.currentVersion schemaVersion = [0] := by rw [zero]; rfl
    have older : ¬ schemaVersion < d.currentVersion := by rw [zero]; decide
    simp only [older,if_false,chain,List.foldlM_cons,List.foldlM_nil,bind_pure,migrateStep_zero]
    simp only [zero,if_true]
  · have chain : versions d.currentVersion schemaVersion = [] := by rw [one]; rfl
    have older : ¬ schemaVersion < d.currentVersion := by rw [one]; decide
    have later : d.currentVersion ≠ 0 := by rw [one]; decide
    simp only [older,if_false,chain,List.foldlM_nil,later]
    rfl

theorem not_migrated (unknown : ¬ (d.currentVersion = 0 ∨ d.currentVersion = schemaVersion))
    (c : Connection Row) : migrate fails ⟨d,none⟩ ≠ .ok c := by
  rw [migrate_eq]
  intro done
  cases first : runAll fails ⟨d,none⟩ [.createSchemaMigrations,.selectVersion] with
  | error reason =>
    rw [first] at done
    cases done
  | ok e =>
    rw [first,ok_bind] at done
    split at done
    · cases done
    · rename_i older
      simp only [schemaVersion] at unknown older
      have chain : versions d.currentVersion schemaVersion =
          d.currentVersion :: (versions d.currentVersion schemaVersion).tail := by
        obtain ⟨n,size⟩ : ∃ n, (1 - d.currentVersion).toNat = n + 1 :=
          ⟨(1 - d.currentVersion).toNat - 1,by omega⟩
        simp [versions,schemaVersion,size,List.range_succ_eq_map]
      have gap : migrateStep fails e d.currentVersion = .error .migrationGap := by
        have none : migrations d.currentVersion = [] := by simp [migrations]; omega
        simp [migrateStep,none]
      rw [chain,List.foldlM_cons,gap] at done
      cases done

end migrating

namespace Database

/-- The database after several `CREATE` statements. -/
def createAll (d : Database Row) (objects : List Object) : Database Row := objects.foldl create d

theorem mem_createAll {d : Database Row} {objects : List Object} {object : Object} :
    object ∈ (d.createAll objects).objects ↔ object ∈ d.objects ∨ object ∈ objects := by
  induction objects generalizing d with
  | nil => simp [createAll]
  | cons first objects ih =>
    have one : object ∈ (d.create first).objects ↔ object ∈ d.objects ∨ object = first := by
      simp only [create]
      split
      · rename_i known
        constructor
        · exact .inl
        · rintro (mem | rfl)
          · exact mem
          · exact known
      · simp
    simp only [createAll,List.foldl_cons] at ih ⊢
    rw [ih,one,List.mem_cons,or_assoc]

theorem createAll_rest (d : Database Row) (objects : List Object) :
    (d.createAll objects).schemaMigrations = d.schemaMigrations ∧
      (d.createAll objects).history = d.history := by
  induction objects generalizing d with
  | nil => exact ⟨rfl,rfl⟩
  | cons first objects ih => exact ih (d.create first)

theorem currentVersion_createAll (d : Database Row) (objects : List Object) :
    (d.createAll objects).currentVersion = d.currentVersion := by
  simp only [currentVersion,(createAll_rest d objects).1]

def stepped (d : Database Row) : Database Row :=
  {d.createAll (migrations 0) with
    schemaMigrations := some (1 :: (d.createAll (migrations 0)).schemaMigrations.getD [])}

theorem mem_stepped {d : Database Row} {object : Object} (mem : object ∈ migrations 0) :
    object ∈ d.stepped.objects := by
  simp only [stepped]
  exact mem_createAll.mpr (.inr mem)

theorem history_stepped (d : Database Row) : d.stepped.history = d.history := by
  simp only [stepped]
  exact (createAll_rest d (migrations 0)).2

theorem currentVersion_stepped {d : Database Row} (zero : d.currentVersion = 0) :
    d.stepped.currentVersion = schemaVersion := by
  have rows : d.stepped.schemaMigrations = some (1 :: d.schemaMigrations.getD []) := by
    simp only [stepped,(createAll_rest d (migrations 0)).1]
  simp only [currentVersion,rows,Option.getD_some,List.max?_cons] at zero ⊢
  cases older : (d.schemaMigrations.getD []).max? with
  | none => rfl
  | some greatest =>
    rw [older,Option.getD_some] at zero
    rw [zero]
    rfl

end Database

section outcome

variable {fails : Statement → Bool} {d : Database Row} {faults : Faults} {file : File Row}

theorem after_create (objects : List Object) :
    (objects.map .create).foldl Connection.after (⟨d,none⟩ : Connection Row) =
      ⟨d.createAll objects,none⟩ := by
  induction objects generalizing d with
  | nil => rfl
  | cons object objects ih => exact ih

theorem after_create_working (content : Database Row) (objects : List Object) :
    (objects.map .create).foldl Connection.after (⟨d,some content⟩ : Connection Row) =
      ⟨d,some (content.createAll objects)⟩ := by
  induction objects generalizing content with
  | nil => rfl
  | cons object objects ih => exact ih (content.create object)

theorem prepared_complete (known : d.currentVersion = 0 ∨ d.currentVersion = schemaVersion) :
    (Complete ((statements d.currentVersion).foldl Connection.after ⟨d,none⟩).committed ↔
        (File.database d).Faithful) ∧
      ((statements d.currentVersion).foldl Connection.after ⟨d,none⟩).committed.history =
        d.history := by
  let noted : Database Row := {d with schemaMigrations := some (d.schemaMigrations.getD [])}
  have started : [Statement.createSchemaMigrations,.selectVersion].foldl Connection.after
      ⟨d,none⟩ = ⟨noted,none⟩ := rfl
  rcases known with zero | one
  · -- The chain has one step, in a transaction of its own.
    have result : (statements d.currentVersion).foldl Connection.after ⟨d,none⟩ =
        ⟨noted.stepped.createAll historyStatements,none⟩ := by
      have begun : [Statement.begin].foldl Connection.after ⟨noted,none⟩ =
        ⟨noted,some noted⟩ := rfl
      have ended (made : Database Row) :
          [Statement.insertVersion 1,.commit].foldl Connection.after ⟨noted,some made⟩ =
            ⟨{made with schemaMigrations := some (1 :: made.schemaMigrations.getD [])},none⟩ := rfl
      rw [zero,statements,if_pos rfl]
      simp only [List.foldl_append,started,begun,after_create_working]
      rw [ended,after_create]
      rfl
    rw [result]
    have version : noted.currentVersion = 0 := zero
    have complete : Complete (noted.stepped.createAll historyStatements) := {
      version := (Database.currentVersion_createAll _ _).trans
        (Database.currentVersion_stepped version)
      index := fun object mem => Database.mem_createAll.mpr (.inl (Database.mem_stepped mem))
      history := fun object mem => Database.mem_createAll.mpr (.inr mem)}
    have faithful : (File.database d).Faithful := by
      intro current
      rw [zero] at current
      cases current
    constructor
    · exact iff_of_true complete faithful
    · exact (Database.createAll_rest _ _).2.trans (Database.history_stepped noted)
  · have result : (statements d.currentVersion).foldl Connection.after ⟨d,none⟩ =
        ⟨noted.createAll historyStatements,none⟩ := by
      have later : ¬ schemaVersion = 0 := by decide
      rw [one,statements,if_neg later]
      simp only [List.foldl_append,started]
      exact after_create historyStatements
    rw [result]
    constructor
    · constructor
      · intro complete current object mem
        have apart : object ∉ historyStatements :=
          (by decide : ∀ object ∈ migrations 0, object ∉ historyStatements) object mem
        exact (Database.mem_createAll.mp (complete.index object mem)).resolve_right apart
      · intro faithful
        exact {
          version := (Database.currentVersion_createAll _ _).trans one
          index := fun object mem => Database.mem_createAll.mpr (.inl (faithful one object mem))
          history := fun object mem => Database.mem_createAll.mpr (.inr mem)}
    · exact (Database.createAll_rest noted _).2

/-- A database that is made afresh after a drop never gets the history tables. -/
theorem not_complete_fresh {c : Connection Row}
    (done : migrate fails ⟨{},none⟩ = .ok c) : ¬ Complete c.committed := by
  have whole : migrate fails (⟨{},none⟩ : Connection Row) = runAll fails ⟨{},none⟩
      ([Statement.createSchemaMigrations,Statement.selectVersion] ++
        ([Statement.begin] ++ (migrations 0).map Statement.create ++
          [Statement.insertVersion 1,Statement.commit])) := by
    rw [migrate_eq,runAll_append]
    have chain : versions (({} : Database Row).currentVersion) schemaVersion = [0] := rfl
    have older : ¬ schemaVersion < ({} : Database Row).currentVersion := Int.not_lt.mpr zero_le_one
    simp only [older,if_false,chain,List.foldlM_cons,List.foldlM_nil,bind_pure,migrateStep_zero]
  rw [whole] at done
  have works := works_of_runAll done
  have result : runAll fails (⟨{},none⟩ : Connection Row) _ = .ok _ := runAll_ok works
  rw [done] at result
  have equal := Except.ok.inj result
  intro complete
  have table := complete.history .aiJobs (by decide)
  rw [equal] at table
  exact absurd table (by simp [Connection.after,Connection.change,Database.create,migrations])

theorem prepare_iff {attempt : Attempt} {e : Connection Row}
    (done : prepare faults attempt ⟨d,none⟩ = some e) :
    (Complete e.committed ↔
      Prepares (faults.statement attempt) d.currentVersion ∧ (File.database d).Faithful) ∧
      (Complete e.committed → e.committed.history = d.history) := by
  unfold prepare at done
  cases first : migrate (faults.statement attempt) ⟨d,none⟩ >>=
      ensureHistoryTables (faults.statement attempt) with
  | ok c =>
    rw [first] at done
    obtain rfl := Option.some.inj done
    have known : d.currentVersion = 0 ∨ d.currentVersion = schemaVersion := by
      by_contra unknown
      cases migrated : migrate (faults.statement attempt) ⟨d,none⟩ with
      | error reason =>
        rw [migrated] at first
        cases first
      | ok other => exact not_migrated unknown other migrated
    rw [prepared_eq known] at first
    have works := works_of_runAll first
    have result := Except.ok.inj ((runAll_ok works).symm.trans first)
    have spec := prepared_complete known
    rw [result] at spec
    exact ⟨spec.1.trans (and_iff_right ⟨known,works⟩).symm,fun _ => spec.2⟩
  | error reason =>
    rw [first] at done
    have dropped : ¬ Complete e.committed := by
      cases again : connect faults .fresh (.absent : File Row) with
      | error refusal => simp [again] at done
      | ok c =>
        have empty : c = ⟨{},none⟩ := by
          simp only [connect] at again
          split at again
          · cases again
          · exact (Except.ok.inj again).symm
        subst empty
        cases migrated : migrate (faults.statement .fresh) (⟨{},none⟩ : Connection Row) with
        | error reason => simp [again,migrated,Except.toOption] at done
        | ok c =>
          simp only [again,migrated,Except.toOption,Option.some.injEq] at done
          subst done
          exact not_complete_fresh migrated
    have not : ¬ Prepares (faults.statement attempt) d.currentVersion := by
      rintro ⟨known,works⟩
      rw [prepared_eq known,runAll_ok works] at first
      cases first
    exact ⟨iff_of_false dropped fun straight => not straight.1,
      fun complete => absurd complete dropped⟩

theorem connect_ok {attempt : Attempt} {c : Connection Row}
    (done : connect faults attempt file = .ok c) :
    (file = .absent ∧ c = ⟨{},none⟩) ∨ ∃ d, file = .database d ∧ c = ⟨d,none⟩ := by
  cases file with
  | foreign => cases done
  | absent =>
    simp only [connect] at done
    split at done
    · cases done
    · exact .inl ⟨rfl,(Except.ok.inj done).symm⟩
  | database d =>
    simp only [connect] at done
    split at done
    · cases done
    · exact .inr ⟨d,rfl,(Except.ok.inj done).symm⟩

theorem faithful_absent : (File.database ({} : Database Row)).Faithful := by
  intro current
  cases current

theorem history_subset : ∀ row ∈ (File.database d).history, row ∈ d.history := by
  intro row mem
  simp only [File.history] at mem
  split at mem
  · exact mem
  · cases mem

/-- If an opening returns, the schema is complete and the history is kept exactly if the
database that was opened is faithful and prepared at once, and no history was dropped before. -/
theorem opens_iff (returns : openDatabase faults file = some d) :
    Opens file d ↔ Straight faults file := by
  cases first : connect faults .first file with
  | ok c =>
    simp only [openDatabase,opened,first,Option.bind_some,Option.map_eq_some_iff] at returns
    obtain ⟨e,prepared,rfl⟩ := returns
    simp only [Straight,first,Opens]
    rcases connect_ok first with ⟨rfl,rfl⟩ | ⟨old,rfl,rfl⟩
    · obtain ⟨complete,-⟩ := prepare_iff prepared
      have nothing : ∀ row ∈ (File.absent : File Row).history, row ∈ e.committed.history :=
        fun row mem => absurd mem List.not_mem_nil
      exact (and_iff_left nothing).trans
        (complete.trans (and_congr_right fun _ => iff_of_true faithful_absent trivial))
    · obtain ⟨complete,kept⟩ := prepare_iff prepared
      rw [← complete]
      constructor
      · exact And.left
      · intro whole
        exact ⟨whole,fun row mem => kept whole ▸ history_subset row mem⟩
  | error refusal =>
    cases refusal with
    | other => simp [openDatabase,opened,first] at returns
    | databaseError =>
      cases again : connect faults .again (.absent : File Row) with
      | error refusal => simp [openDatabase,opened,first,again] at returns
      | ok c =>
        simp only [openDatabase,opened,first,again,Option.bind_some,
          Option.map_eq_some_iff] at returns
        obtain ⟨e,prepared,rfl⟩ := returns
        simp only [Straight,first,Opens]
        rcases connect_ok again with ⟨-,rfl⟩ | ⟨old,absent,-⟩
        · obtain ⟨complete,kept⟩ := prepare_iff prepared
          have version : ({} : Database Row).currentVersion = 0 := rfl
          have same := complete.trans (and_iff_left faithful_absent)
          rw [← version,← same]
          constructor
          · rintro ⟨whole,rows⟩
            refine ⟨whole,List.eq_nil_iff_forall_not_mem.mpr fun row mem => ?_⟩
            have still := rows row mem
            rw [kept whole] at still
            cases still
          · rintro ⟨whole,nothing⟩
            exact ⟨whole,by simp [nothing]⟩
        · cases absent

end outcome

/-- A database of version 0 in which an earlier opening left the tables `ai_jobs` and a row. -/
def halfMade : Database Nat := {schemaMigrations := some [],objects := [.aiJobs],history := [7]}

def noFaults : Faults := ⟨fun _ => none,fun _ _ => false⟩

theorem halfMade_opens : ∃ d, openDatabase noFaults (.database halfMade) = some d ∧
    Opens (.database halfMade) d := by
  have straight : Straight noFaults (.database halfMade) := by
    have faithful : (File.database halfMade).Faithful := by
      intro current
      cases current
    simp only [Straight,connect,noFaults]
    exact ⟨⟨.inl rfl,fun _ _ => rfl⟩,faithful⟩
  cases found : openDatabase noFaults (.database halfMade) with
  | none => exact absurd found (by decide)
  | some d => exact ⟨d,rfl,(opens_iff found).mpr straight⟩

/-- A database of a newer server is dropped, and the one made in its place has no history
tables. -/
theorem newer_incomplete : ¬ ∀ (file : File Nat) (d : Database Nat), file.Faithful →
    openDatabase noFaults file = some d → Opens file d := by
  intro claim
  let newer : File Nat := .database {schemaMigrations := some [2]}
  have faithful : newer.Faithful := by
    intro current
    cases current
  have returns : openDatabase noFaults newer = some {
    schemaMigrations := some [1]
    objects := migrations 0} := by decide
  have table := (claim newer _ faithful returns).1.history .aiJobs (by decide)
  exact absurd table (by decide)

end LocalBook.Index.Opening
