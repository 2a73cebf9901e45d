import LocalBook.ReadFlow.Storage

/-! Whether the outbox tells of every local edit: a server that is given all entries the
outbox ever had, from nothing, ends up with the synced tables of the client. -/
namespace LocalBook.ReadFlow

inductive Mutation where
  | createSource (source : Source)
  | updateSource (source : Source)
  | deleteSource (id : UUID)
  | createReaderItem (item : ReaderItem)
  | updateReaderItem (item : ReaderItem)
  | deleteReaderItem (id : UUID)
  | createHighlight (highlight : Highlight)
  | updateHighlight (highlight : Highlight)
  | deleteHighlight (id : UUID)
  | createNote (note : Note)
  | updateNote (note : Note)
  | deleteNote (id : UUID)

def Mutation.run (mutation : Mutation) (now : Date) (db : ReaderDatabase) :
    Except DatabaseError ReaderDatabase :=
  match mutation with
  | .createSource row => db.createSource row now
  | .updateSource row => db.updateSource row now
  | .deleteSource id => .ok (db.deleteSource id now)
  | .createReaderItem row => db.createReaderItem row now
  | .updateReaderItem row => db.updateReaderItem row now
  | .deleteReaderItem id => .ok (db.deleteReaderItem id now)
  | .createHighlight row => db.createHighlight row now
  | .updateHighlight row => db.updateHighlight row now
  | .deleteHighlight id => .ok (db.deleteHighlight id now)
  | .createNote row => db.createNote row now
  | .updateNote row => db.updateNote row now
  | .deleteNote id => .ok (db.deleteNote id now)

inductive Pulled where
  | upsert (entity : Entity)
  | delete (key : Key)

def Pulled.run (pulled : Pulled) (now : Date) (db : ReaderDatabase) :
    Except DatabaseError ReaderDatabase :=
  match pulled with
  | .upsert (.source row) => db.upsertSource row
  | .upsert (.readerItem row) => db.upsertReaderItem row
  | .upsert (.highlight row) => db.upsertHighlight row
  | .upsert (.note row) => db.upsertNote row
  | .delete (.source id) => .ok (db.deleteSource id now)
  | .delete (.readerItem id) => .ok (db.deleteReaderItem id now)
  | .delete (.highlight id) => .ok (db.deleteHighlight id now)
  | .delete (.note id) => .ok (db.deleteNote id now)

inductive Step where
  | edit (mutation : Mutation) (now : Date)
  | pull (pulled : Pulled) (now : Date)
  | markSuccess (id : Nat)
  | markFailed (id : Nat) (error : String)
  | clearOutbox

/-- A transaction that throws is rolled back. -/
def commit (db : ReaderDatabase) : Except DatabaseError ReaderDatabase → ReaderDatabase
  | .ok db' => db'
  | .error _ => db

namespace Step

def run (db : ReaderDatabase) : Step → ReaderDatabase
  | .edit mutation now => commit db (mutation.run now db)
  | .pull pulled now => commit db (pulled.run now db)
  | .markSuccess id => db.markSuccess id
  | .markFailed id error => db.markFailed id error
  | .clearOutbox => db.clearOutbox

def isPull : Step → Bool
  | .pull _ _ => true
  | _ => false

end Step

def runSteps (steps : List Step) (db : ReaderDatabase) : ReaderDatabase := steps.foldl Step.run db

def Tables.drop (key : Key) (tables : Tables) : Tables :=
  match key with
  | .source id =>
    Tables.dropHighlights (fun highlight => highlight.sourceID = id)
      (Tables.dropNotes (fun note => note.sourceID = id)
        {tables with sources := tables.sources.filter fun row => row.id ≠ id})
  | .readerItem id =>
    {tables with readerItems := tables.readerItems.filter fun row => row.id ≠ id}
  | .highlight id => tables.dropHighlights fun row => row.id = id
  | .note id => tables.dropNotes fun row => row.id = id

/-- What one entry makes of the tables of a server. -/
def Tables.receive (tables : Tables) (entry : OutboxEntry) : Tables :=
  match entry.operation,entry.payload with
  | .create,some entity => if tables.has entity.key then tables else tables.append entity
  | .update,some entity => tables.replace entity
  | .delete,_ => tables.drop entry.key
  | _,none => tables

def replay (entries : List OutboxEntry) (tables : Tables) : Tables :=
  entries.foldl Tables.receive tables

def Accounted (db db' : ReaderDatabase) : Prop :=
  ∃ entries, db'.outbox = db.outbox ++ entries ∧ db'.history = db.history ++ entries ∧
    db'.tables = replay entries db.tables

/-- A predicate holds of every edit of a run, where it is made. -/
def EveryEdit (holds : Mutation → Date → ReaderDatabase → Prop) :
    List Step → ReaderDatabase → Prop
  | [],_ => True
  | step :: rest,db =>
    (∀ mutation now, step = .edit mutation now → holds mutation now db) ∧
      EveryEdit holds rest (step.run db)

/-- Every edit of a run is told of in its own transaction, and at each point before anything
was pulled the entries told of so far make the tables of the client from nothing. -/
def Complete (steps : List Step) : Prop :=
  EveryEdit (fun mutation now db => Accounted db (Step.run db (.edit mutation now))) steps {} ∧
    ∀ past, past <+: steps → (∀ step ∈ past, step.isPull = false) →
      (runSteps past {}).tables = replay (runSteps past {}).history {}

/-- An edit that is enqueued as it is made: it changes no source and deletes none, and takes
no item along with its parent. -/
def Enqueued (mutation : Mutation) (_now : Date) (db : ReaderDatabase) : Prop :=
  match mutation with
  | .updateSource source => ∀ row ∈ db.tables.sources, row.id = source.id → row = source
  | .deleteSource id => ∀ row ∈ db.tables.sources, row.id ≠ id
  | .deleteReaderItem id =>
    (∃ row ∈ db.tables.readerItems, row.id = id) →
      ∀ child ∈ db.tables.readerItems, child.parentID = some id → child.id = id
  | _ => True

section Tables

variable {entity : Entity} {tables tables' : Tables}

theorem has_of_insert (ran : tables.insert entity = .ok tables') :
    tables.has entity.key = false ∧ tables' = tables.append entity := by
  unfold Tables.insert at ran
  split at ran
  · cases ran
  · rename_i fine
    simp only [Bool.or_eq_true,not_or,Bool.not_eq_true] at fine
    exact ⟨fine.1,(Except.ok.inj ran).symm⟩

theorem replaced_of_update (ran : tables.update entity = .ok tables') :
    tables' = tables.replace entity := by
  unfold Tables.update at ran
  split at ran
  · cases ran
  · split at ran
    · exact (Except.ok.inj ran).symm
    · cases ran

theorem map_eq_self_iff [DecidableEq κ] (key : α → κ) (new : α) (rows : List α) :
    (rows.map fun row => if key row = key new then new else row) = rows ↔
      ∀ row ∈ rows, key row = key new → row = new := by
  induction rows with
  | nil => simp
  | cons row rest ih =>
    rw [List.map_cons,List.cons.injEq,ih,List.forall_mem_cons]
    refine and_congr_left fun _ => ?_
    by_cases same : key row = key new
    · simp [same,eq_comm]
    · simp [same]

/-- A cascade keeps none of the rows it starts from. -/
theorem cascadeItems_kept {gone : ReaderItem → Bool} {rounds : Nat} {items : List ReaderItem}
    {item : ReaderItem} (kept : item ∈ Tables.cascadeItems rounds gone items)
    (some_ : rounds ≠ 0) : gone item = false := by
  have fewer : ∀ (rounds : Nat) (gone : ReaderItem → Bool) (items : List ReaderItem),
      ∀ item ∈ Tables.cascadeItems rounds gone items, item ∈ items := by
    intro rounds
    induction rounds with
    | zero => exact fun _ _ _ found => found
    | succ rounds ih =>
      intro gone items item found
      rw [Tables.cascadeItems] at found
      split at found
      · exact List.mem_of_mem_filter found
      · exact List.mem_of_mem_filter (ih _ _ item found)
  obtain ⟨more,rfl⟩ := Nat.exists_eq_succ_of_ne_zero some_
  have found : item ∈ items.filter fun item => !gone item := by
    rw [Tables.cascadeItems] at kept
    split at kept
    · exact kept
    · exact fewer _ _ _ item kept
  simpa using (List.mem_filter.mp found).2

/-- A deleted item goes alone exactly when no other item hangs on it. -/
theorem cascadeItems_eq_filter_iff (id : UUID) (items : List ReaderItem) :
    Tables.cascadeItems (items.length + 1) (fun row => row.id = id) items =
        items.filter (fun row => row.id ≠ id) ↔
      ((∃ row ∈ items, row.id = id) →
        ∀ child ∈ items, child.parentID = some id → child.id = id) := by
  have kept : (items.filter fun row => !decide (row.id = id)) =
      items.filter fun row => row.id ≠ id := by
    simp only [decide_not]
  have ids : ∀ key, key ∈ (items.filter fun row => row.id = id).map ReaderItem.id →
      key = id := by
    intro key found
    obtain ⟨row,listed,rfl⟩ := List.mem_map.mp found
    simpa using (List.mem_filter.mp listed).2
  rw [Tables.cascadeItems,kept]
  by_cases some_ : ∃ row ∈ items, row.id = id
  · obtain ⟨row,listed,same⟩ := some_
    have self : id ∈ (items.filter fun row => row.id = id).map ReaderItem.id :=
      List.mem_map.mpr ⟨row,List.mem_filter.mpr ⟨listed,by simpa using same⟩,same⟩
    rw [if_neg (by simpa using ⟨row,listed,same⟩)]
    constructor
    · intro alone _ child found hangs
      by_contra other
      have stays : child ∈ items.filter fun row => row.id ≠ id :=
        List.mem_filter.mpr ⟨found,by simpa using other⟩
      rw [← alone] at stays
      have untouched := cascadeItems_kept stays
        (Nat.ne_of_gt (List.length_pos_of_mem listed))
      simp [hangs,self] at untouched
    · intro orphan
      have none_ : ∀ child ∈ items.filter fun row => row.id ≠ id,
          (child.parentID.any fun key =>
            key ∈ (items.filter fun row => row.id = id).map ReaderItem.id) = false := by
        intro child found
        obtain ⟨listed',other⟩ := List.mem_filter.mp found
        rw [Bool.eq_false_iff]
        intro hangs
        obtain ⟨key,parent,member⟩ := (Option.any_eq_true ..).mp hangs
        have same' := ids key (by simpa using member)
        subst same'
        exact absurd (orphan ⟨row,listed,same⟩ child listed' parent) (by simpa using other)
      obtain ⟨rounds,long⟩ := Nat.exists_eq_succ_of_ne_zero
        (Nat.ne_of_gt (List.length_pos_of_mem listed))
      rw [long,Tables.cascadeItems,List.filter_eq_nil_iff.mpr fun child found => by
        simp [none_ child found]]
      rw [if_pos (by simp)]
      exact List.filter_eq_self.mpr fun child found => by simp [none_ child found]
  · have empty : (items.filter fun row => row.id = id) = [] :=
      List.filter_eq_nil_iff.mpr fun row listed same =>
        some_ ⟨row,listed,by simpa using same⟩
    rw [if_pos (by simp [empty])]
    exact ⟨fun _ row => absurd row some_,fun _ => rfl⟩

/-- Deleting a source of which there is no row changes nothing; deleting one changes the
sources. -/
theorem dropSource_eq_self_iff (id : UUID) (tables : Tables) :
    tables.dropSource id = tables ↔ ∀ row ∈ tables.sources, row.id ≠ id := by
  unfold Tables.dropSource Tables.has
  by_cases some_ : (tables.sources.any fun row => row.id = id) = true
  · rw [if_pos some_]
    obtain ⟨row,listed,same⟩ := List.any_eq_true.mp some_
    constructor
    · intro still
      have rows := congrArg Tables.sources still
      exact List.filter_eq_self.mp rows |> fun all row listed => by simpa using all row listed
    · intro absent
      exact absurd (by simpa using same) (absent row listed)
  · rw [if_neg some_]
    refine ⟨fun _ row listed same => some_ ?_,fun _ => rfl⟩
    exact List.any_eq_true.mpr ⟨row,listed,by simpa using same⟩

end Tables

section Edits

variable {db db' : ReaderDatabase} {entity : Entity} {now : Date}

/-- A transaction that enqueues nothing is accounted for when it changes no table. -/
theorem accounted_silent {tables : Tables} :
    Accounted db {db with tables} ↔ tables = db.tables := by
  constructor
  · rintro ⟨entries,outbox,-,told⟩
    have none_ : entries = [] := by simpa using outbox
    subst none_
    exact told
  · rintro rfl
    exact ⟨[],by simp,by simp,rfl⟩

/-- A transaction that enqueues one entry is accounted for when the entry tells of all that
it changed. -/
theorem accounted_enqueue {key : Key} {operation : Reader.SyncOperation}
    {payload : Option Entity} {tables : Tables} :
    Accounted db ({db with tables}.enqueue key operation payload now) ↔
      tables = db.tables.receive
        {id := db.sequence + 1,key,operation,payload,createdAt := now} := by
  constructor
  · rintro ⟨entries,outbox,-,told⟩
    obtain rfl := List.append_cancel_left outbox
    exact told
  · rintro rfl
    exact ⟨_,rfl,rfl,rfl⟩

theorem accounted_commit {ran : Except DatabaseError ReaderDatabase}
    (fine : ∀ db', ran = .ok db' → Accounted db db') : Accounted db (commit db ran) := by
  cases ran with
  | ok db' => exact fine db' rfl
  | error _ => exact ⟨[],by simp [commit],by simp [commit],rfl⟩

theorem accounted_create : Accounted db (commit db (db.create entity now)) := by
  refine accounted_commit fun db' ran => ?_
  unfold ReaderDatabase.create at ran
  cases inserted : db.tables.insert entity with
  | error fault => simp [inserted,bind,Except.bind] at ran
  | ok tables =>
    obtain ⟨fresh,rfl⟩ := has_of_insert inserted
    simp only [inserted,bind,Except.bind,pure,Except.pure,Except.ok.injEq] at ran
    subst ran
    exact accounted_enqueue.mpr (by simp [Tables.receive,fresh])

theorem accounted_update : Accounted db (commit db (db.update entity now)) := by
  refine accounted_commit fun db' ran => ?_
  unfold ReaderDatabase.update at ran
  cases updated : db.tables.update entity with
  | error fault => simp [updated,bind,Except.bind] at ran
  | ok tables =>
    obtain rfl := replaced_of_update updated
    simp only [updated,bind,Except.bind,pure,Except.pure,Except.ok.injEq] at ran
    subst ran
    exact accounted_enqueue.mpr rfl

theorem accounted_delete {key : Key} :
    Accounted db (db.delete key now) ↔ db.tables.deleteOne key = db.tables.drop key :=
  accounted_enqueue

theorem accounted_updateSource {source : Source} :
    Accounted db (commit db (db.updateSource source now)) ↔
      ∀ row ∈ db.tables.sources, row.id = source.id → row = source := by
  have accepted : db.tables.accepts (.source source) = true := rfl
  unfold ReaderDatabase.updateSource Tables.update
  rw [accepted,Bool.not_true,if_neg Bool.false_ne_true]
  by_cases some_ : db.tables.has (Entity.source source).key = true
  · rw [if_pos some_]
    refine accounted_silent.trans (Iff.trans ?_ (map_eq_self_iff Source.id source _))
    exact ⟨fun same => congrArg Tables.sources same,fun same => by simp [Tables.replace,same]⟩
  · rw [if_neg some_]
    refine iff_of_true ⟨[],by simp [commit,bind,Except.bind],by simp [commit,bind,Except.bind],
      rfl⟩ fun row listed same => absurd ?_ some_
    exact List.any_eq_true.mpr ⟨row,listed,by simpa using same⟩

theorem accounted_deleteSource {id : UUID} :
    Accounted db (db.deleteSource id now) ↔ ∀ row ∈ db.tables.sources, row.id ≠ id :=
  accounted_silent.trans (dropSource_eq_self_iff id db.tables)

theorem accounted_deleteReaderItem {id : UUID} :
    Accounted db (db.deleteReaderItem id now) ↔
      ((∃ row ∈ db.tables.readerItems, row.id = id) →
        ∀ child ∈ db.tables.readerItems, child.parentID = some id → child.id = id) := by
  rw [← cascadeItems_eq_filter_iff]
  refine accounted_delete.trans ⟨fun same => congrArg Tables.readerItems same,fun same => ?_⟩
  simp only [Tables.deleteOne,Tables.dropItems,Tables.drop,same]

/-- What an edit changes is told of in its own transaction exactly when it is enqueued. -/
theorem accounted_iff (mutation : Mutation) (now : Date) (db : ReaderDatabase) :
    Accounted db (Step.run db (.edit mutation now)) ↔ Enqueued mutation now db := by
  cases mutation with
  | updateSource source => exact @accounted_updateSource db now source
  | deleteSource id => exact @accounted_deleteSource db now id
  | deleteReaderItem id => exact @accounted_deleteReaderItem db now id
  | createSource row | createReaderItem row | createHighlight row | createNote row =>
    exact iff_of_true accounted_create trivial
  | updateReaderItem row | updateHighlight row | updateNote row =>
    exact iff_of_true accounted_update trivial
  | deleteHighlight id | deleteNote id => exact iff_of_true (accounted_delete.mpr rfl) trivial

end Edits

section Runs

variable {holds holds' : Mutation → Date → ReaderDatabase → Prop} {steps : List Step}
  {db : ReaderDatabase}

theorem everyEdit_congr
    (same : ∀ mutation now db, holds mutation now db ↔ holds' mutation now db)
    (steps : List Step) (db : ReaderDatabase) :
    EveryEdit holds steps db ↔ EveryEdit holds' steps db := by
  induction steps generalizing db with
  | nil => exact Iff.rfl
  | cons step rest ih => simp only [EveryEdit,same,ih]

theorem EveryEdit.of_prefix {past : List Step} (every : EveryEdit holds steps db)
    (before : past <+: steps) : EveryEdit holds past db := by
  induction past generalizing steps db with
  | nil => trivial
  | cons step rest ih =>
    obtain ⟨later,rfl⟩ := before
    exact ⟨every.1,ih every.2 ⟨later,rfl⟩⟩

def Told (db : ReaderDatabase) : Prop := db.tables = replay db.history {}

theorem told_step {step : Step} (told : Told db)
    (accounted : ∀ mutation now, step = .edit mutation now → Accounted db (step.run db))
    (local_ : step.isPull = false) : Told (step.run db) := by
  cases step with
  | edit mutation now =>
    obtain ⟨entries,-,history,tables⟩ := accounted mutation now rfl
    rw [Told,tables,history,told,replay,replay,replay,List.foldl_append]
  | pull pulled now => cases local_
  | markSuccess id | markFailed id error | clearOutbox => exact told

theorem told_run (told : Told db)
    (every : EveryEdit (fun mutation now db => Accounted db (Step.run db (.edit mutation now)))
      steps db) (local_ : ∀ step ∈ steps, step.isPull = false) : Told (runSteps steps db) := by
  induction steps generalizing db with
  | nil => exact told
  | cons step rest ih =>
    obtain ⟨here,others⟩ := List.forall_mem_cons.mp local_
    refine ih (told_step told ?_ here) every.2 others
    rintro mutation now rfl
    exact every.1 mutation now rfl

end Runs

/-- The outbox is complete in exactly the runs whose edits are all enqueued. -/
theorem complete_iff_enqueued (steps : List Step) :
    Complete steps ↔ EveryEdit Enqueued steps {} := by
  have same := everyEdit_congr accounted_iff steps {}
  constructor
  · intro complete
    exact same.mp complete.1
  · intro enqueued
    have every := same.mpr enqueued
    exact ⟨every,fun past before local_ => told_run rfl (every.of_prefix before) local_⟩

/-- A page from the web. -/
def page (title : String) : Source where
  id := ⟨List.replicate 32 (Fin.last 15),List.length_replicate⟩
  type := .web
  title := title.toList
  createdAt := 0

/-- The new title of a source is never told. -/
theorem renamedSource_not_complete :
    ¬ Complete [.edit (.createSource (page "a")) 0,.edit (.updateSource (page "b")) 1] := by
  intro complete
  have enqueued := (accounted_iff _ _ _).mp (complete.1.2.1 _ _ rfl)
  have same := enqueued (page "a") (by decide) rfl
  exact absurd same (by decide)

end LocalBook.ReadFlow
