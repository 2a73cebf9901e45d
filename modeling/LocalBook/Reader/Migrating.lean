import LocalBook.Reader.Schema

/-! Where a start of the server that is cut off leaves the schema of the outbox, and what
the next start makes of it. -/
namespace LocalBook.Reader.Schema

open Effect

def Target (origin : Option Outbox) (rows : List Row) : Prop :=
  match origin with
  | none => rows = []
  | some (.legacy old) => ∃ device, rows = old.map (migrateRow device)
  | some (.current kept) => rows = kept

def Indexed (db : Database) : Prop := ∀ name ∈ outboxIndexes, (name,Table.outbox) ∈ db.indexes

/-- The outbox has the current schema, and exactly the rows it is to have. -/
def Converged (origin : Option Outbox) (db : Database) : Prop :=
  ∃ rows, db.outbox = some (.current rows) ∧ Target origin rows ∧ Indexed db

def Reserved (indexes : List (String × Table)) : Prop :=
  ∀ entry ∈ indexes, entry.1 ∈ outboxIndexes → entry.2 = .outbox

/-- The first migration has been applied and the outbox is the old one. -/
structure Ready (origin : Option Outbox) (db : Database) : Prop where
  legacy : ∃ old, db.outbox = some (.legacy old) ∧
    ∀ device, Target origin (old.map (migrateRow device))
  versions : db.versions.isSome
  applied : db.versioned 1 ∨ db.recorded .initReaderSchema
  devices : db.devices.isSome
  conversations : db.conversations.isSome
  sessions : .sessions ∈ db.others
  reserved : Reserved db.indexes
  pairing : db.recorded .pairingAndOutbox → db.recorded .pairingApproval = false →
    db.pairing.isSome
  approval : db.recorded .pairingApproval = false →
    ∀ columns, db.pairing = some columns → "approved_at" ∉ columns

def Early (db : Database) : Prop :=
  db = {} ∨ db = {ledger := some []} ∨ db = {ledger := some [],devices := some []}

instance (db : Database) : Decidable (Early db) := inferInstanceAs (Decidable (_ ∨ _ ∨ _))

def Outbox.isLegacy : Outbox → Bool
  | .legacy _ => true
  | .current _ => false

def HalfInitialised (db : Database) : Prop :=
  db.versioned 1 = false ∧ db.recorded .initReaderSchema = false ∧ db.indexes ≠ [] ∧
    db.outbox.all Outbox.isLegacy = true

instance (db : Database) : Decidable (HalfInitialised db) :=
  inferInstanceAs (Decidable (_ ∧ _ ∧ _ ∧ _))

/-- The column of the sixth migration is there and the migration is not recorded, while the
outbox is still the old one. -/
def HalfApproved (db : Database) : Prop :=
  db.outbox.any Outbox.isLegacy = true ∧ db.recorded .pairingApproval = false ∧
    db.pairing.any (fun columns => "approved_at" ∈ columns) = true

instance (db : Database) : Decidable (HalfApproved db) := inferInstanceAs (Decidable (_ ∧ _ ∧ _))

def Halfway (db : Database) : Prop := HalfInitialised db ∨ HalfApproved db

instance (db : Database) : Decidable (Halfway db) := inferInstanceAs (Decidable (_ ∨ _))

/-- A database the server may be given: a new one, one with the old outbox, or one with the
current outbox. -/
def Starting (db : Database) : Prop := db = {} ∨ Ready db.outbox db ∨ Converged db.outbox db

/-- No start leaves a database halfway. -/
def Unbroken : List (Option Nat) → Database → Prop
  | [],_ => True
  | cut :: rest,db => ¬ Halfway (start cut db) ∧ Unbroken rest (start cut db)

/-- What the disk may hold between two calls of the driver. -/
def Safe (origin : Option Outbox) (db : Database) : Prop :=
  (origin = none ∧ Early db) ∨ Ready origin db ∨ Converged origin db ∨ Halfway db

section Rules

variable {I E : Connection → Prop} {c : Connection} {s : Statement} {db' : Database}

theorem keeps_look {f : Database → Action β} {Q : β → Connection → Prop} (here : I c)
    (next : Keeps sqlite I E (f c.visible) c Q) : Keeps sqlite I E (look >>= f) c Q :=
  ⟨here,next⟩

theorem keeps_commit {Q : Unit → Connection → Prop} (here : I c)
    (after : I {disk := c.visible}) (post : Q () {disk := c.visible}) :
    Keeps sqlite I E commit c Q := ⟨here,after,post⟩

theorem keeps_begin {Q : Unit → Connection → Prop} (here : I c)
    (after : I {c with pending := some c.visible})
    (post : Q () {c with pending := some c.visible}) : Keeps sqlite I E begin c Q :=
  ⟨here,after,post⟩

theorem keeps_execute {Q : Unit → Connection → Prop} (ran : s.run c.visible = .ok db')
    (here : I c) (after : I (c.keep s.opens db')) (post : Q () (c.keep s.opens db')) :
    Keeps sqlite I E (execute s) c Q := by
  refine ⟨here,?_⟩
  simp only [sqlite,ran]
  exact ⟨after,post⟩

theorem keeps_step {Q : Unit → Connection → Prop} (ran : s.run c.visible = .ok db')
    (here : I c) (after : I (c.keep false db')) (post : Q () (c.keep false db')) :
    Keeps sqlite I E (step s) c Q := by
  refine ⟨here,?_⟩
  simp only [sqlite,ran]
  exact ⟨after,post⟩

theorem keeps_inTurn {action : α → Action Unit} {P : Connection → Prop} {l : List α}
    (here : ∀ c, P c → I c)
    (each : ∀ a ∈ l, ∀ c, P c → Keeps sqlite I E (action a) c fun _ => P) (start : P c) :
    Keeps sqlite I E (inTurn action l) c fun _ => P := by
  induction l generalizing c with
  | nil => exact keeps_pure (here c start) start
  | cons a rest ih =>
    refine (each a List.mem_cons_self c start).then fun _ c' after => ?_
    exact ih (fun b listed => each b (List.mem_cons_of_mem a listed)) after

theorem visible_keep (opens : Bool) : (c.keep opens db').visible = db' := by
  unfold Connection.keep Connection.visible
  split <;> rfl

theorem disk_keep (opens : Bool) :
    (c.keep opens db').disk = c.disk ∨ (c.keep opens db').disk = db' := by
  unfold Connection.keep
  split
  · exact .inl rfl
  · exact .inr rfl

end Rules

section Current

variable {origin : Option Outbox} {db db' : Database} {c : Connection} {s : Statement}

/-- A table that is not there is added beside the others. -/
theorem outbox_add (table : Table) (there : db.outbox.isSome = true) :
    (if db.has table then db else db.add table).outbox = db.outbox := by
  cases table with
  | outbox => rw [Database.has,if_pos there]
  | _ =>
    split
    · rfl
    · rfl

theorem indexes_add (table : Table) :
    (if db.has table then db else db.add table).indexes = db.indexes := by
  split
  · rfl
  · cases table <;> rfl

/-- Only dropping it takes a current outbox away. -/
theorem converged_of_run (converged : Converged origin db) (other : s ≠ .dropOutbox)
    (ran : s.run db = .ok db') : Converged origin db' := by
  obtain ⟨rows,current,target,indexed⟩ := converged
  have kept : db'.outbox = db.outbox ∧
      ∀ name, (name,Table.outbox) ∈ db.indexes → (name,Table.outbox) ∈ db'.indexes := by
    cases s with
    | dropOutbox => exact absurd rfl other
    | createTableIfNotExists table =>
      obtain rfl := Except.ok.inj ran
      exact ⟨outbox_add table (by simp [current]),by simp [indexes_add]⟩
    | createOutbox => simp [Statement.run,current] at ran
    | renameOutboxNew =>
      cases copied : db.outboxNew <;> simp [Statement.run,current,copied] at ran
    | createIndex name table | createIndexIfNotExists name table =>
      simp only [Statement.run] at ran
      repeat' split at ran
      all_goals cases ran
      all_goals exact ⟨rfl,fun _ listed => by simp [listed]⟩
    | renameConversationsNew =>
      simp only [Statement.run] at ran
      split at ran
      · cases ran
      · cases ran
      · cases ran
        exact ⟨rfl,fun name listed => List.mem_map.mpr ⟨_,listed,by simp⟩⟩
    | _ =>
      simp only [Statement.run] at ran
      repeat' split at ran
      all_goals cases ran
      all_goals exact ⟨rfl,fun _ listed => by simp [Database.unindex,listed]⟩
  exact ⟨rows,kept.1.trans current,target,fun name listed => kept.2 name (indexed name listed)⟩

def Steady (origin : Option Outbox) (c : Connection) : Prop :=
  Converged origin c.disk ∧ Converged origin c.visible

abbrev Spares (origin : Option Outbox) (action : Action Unit) (c : Connection) : Prop :=
  Keeps sqlite (fun c => Converged origin c.disk) (fun c => Converged origin c.disk) action c
    fun _ => Steady origin

theorem Steady.keep (steady : Steady origin c) (other : s ≠ .dropOutbox)
    (ran : s.run c.visible = .ok db') (opens : Bool) : Steady origin (c.keep opens db') := by
  have next := converged_of_run steady.2 other ran
  refine ⟨?_,by rwa [visible_keep]⟩
  rcases disk_keep opens with same | same <;> rw [same]
  · exact steady.1
  · exact next

theorem steady_execute (steady : Steady origin c) (other : s ≠ .dropOutbox) :
    Spares origin (execute s) c := by
  cases ran : s.run c.visible with
  | ok db' =>
    have kept := steady.keep other ran s.opens
    exact keeps_execute ran steady.1 kept.1 kept
  | error fault =>
    refine ⟨steady.1,?_⟩
    simp only [sqlite,ran]
    exact ⟨steady.1,steady.1⟩

theorem steady_step (steady : Steady origin c) (other : s ≠ .dropOutbox) :
    Spares origin (step s) c := by
  cases ran : s.run c.visible with
  | ok db' =>
    have kept := steady.keep other ran false
    exact keeps_step ran steady.1 kept.1 kept
  | error fault =>
    refine ⟨steady.1,?_⟩
    simp only [sqlite,ran]
    exact ⟨steady.1,steady.1⟩

theorem steady_pure (steady : Steady origin c) : Spares origin (pure () : Action Unit) c :=
  keeps_pure steady.1 steady

theorem steady_commit (steady : Steady origin c) :
    Spares origin commit c :=
  keeps_commit steady.1 steady.2 ⟨steady.2,steady.2⟩

theorem steady_begin (steady : Steady origin c) :
    Spares origin begin c :=
  keeps_begin steady.1 steady.1 steady

theorem steady_script {script : List Statement} (steady : Steady origin c)
    (others : .dropOutbox ∉ script) :
    Spares origin (executeScript script) c := by
  refine (steady_commit steady).then fun _ c after => ?_
  refine keeps_inTurn (fun c steady => steady.1) (fun s listed c steady => ?_) after
  exact steady_step steady fun same => others (same ▸ listed)

theorem steady_skipIf {condition : Prop} [Decidable condition] {action : Action Unit}
    (steady : Steady origin c)
    (keeps : Spares origin action c) :
    Spares origin (skipIf condition action) c := by
  unfold skipIf
  split
  · exact steady_pure steady
  · exact keeps

/-- The second migration leaves a current outbox alone. -/
theorem steady_applyMigration002 (steady : Steady origin c) :
    Spares origin applyMigration002 c := by
  have tokens : Keeps sqlite (fun c => Converged origin c.disk)
      (fun c => Converged origin c.disk) ensurePairingTokens c fun _ => Steady origin := by
    refine keeps_look steady.1 ?_
    cases c.visible.pairing with
    | none =>
      refine (steady_script steady (by decide)).then fun _ c after => ?_
      exact steady_commit after
    | some columns =>
      refine steady_skipIf steady ?_
      refine (steady_skipIf steady (steady_execute steady (by simp))).then fun _ c after => ?_
      refine (steady_skipIf after (steady_execute after (by simp))).then fun _ c after => ?_
      exact steady_commit after
  refine tokens.then fun _ c after => keeps_look after.1 ?_
  obtain ⟨rows,current,-⟩ := after.2
  rw [current]
  exact steady_pure after

theorem steady_applyMigration003 (steady : Steady origin c) :
    Spares origin applyMigration003 c := by
  refine keeps_look steady.1 ?_
  cases c.visible.conversations with
  | none => exact steady_pure steady
  | some table =>
    refine steady_skipIf steady ?_
    refine Keeps.then (Q := fun _ => Steady origin) ?_ fun _ c after =>
      steady_script after (by decide)
    · refine (steady_begin steady).then fun _ c after => ?_
      refine (steady_execute after (by simp)).then fun _ c after => ?_
      refine (steady_execute after (by simp)).then fun _ c after => ?_
      refine (steady_execute after (by simp)).then fun _ c after => ?_
      refine (steady_execute after (by simp)).then fun _ c after => ?_
      refine (steady_execute after (by simp)).then fun _ c after => ?_
      refine (steady_execute after (by simp)).then fun _ c after => ?_
      refine (steady_execute after (by simp)).then fun _ c after => ?_
      refine (steady_execute after (by simp)).then fun _ c after => ?_
      refine (steady_execute after (by simp)).then fun _ c after => ?_
      exact steady_commit after

theorem steady_applyMigration007 (steady : Steady origin c) :
    Spares origin applyMigration007 c := by
  refine keeps_look steady.1 ?_
  refine (steady_skipIf steady (steady_execute steady (by simp))).then fun _ c after => ?_
  refine (steady_execute after (by simp)).then fun _ c after => ?_
  refine (steady_execute after (by simp)).then fun _ c after => ?_
  exact steady_commit after

theorem steady_migrate (migration : Migration) (steady : Steady origin c) :
    Spares origin (migrate migration) c := by
  refine keeps_look steady.1 (steady_skipIf steady ?_)
  · refine Keeps.then (Q := fun _ => Steady origin) ?_ fun _ c after => ?_
    · cases migration with
      | pairingAndOutbox => exact steady_applyMigration002 steady
      | conversationSourceNullable => exact steady_applyMigration003 steady
      | conversationOwner => exact steady_applyMigration007 steady
      | _ => exact steady_script steady (by decide)
    · exact (steady_execute after (by simp)).then fun _ c after => steady_commit after

theorem steady_healthCheck (steady : Steady origin c) :
    Spares origin healthCheck c := by
  exact keeps_look steady.1 (steady_skipIf steady (steady_applyMigration002 steady))

/-- A start leaves a current outbox alone, wherever it is cut off. -/
theorem steady_ensureSchema (steady : Steady origin c) :
    Spares origin ensureSchema c := by
  refine (steady_execute steady (by simp)).then fun _ c after => ?_
  refine (steady_commit after).then fun _ c after => ?_
  refine Keeps.then (Q := fun _ => Steady origin) ?_ fun _ c after => ?_
  · refine keeps_look after.1 (steady_skipIf after ?_)
    exact (steady_execute after (by simp)).then fun _ c after => steady_commit after
  refine Keeps.then (Q := fun _ => Steady origin) ?_ fun _ c after => steady_healthCheck after
  exact keeps_inTurn (fun c steady => steady.1)
    (fun migration _ c steady => steady_migrate migration steady) after

/-- Wherever a start is cut off, it leaves what may be on the disk on its way. -/
theorem way_start {W : Database → Prop} {E : Connection → Prop} {Q : Unit → Connection → Prop}
    (keeps : Keeps sqlite (fun c => W c.disk) E ensureSchema {disk := db} Q)
    (cut : Option Nat) : W (start cut db) := by
  cases cut with
  | some calls => exact keeps.crash calls
  | none =>
    have ended := keeps.run
    unfold start
    split at ended
    · rename_i ran
      rw [ran]
      exact ended.1
    · rename_i ran
      rw [ran]
      exact ended.1

/-- A converged database stays so. -/
theorem converged_start (cut : Option Nat) (converged : Converged origin db) :
    Converged origin (start cut db) :=
  way_start (@steady_ensureSchema origin {disk := db} ⟨converged,converged⟩) cut

end Current

end LocalBook.Reader.Schema
