import LocalBook.Reader.Sync

/-! What a push does to the server: an accepted operation appends one outbox row, a refused
one changes nothing. -/
namespace LocalBook.Reader

def Yields (good : α → Prop) (x : Except ε α) : Prop := ∀ value, x = .ok value → good value

theorem yields_ok {good : α → Prop} {value : α} (fine : good value) :
    Yields good (.ok value : Except ε α) := by
  intro other same
  exact Except.ok.inj same ▸ fine

theorem yields_bind {good : β → Prop} {x : Except ε α} {f : α → Except ε β}
    (each : ∀ a, Yields good (f a)) : Yields good (x >>= f) := by
  intro value same
  cases x with
  | error fault => cases same
  | ok a => exact each a value same

structure Frame (db db' : Db) : Prop where
  devices : db'.devices = db.devices
  outbox : db'.outbox = db.outbox
  sequence : db'.sequence = db.sequence

/-- The entity tables and the outbox of two databases are the same. -/
structure SameRows (db db' : Db) : Prop where
  sources : db'.sources = db.sources
  sessions : db'.sessions = db.sessions
  highlights : db'.highlights = db.highlights
  notes : db'.notes = db.notes
  items : db'.items = db.items
  outbox : db'.outbox = db.outbox

theorem frame_of_deleteEntity (type : SyncEntityType) (id : Text) (db : Db) :
    Frame db (deleteEntity type id db) := by
  cases type <;> exact ⟨rfl,rfl,rfl⟩

theorem insertEntity_frame (device : Text) (type : SyncEntityType) (id : Text) (data : Data)
    (db : Db) : Yields (fun change => ∀ clock, Frame db (change clock))
      (insertEntity device type id data db) := by
  cases type <;>
    simp only [insertEntity,insertSource,insertSession,insertHighlight,insertNote,insertItem] <;>
    repeat' first
      | exact yields_ok fun _ => ⟨rfl,rfl,rfl⟩
      | refine yields_bind fun _ => ?_

theorem updateEntity_frame (type : SyncEntityType) (id : Text) (data : Data) (db : Db) :
    Yields (fun change => ∀ clock, Frame db (change clock)) (updateEntity type id data db) := by
  cases type <;>
    simp only [updateEntity,updateSource,updateSession,updateHighlight,updateNote,updateItem] <;>
    repeat' first
      | exact yields_ok fun _ => ⟨rfl,rfl,rfl⟩
      | refine yields_bind fun _ => ?_

theorem statement_frame (device : Text) (op : Operation) (db : Db) :
    Yields (fun change => ∀ clock, Frame db (change clock)) (statement device op db) := by
  unfold statement
  cases op.operation with
  | create => exact insertEntity_frame device op.entityType op.entityId op.data db
  | update => exact updateEntity_frame op.entityType op.entityId op.data db
  | delete => exact yields_ok fun _ => frame_of_deleteEntity op.entityType op.entityId db

/-- The server refuses an operation in the state it finds. -/
def Refused (device : Text) (op : Operation) (db : Db) : Prop :=
  ∃ error, applySyncOperation device op db = .error (.reader error)

/-- The server accepts an operation. -/
def Accepts (device : Text) (op : Operation) (clock : Clock) (db db' : Db) : Prop :=
  ∃ change, applySyncOperation device op db = .ok change ∧ change clock = db'

theorem accepts_frame {device : Text} {op : Operation} {clock : Clock} {db db' : Db}
    (accepts : Accepts device op clock db db') :
    db'.devices = db.devices ∧ db'.outbox = db.outbox ++ [outboxRow device op clock db] ∧
      db'.sequence = db.sequence + 1 := by
  obtain ⟨change,applied,rfl⟩ := accepts
  unfold applySyncOperation at applied
  cases ran : statement device op db with
  | error fault => simp [ran,Except.map] at applied
  | ok inner =>
    have frame := statement_frame device op db inner ran clock
    simp only [ran,Except.map,Except.ok.injEq] at applied
    subst applied
    exact ⟨frame.devices,by simp [addToOutbox,outboxRow,frame.outbox,frame.sequence],
      by simp [addToOutbox,frame.sequence]⟩

section Push

variable {device : Text} {clock : Nat → Clock} {n : Nat} {operations rest : List Operation}
  {op : Operation} {db db' : Db} {verdicts : List Verdict}

/-- The first operation of a batch that goes through was accepted or refused. -/
theorem applyOperations_cons
    (ran : applyOperations device clock n (op :: rest) db = .ok (verdicts,db')) :
    (∃ next vs, Accepts device op (clock n) db next ∧ verdicts = none :: vs ∧
      applyOperations device clock (n + 1) rest next = .ok (vs,db')) ∨
    (∃ error vs, applySyncOperation device op db = .error (.reader error) ∧
      verdicts = some error :: vs ∧
      applyOperations device clock (n + 1) rest db = .ok (vs,db')) := by
  rw [applyOperations] at ran
  split at ran
  · rename_i change applied
    cases tail : applyOperations device clock (n + 1) rest (change (clock n)) with
    | error what => simp [tail,Except.map] at ran
    | ok result =>
      simp only [tail,Except.map,Except.ok.injEq,Prod.mk.injEq] at ran
      exact .inl ⟨change (clock n),result.1,⟨change,applied,rfl⟩,ran.1.symm,by
        rw [tail,← ran.2]⟩
  · rename_i error refused
    cases tail : applyOperations device clock (n + 1) rest db with
    | error what => simp [tail,Except.map] at ran
    | ok result =>
      simp only [tail,Except.map,Except.ok.injEq,Prod.mk.injEq] at ran
      exact .inr ⟨error,result.1,refused,ran.1.symm,by rw [← ran.2]⟩
  · cases ran

/-- A batch appends one row for every operation it accepts, under fresh ids. -/
structure Appended (device : Text) (db db' : Db) (rows : List OutboxRow) : Prop where
  outbox : db'.outbox = db.outbox ++ rows
  device : ∀ row ∈ rows, row.deviceId = device
  ids : rows.map OutboxRow.id = List.range' (db.sequence + 1) rows.length
  sequence : db'.sequence = db.sequence + rows.length
  devices : db'.devices = db.devices

theorem applyOperations_appended (ran : applyOperations device clock n operations db =
    .ok (verdicts,db')) :
    ∃ rows, Appended device db db' rows ∧ rows.length = verdicts.countP Option.isNone := by
  induction operations generalizing n db verdicts with
  | nil =>
    obtain ⟨rfl,rfl⟩ := Prod.mk.inj (Except.ok.inj ran)
    exact ⟨[],⟨by simp,by simp,by simp,by simp,rfl⟩,by simp⟩
  | cons op rest ih =>
    rcases applyOperations_cons ran with ⟨next,vs,accepts,rfl,tail⟩ | ⟨error,vs,-,rfl,tail⟩
    · obtain ⟨rows,appended,count⟩ := ih tail
      obtain ⟨devices,outbox,sequence⟩ := accepts_frame accepts
      refine ⟨outboxRow device op (clock n) db :: rows,⟨?_,?_,?_,?_,?_⟩,by simp [count]⟩
      · rw [appended.outbox,outbox,List.append_assoc,List.singleton_append]
      · intro row found
        rcases List.mem_cons.mp found with rfl | later
        · rfl
        · exact appended.device row later
      · rw [List.map_cons,appended.ids,sequence,List.length_cons,List.range'_succ]
        rfl
      · rw [appended.sequence,sequence,List.length_cons]
        omega
      · exact appended.devices.trans devices
    · obtain ⟨rows,appended,count⟩ := ih tail
      exact ⟨rows,appended,by simp [count]⟩

/-- A batch of which nothing is accepted changes nothing, and each of its operations is
refused where the batch found the server. -/
theorem applyOperations_refused (ran : applyOperations device clock n operations db =
    .ok (verdicts,db')) (none_ : verdicts.countP Option.isNone = 0) :
    db' = db ∧ ∀ op ∈ operations, Refused device op db := by
  induction operations generalizing n verdicts with
  | nil =>
    obtain ⟨-,rfl⟩ := Prod.mk.inj (Except.ok.inj ran)
    exact ⟨rfl,by simp⟩
  | cons op rest ih =>
    rcases applyOperations_cons ran with ⟨next,vs,-,rfl,-⟩ | ⟨error,vs,refused,rfl,tail⟩
    · simp at none_
    · obtain ⟨same,others⟩ := ih tail (by simpa using none_)
      exact ⟨same,List.forall_mem_cons.mpr ⟨⟨error,refused⟩,others⟩⟩

/-- Conversely, a batch of refused operations goes through and accepts none of them. -/
theorem applyOperations_of_refused (clock : Nat → Clock) (n : Nat)
    (refused : ∀ op ∈ operations, Refused device op db) :
    ∃ vs, applyOperations device clock n operations db = .ok (vs,db) ∧
      vs.countP Option.isNone = 0 := by
  induction operations generalizing n with
  | nil => exact ⟨[],rfl,rfl⟩
  | cons op rest ih =>
    obtain ⟨⟨error,here⟩,others⟩ := List.forall_mem_cons.mp refused
    obtain ⟨vs,ran,count⟩ := ih (n + 1) others
    exact ⟨some error :: vs,by simp [applyOperations,here,ran,Except.map],by simp [count]⟩

theorem length_verdicts (ran : applyOperations device clock n operations db =
    .ok (verdicts,db')) : verdicts.length = operations.length := by
  induction operations generalizing n db verdicts with
  | nil =>
    obtain ⟨rfl,-⟩ := Prod.mk.inj (Except.ok.inj ran)
    rfl
  | cons op rest ih =>
    rcases applyOperations_cons ran with ⟨next,vs,-,rfl,tail⟩ | ⟨error,vs,-,rfl,tail⟩ <;>
      simp [ih tail]

end Push

end LocalBook.Reader
