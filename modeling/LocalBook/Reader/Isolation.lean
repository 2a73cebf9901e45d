import LocalBook.Reader.Pushing

/-! Which operations a batch survives. An operation with a value that no statement can bind
ends the batch it is part of; every other one is applied or refused on its own. -/
namespace LocalBook.Reader

def Unwrapped (x : Except Fault α) : Prop := ∃ what, x = .error (.unwrapped what)

def unbindable : Json → Bool
  | .null | .bool _ | .float _ _ | .str _ => false
  | .int value => !storable value
  | .surrogates | .arr _ | .obj _ => true

section Binding

def Binds (x : Except Fault β) (bad : Bool) : Prop :=
  (bad = true ∧ ∃ what, x = .error (.unwrapped what)) ∨ (bad = false ∧ ∃ value, x = .ok value)

variable {later : Prop}

theorem binds_bindParam (json : Json) : Binds (bindParam json) (unbindable json) := by
  cases json with
  | int value =>
    by_cases fits : storable value = true <;> simp [Binds,unbindable,bindParam,fits]
  | _ => simp [Binds,unbindable,bindParam]

theorem Binds.map {x : Except Fault β} {bad : Bool} (binds : Binds x bad) (f : β → γ) :
    Binds (f <$> x) bad := by
  rcases binds with ⟨bad,what,rfl⟩ | ⟨fine,value,rfl⟩
  · exact .inl ⟨bad,what,rfl⟩
  · exact .inr ⟨fine,f value,rfl⟩

theorem binds_bindText (json : Json) : Binds (bindText json) (unbindable json) :=
  (binds_bindParam json).map Value.textAffinity

theorem binds_given (json : Json) : Binds (given json) (unbindable (json.or .null)) := by
  unfold given Json.or
  split
  · exact (binds_bindParam json).map some
  · exact .inr ⟨rfl,none,rfl⟩

theorem Binds.then {x : Except Fault β} {f : β → Except Fault α} {bad : Bool}
    (binds : Binds x bad) (each : ∀ value, Unwrapped (f value) ↔ later) :
    Unwrapped (x >>= f) ↔ bad = true ∨ later := by
  rcases binds with ⟨rfl,what,rfl⟩ | ⟨rfl,value,rfl⟩
  · exact iff_of_true ⟨what,rfl⟩ (.inl rfl)
  · exact (each value).trans (by simp)

def Expected (x : Except Fault α) : Prop := ¬ Unwrapped x

theorem expected_ok (value : α) : Expected (.ok value : Except Fault α) := by
  rintro ⟨what,same⟩
  cases same

theorem expected_refuse {condition : Bool} {error : ReaderError} {f : Unit → Except Fault α}
    (after : Expected (f ())) : Expected (refuse condition (.reader error) >>= f) := by
  cases condition with
  | true =>
    rintro ⟨what,same⟩
    cases same
  | false => exact after

theorem unwrapped_refuse {condition : Bool} {error : ReaderError} {f : Unit → Except Fault α} :
    Unwrapped (refuse condition (.reader error) >>= f) ↔
      condition = false ∧ Unwrapped (f ()) := by
  cases condition with
  | true => exact iff_of_false (fun ⟨_,same⟩ => by cases same) (by simp)
  | false => exact (and_iff_right rfl).symm

end Binding

def createBindings (device : Text) (type : SyncEntityType) (data : Data) : List Json :=
  match type with
  | .source =>
    let sourceType := (data.get "source_type").or (data.get "type")
    if !sourceType.truthy then []
    else [sourceType,data.get "title",data.get "url",data.get "canonical_url",
          data.get "file_path",data.get "file_hash"]
  | .session =>
    if device = [] || !(data.get "source_id").truthy then []
    else [data.get "source_id",(data.get "started_at").or .null,data.get "ended_at",
          (data.get "duration").or (data.get "duration_seconds"),
          data.getD "highlight_count" (.int 0),data.getD "query_count" (.int 0),
          data.getD "note_count" (.int 0)]
  | .highlight =>
    let text := (data.get "selected_text").or (data.get "text")
    if !text.truthy || !(data.get "source_id").truthy then []
    else [data.get "source_id",data.get "session_id",text,data.get "context_before",
          data.get "context_after",data.get "page",
          data.getD "sync_state" (.str "pending".toList)]
  | .note =>
    if !(data.get "content").truthy || !(data.get "source_id").truthy then []
    else [data.get "source_id",data.get "highlight_id",data.get "session_id",
          data.get "content",(data.get "created_at").or .null,
          (data.get "updated_at").or .null,data.getD "sync_state" (.str "pending".toList)]
  | .readerItem =>
    if !(data.get "type").truthy || !(data.get "content").truthy then []
    else [data.get "type",data.get "source_id",data.get "session_id",data.get "parent_id",
          data.get "content",data.get "metadata",(data.get "created_at").or .null,
          (data.get "updated_at").or .null,data.getD "sync_state" (.str "pending".toList)]

def updateBindings (type : SyncEntityType) (data : Data) : List Json :=
  match type with
  | .source => [data.get "title",data.get "last_read_at"]
  | .session =>
    [data.get "ended_at",(data.get "duration").or (data.get "duration_seconds"),
     data.get "highlight_count",data.get "query_count",data.get "note_count"]
  | .highlight =>
    [(data.get "selected_text").or (data.get "text"),data.get "context_before",
     data.get "context_after",data.get "page",data.get "sync_state"]
  | .note => [data.get "content"]
  | .readerItem =>
    [data.get "type",data.get "source_id",data.get "session_id",data.get "parent_id",
     data.get "content",data.get "metadata",data.get "sync_state"]

def bindings (device : Text) (op : Operation) : List Json :=
  match op.operation with
  | .create => createBindings device op.entityType op.data
  | .update => updateBindings op.entityType op.data
  | .delete => []

/-- Every value that an operation binds can be bound. -/
def Bindable (device : Text) (op : Operation) : Prop :=
  (bindings device op).any unbindable = false

section Statements

variable {device id : Text} {data : Data} {db : Db}

theorem unwrapped_updateEntity (type : SyncEntityType) :
    Unwrapped (updateEntity type id data db) ↔
      (updateBindings type data).any unbindable = true := by
  cases type <;>
    simp only [updateEntity,updateSource,updateSession,updateHighlight,updateNote,updateItem,
      updateBindings,List.any_cons,List.any_nil,Bool.or_eq_true] <;>
    repeat' first
      | refine (binds_bindText _).then fun _ => ?_
      | refine (binds_bindParam _).then fun _ => ?_
      | exact iff_of_false (expected_ok _) Bool.false_ne_true
      | refine iff_of_false (expected_refuse ?_) Bool.false_ne_true
      | refine expected_refuse ?_
      | exact expected_ok _

theorem any_guarded {condition : Bool} {values : List Json} {unwrapped : Prop}
    (bound : unwrapped ↔ values.any unbindable = true) :
    condition = false ∧ unwrapped ↔
      (if condition then [] else values).any unbindable = true := by
  cases condition with
  | true => exact iff_of_false (by simp) (by simp)
  | false => exact (and_iff_right rfl).trans bound

theorem unwrapped_insertEntity (type : SyncEntityType) :
    Unwrapped (insertEntity device type id data db) ↔
      (createBindings device type data).any unbindable = true := by
  cases type <;>
    simp only [insertEntity,insertSource,insertSession,insertHighlight,insertNote,insertItem,
      createBindings,missing,invalidOperation,unwrapped_refuse,← and_assoc,
      ← Bool.or_eq_false_iff] <;>
    refine any_guarded ?_ <;>
    simp only [List.any_cons,List.any_nil,Bool.or_eq_true] <;>
    repeat' first
      | refine (binds_bindText _).then fun _ => ?_
      | refine (binds_bindParam _).then fun _ => ?_
      | refine (binds_given _).then fun _ => ?_
      | exact iff_of_false (expected_ok _) Bool.false_ne_true
      | refine iff_of_false (expected_refuse ?_) Bool.false_ne_true
      | refine expected_refuse ?_
      | exact expected_ok _

theorem unwrapped_applySyncOperation {op : Operation} :
    Unwrapped (applySyncOperation device op db) ↔ ¬ Bindable device op := by
  have mapped : Unwrapped (applySyncOperation device op db) ↔
      Unwrapped (statement device op db) := by
    unfold applySyncOperation
    cases statement device op db with
    | error fault => exact Iff.rfl
    | ok change => exact iff_of_false (expected_ok _) (expected_ok _)
  rw [mapped,Bindable,Bool.not_eq_false,statement,bindings]
  cases op.operation with
  | create => exact unwrapped_insertEntity op.entityType
  | update => exact unwrapped_updateEntity op.entityType
  | delete => exact iff_of_false (expected_ok _) Bool.false_ne_true

end Statements

/-- `push_sync_operations`: the batch is committed, or rolled back when it raises. -/
def pushSyncOperations (device : Text) (operations : List Operation) (clock : Nat → Clock)
    (db : Db) : Except String PushSyncResponse × Db :=
  match applyOperations device clock 0 operations db with
  | .ok (verdicts,db') => (.ok (tally operations verdicts),db')
  | .error what => (.error what,db)

def Unappliable (device : Text) (op : Operation) (db : Db) : Prop :=
  ∃ fault, applySyncOperation device op db = .error fault

/-- Each operation of a batch has its own fate: it is accepted and applied, or it cannot be
applied, is rejected and leaves no trace. -/
inductive Fates (device : Text) (clock : Nat → Clock) :
    Nat → List Operation → List Verdict → Db → Db → Prop where
  | nil (n : Nat) (db : Db) : Fates device clock n [] [] db db
  | accepted {n : Nat} {op : Operation} {rest : List Operation} {verdicts : List Verdict}
      {db next db' : Db} (accepts : Accepts device op (clock n) db next)
      (later : Fates device clock (n + 1) rest verdicts next db') :
      Fates device clock n (op :: rest) (none :: verdicts) db db'
  | rejected {n : Nat} {op : Operation} {rest : List Operation} {verdicts : List Verdict}
      {db db' : Db} {error : ReaderError} (fails : Unappliable device op db)
      (later : Fates device clock (n + 1) rest verdicts db db') :
      Fates device clock n (op :: rest) (some error :: verdicts) db db'

def OutboxRow.distributed (row : OutboxRow) : Text × Operation :=
  (row.deviceId,⟨row.operation,row.entityType,row.entityId,row.data⟩)

def acceptedOf (operations : List Operation) (verdicts : List Verdict) : List Operation :=
  ((operations.zip verdicts).filter fun entry => entry.2.isNone).map Prod.fst

/-- The batch goes through, each of its operations has its own fate, the accepted ones are
appended to the outbox in order, and the counts add up. -/
def Isolated (device : Text) (operations : List Operation) (clock : Nat → Clock) (db : Db) :
    Prop :=
  ∃ verdicts db',
    pushSyncOperations device operations clock db = (.ok (tally operations verdicts),db') ∧
    Fates device clock 0 operations verdicts db db' ∧
    (∃ rows, db'.outbox = db.outbox ++ rows ∧ rows.map OutboxRow.distributed =
      (acceptedOf operations verdicts).map fun op => (device,op)) ∧
    (tally operations verdicts).accepted + (tally operations verdicts).rejected =
      operations.length

section Batch

variable {device : Text} {clock : Nat → Clock} {n : Nat} {operations : List Operation}
  {db db' : Db} {verdicts : List Verdict}

theorem fates_of_applyOperations
    (ran : applyOperations device clock n operations db = .ok (verdicts,db')) :
    Fates device clock n operations verdicts db db' := by
  induction operations generalizing n db verdicts with
  | nil =>
    obtain ⟨rfl,rfl⟩ := Prod.mk.inj (Except.ok.inj ran)
    exact .nil n db
  | cons op rest ih =>
    rcases applyOperations_cons ran with ⟨next,vs,accepts,rfl,tail⟩ | ⟨error,vs,refused,rfl,tail⟩
    · exact .accepted accepts (ih tail)
    · exact .rejected ⟨_,refused⟩ (ih tail)

theorem Fates.rows (fates : Fates device clock n operations verdicts db db') :
    ∃ rows, db'.outbox = db.outbox ++ rows ∧ rows.map OutboxRow.distributed =
      (acceptedOf operations verdicts).map fun op => (device,op) := by
  induction fates with
  | nil n db => exact ⟨[],by simp,rfl⟩
  | @accepted n op rest verdicts db next db' accepts later ih =>
    obtain ⟨rows,appended,same⟩ := ih
    obtain ⟨-,outbox,-⟩ := accepts_frame accepts
    refine ⟨outboxRow device op (clock n) db :: rows,?_,?_⟩
    · rw [appended,outbox,List.append_assoc,List.singleton_append]
    · have first : acceptedOf (op :: rest) (none :: verdicts) = op :: acceptedOf rest verdicts := rfl
      rw [List.map_cons,same,first,List.map_cons]
      rfl
  | rejected fails later ih => exact ih

theorem Fates.counts (fates : Fates device clock n operations verdicts db db') :
    (tally operations verdicts).accepted + (tally operations verdicts).rejected =
      operations.length := by
  induction fates with
  | nil n db => rfl
  | accepted accepts later ih =>
    simp only [tally,List.countP_cons,List.length_cons] at ih ⊢
    simp only [Option.isNone_none,if_true,Option.isSome_none,Bool.false_eq_true,if_false]
    omega
  | rejected fails later ih =>
    simp only [tally,List.countP_cons,List.length_cons] at ih ⊢
    simp only [Option.isNone_some,Bool.false_eq_true,if_false,Option.isSome_some,if_true]
    omega

theorem applyOperations_ok_iff :
    (∃ result, applyOperations device clock n operations db = .ok result) ↔
      ∀ op ∈ operations, Bindable device op := by
  induction operations generalizing n db with
  | nil => exact iff_of_true ⟨_,rfl⟩ (by simp)
  | cons op rest ih =>
    rw [List.forall_mem_cons,applyOperations]
    have here := @unwrapped_applySyncOperation device db op
    cases applied : applySyncOperation device op db with
    | ok change =>
      rw [applied] at here
      have bindable := not_not.mp (mt here.mpr (expected_ok change))
      rw [and_iff_right bindable,← @ih (n + 1) (change (clock n))]
      dsimp only
      cases applyOperations device clock (n + 1) rest (change (clock n)) <;> simp [Except.map]
    | error fault =>
      rw [applied] at here
      cases fault with
      | reader error =>
        have bindable : Bindable device op :=
          not_not.mp (mt here.mpr (by rintro ⟨what,same⟩; cases same))
        rw [and_iff_right bindable,← @ih (n + 1) db]
        dsimp only
        cases applyOperations device clock (n + 1) rest db <;> simp [Except.map]
      | unwrapped what =>
        refine iff_of_false (by rintro ⟨result,same⟩; cases same) fun both => ?_
        exact here.mp ⟨what,rfl⟩ both.1

theorem Isolated.ran (isolated : Isolated device operations clock db) :
    ∃ result, applyOperations device clock 0 operations db = .ok result := by
  obtain ⟨verdicts,db',pushed,-⟩ := isolated
  unfold pushSyncOperations at pushed
  cases ran : applyOperations device clock 0 operations db with
  | ok result => exact ⟨result,rfl⟩
  | error what =>
    rw [ran] at pushed
    cases (Prod.mk.inj pushed).1

/-- A push isolates its operations from each other exactly when every value that one of them
binds can be bound. -/
theorem isolated_iff :
    Isolated device operations clock db ↔ ∀ op ∈ operations, Bindable device op := by
  rw [← @applyOperations_ok_iff device clock 0 operations db]
  constructor
  · exact Isolated.ran
  · rintro ⟨⟨verdicts,db'⟩,ran⟩
    have fates := fates_of_applyOperations ran
    refine ⟨verdicts,db',?_,fates,fates.rows,fates.counts⟩
    rw [pushSyncOperations,ran]

end Batch

def listTitle : Operation where
  operation := .create
  entityType := .source
  entityId := "s2".toList
  data := [("type".toList,.str "web".toList),("title".toList,.arr [])]

/-- A batch with one good operation and one that binds a list. -/
theorem listTitle_not_isolated :
    ¬ Isolated "macbook".toList [{listTitle with data := [("type".toList,.str "web".toList)]},
      listTitle] (fun _ _ => 0) {devices := ["macbook".toList]} := by
  intro isolated
  have all := applyOperations_ok_iff.mp isolated.ran
  exact absurd (all listTitle (by simp)) (by unfold Bindable; decide)

end LocalBook.Reader
