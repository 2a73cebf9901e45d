import LocalBook.ReadFlow.Encoding

/-! Whether a device tells the server again of what it was only told: the storage calls of a
pull against the outbox, for one page and for devices that push and pull in turn. -/
namespace LocalBook.ReadFlow

open Reader (Json Data)

def Key.type : Key → Reader.SyncEntityType
  | .source _ => .source
  | .readerItem _ => .readerItem
  | .highlight _ => .highlight
  | .note _ => .note

def Key.id : Key → UUID
  | .source id => id
  | .readerItem id => id
  | .highlight id => id
  | .note id => id

section Applying

variable [Foundation]

def Echoes (op : ServerOperation) : Prop :=
  op.operation = .delete ∧ op.entityType ≠ .source ∧ op.entityType ≠ .session

omit [Foundation] in
instance (op : ServerOperation) : Decidable (Echoes op) :=
  inferInstanceAs (Decidable (_ ∧ _))

/-- No deletion of a highlight, a note or an item is reached. -/
def Quiet (now : Date) : List ServerOperation → ReaderDatabase → Prop
  | [],_ => True
  | op :: rest,db =>
    ¬ Echoes op ∧ ∀ db', applyServerOperation op now db = some db' → Quiet now rest db'

def Untold (db db' : ReaderDatabase) : Prop :=
  db'.outbox = db.outbox ∧ db'.history = db.history

variable {op : ServerOperation} {now : Date} {db db' : ReaderDatabase} {entity : Entity}

omit [Foundation] in
theorem untold_upsert (ran : (db.upsert entity).toOption = some db') : Untold db db' := by
  unfold ReaderDatabase.upsert at ran
  cases saved : db.tables.save entity with
  | error fault => simp [saved,bind,Except.bind,Except.toOption] at ran
  | ok tables =>
    simp only [saved,bind,Except.bind,pure,Except.pure,Except.toOption,Option.some.injEq] at ran
    subst ran
    exact ⟨rfl,rfl⟩

omit [Foundation] in
theorem untold_decoded {decoded : Option α} {entity : α → Entity}
    (ran : (decoded.bind fun a => (db.upsert (entity a)).toOption) = some db') :
    Untold db db' := by
  obtain ⟨a,-,saved⟩ := Option.bind_eq_some_iff.mp ran
  exact untold_upsert saved

theorem told_of_applied (ran : applyServerOperation op now db = some db') :
    if Echoes op then ∃ entry, db'.outbox = db.outbox ++ [entry] else Untold db db' := by
  obtain ⟨type,id,operation,data⟩ := op
  cases type with
  | session => cases ran
  | source =>
    cases operation with
    | delete =>
      obtain rfl := Option.some.inj ran
      exact ⟨rfl,rfl⟩
    | _ => exact untold_decoded ran
  | highlight =>
    cases operation with
    | delete =>
      obtain rfl := Option.some.inj ran
      exact ⟨_,rfl⟩
    | _ => exact untold_decoded ran
  | note =>
    cases operation with
    | delete =>
      obtain rfl := Option.some.inj ran
      exact ⟨_,rfl⟩
    | _ => exact untold_decoded ran
  | readerItem =>
    cases operation with
    | delete =>
      obtain rfl := Option.some.inj ran
      exact ⟨_,rfl⟩
    | _ => exact untold_decoded ran

theorem applied_of_echoes (echoes : Echoes op) :
    (applyServerOperation op now db).isSome = true :=
  isSome_applyServerOperation.mpr ⟨echoes.2.2,fun other => absurd echoes.1 other⟩

theorem outbox_grows (operations : List ServerOperation) (db : ReaderDatabase) :
    db.outbox <+: (applyServerOperations now operations db).1.outbox := by
  induction operations generalizing db with
  | nil => exact List.prefix_refl _
  | cons op rest ih =>
    rw [applyServerOperations]
    split
    · rename_i db' ran
      refine List.IsPrefix.trans ?_ (ih db')
      have told := told_of_applied ran
      split at told
      · obtain ⟨entry,outbox⟩ := told
        exact outbox ▸ List.prefix_append _ _
      · exact told.1 ▸ List.prefix_refl _
    · exact List.prefix_refl _

theorem outbox_applied_iff (operations : List ServerOperation) (db : ReaderDatabase) :
    (applyServerOperations now operations db).1.outbox = db.outbox ↔
      Quiet now operations db := by
  induction operations generalizing db with
  | nil => exact ⟨fun _ => trivial,fun _ => rfl⟩
  | cons op rest ih =>
    rw [applyServerOperations,Quiet]
    cases ran : applyServerOperation op now db with
    | none =>
      have silent : ¬ Echoes op := by
        intro echoes
        have applied : (applyServerOperation op now db).isSome = true := applied_of_echoes echoes
        simp [ran] at applied
      exact ⟨fun _ => ⟨silent,fun _ impossible => by cases impossible⟩,fun _ => rfl⟩
    | some db' =>
      have told := told_of_applied ran
      by_cases echoes : Echoes op
      · rw [if_pos echoes] at told
        obtain ⟨entry,outbox⟩ := told
        refine iff_of_false (fun same => ?_) fun quiet => quiet.1 echoes
        have grows : db'.outbox <+: (applyServerOperations now rest db').1.outbox :=
          outbox_grows rest db'
        have longer := grows.length_le
        simp [outbox,show (applyServerOperations now rest db').1.outbox = db.outbox from same]
          at longer
      · rw [if_neg echoes] at told
        have step := ih db'
        rw [told.1] at step
        refine step.trans ⟨fun quiet => ⟨echoes,fun other same => ?_⟩,fun quiet => quiet.2 db' rfl⟩
        obtain rfl := Option.some.inj same
        exact quiet

/-- A page whose operations, if they can all be read, are quiet. -/
def QuietPage (page : Reader.Page) (now : Date) (client : Puller) : Prop :=
  ∀ operations, page.rows.mapM decodeOperation = some operations →
    Quiet now operations client.database

def Silent (page : Reader.Page) (now : Date) (client : Puller) : Prop :=
  (pullPage page now client).1.database.outbox = client.database.outbox

theorem pullPage_database (page : Reader.Page) (client : Puller) {operations}
    (decoded : page.rows.mapM decodeOperation = some operations) :
    (pullPage page now client).1.database =
      (applyServerOperations now operations client.database).1 := by
  rw [pullPage,decoded]
  dsimp only
  split <;> simp [*]

theorem pullPage_undecoded (page : Reader.Page) (client : Puller)
    (decoded : page.rows.mapM decodeOperation = none) :
    (pullPage page now client).1 = client := by
  rw [pullPage,decoded]

theorem silent_iff (page : Reader.Page) (client : Puller) :
    Silent page now client ↔ QuietPage page now client := by
  unfold Silent QuietPage
  cases decoded : page.rows.mapM decodeOperation with
  | none =>
    rw [pullPage_undecoded page client decoded]
    refine iff_of_true rfl fun operations impossible => ?_
    cases impossible
  | some operations =>
    rw [pullPage_database page client decoded,outbox_applied_iff]
    constructor
    · rintro quiet other same
      obtain rfl := Option.some.inj same
      exact quiet
    · intro quiet
      exact quiet operations rfl

end Applying

section Fleet

variable [Host] [Foundation] [JSONEncoder]

/-- An entry as it is sent. The payload of a deletion is empty. -/
def OutboxEntry.row (entry : OutboxEntry) : SyncOutbox where
  id := entry.id
  entityType := entry.key.type
  entityID := entry.key.id
  operation := entry.operation
  payload := (entry.payload.map operationData).getD []
  createdAt := entry.createdAt
  retryCount := entry.retryCount
  lastError := entry.lastError

def markItem (items : List SyncOutbox) (mark : Nat → ReaderDatabase → ReaderDatabase)
    (db : ReaderDatabase) (id : Text) : ReaderDatabase :=
  match firstItem items id with
  | some item => mark item.id db
  | none => db

/-- The three loops of `pushChanges`, on the database. -/
def handleResponse (items : List SyncOutbox) (response : Reader.PushSyncResponse)
    (db : ReaderDatabase) : ReaderDatabase :=
  let acknowledged := response.acceptedIds.foldl (markItem items ReaderDatabase.markSuccess) db
  let rejected := response.rejectedIds.foldl (fun db id =>
    markItem items (fun row => ReaderDatabase.markFailed row (reasonFor response.conflicts id))
      db id) acknowledged
  response.conflicts.foldl (fun db conflict =>
    markItem items (fun row => ReaderDatabase.markFailed row conflict.reason)
      db conflict.entityId) rejected

def pendingItems (db : ReaderDatabase) : List SyncOutbox :=
  getPendingSyncItems pushLimit (db.outbox.map OutboxEntry.row)

/-- `pushChanges` on the database, against the server. -/
def pushDatabase (device : Text) (clock : Nat → Reader.Clock) (db : ReaderDatabase)
    (server : Reader.Db) : ReaderDatabase × Reader.Db :=
  let items := pendingItems db
  if items.isEmpty then (db,server)
  else
    match Reader.pushSync device (items.map SyncOutbox.toOperation) clock server with
    | (.ok response,server') => (handleResponse items response db,server')
    | (.error _,server') => (db,server')

structure Fleet (δ : Type) where
  server : Reader.Db := {}
  clients : δ → Puller := fun _ => {}

/-- What happens on one device: a local edit, a push, or one page of a pull. -/
inductive Round (δ : Type) where
  | edit (device : δ) (mutation : Mutation) (now : Date)
  | push (device : δ) (clock : Nat → Reader.Clock)
  | pull (device : δ) (limit : Nat) (now : Date)

variable {δ : Type} [DecidableEq δ]

def Round.run (name : δ → Text) (fleet : Fleet δ) : Round δ → Fleet δ
  | .edit device mutation now =>
    let client := fleet.clients device
    {fleet with
      clients := Function.update fleet.clients device
        {client with database := commit client.database (mutation.run now client.database)}}
  | .push device clock =>
    let client := fleet.clients device
    let result := pushDatabase (name device) clock client.database fleet.server
    {server := result.2
     clients := Function.update fleet.clients device {client with database := result.1}}
  | .pull device limit now =>
    let client := fleet.clients device
    match Reader.pullSync (name device) client.cursor limit fleet.server with
    | .ok page =>
      {fleet with
        clients := Function.update fleet.clients device (pullPage page now client).1}
    | .error _ => fleet

def Round.isEdit : Round δ → Bool
  | .edit _ _ _ => true
  | _ => false

def runRounds (name : δ → Text) (rounds : List (Round δ)) (fleet : Fleet δ) : Fleet δ :=
  rounds.foldl (Round.run name) fleet

/-- A predicate holds of every page a device of the fleet is given, where it is given. -/
def EveryPage (name : δ → Text) (holds : Reader.Page → Date → Puller → Prop) :
    List (Round δ) → Fleet δ → Prop
  | [],_ => True
  | round :: rest,fleet =>
    (∀ device limit now page, round = .pull device limit now →
      Reader.pullSync (name device) (fleet.clients device).cursor limit fleet.server =
        .ok page → holds page now (fleet.clients device)) ∧
      EveryPage name holds rest (round.run name fleet)

def AcceptsAll (name : δ → Text) (device : δ) (clock : Nat → Reader.Clock)
    (fleet : Fleet δ) : Bool :=
  let items := pendingItems (fleet.clients device).database
  match Reader.pushSync (name device) (items.map SyncOutbox.toOperation) clock fleet.server with
  | (.ok response,_) =>
    items.all fun item => item.entityID.uuidString ∈ response.acceptedIds
  | (.error _,_) => false

def acceptedPushes (name : δ → Text) (device : δ) : List (Round δ) → Fleet δ → Nat
  | [],_ => 0
  | round :: rest,fleet =>
    (match round with
      | .push other clock =>
        if other = device && AcceptsAll name device clock fleet then 1 else 0
      | _ => 0) + acceptedPushes name device rest (round.run name fleet)

def OutboxEntry.told (entry : OutboxEntry) :
    Nat × Key × Reader.SyncOperation × Option Entity × Date :=
  (entry.id,entry.key,entry.operation,entry.payload,entry.createdAt)

section Shrinking

variable {db db' : ReaderDatabase} {items : List SyncOutbox} {name : δ → Text}

def Shrunk (db db' : ReaderDatabase) : Prop :=
  (db'.outbox.map OutboxEntry.told).Sublist (db.outbox.map OutboxEntry.told)

omit [Host] [Foundation] [JSONEncoder] in
theorem Shrunk.refl (db : ReaderDatabase) : Shrunk db db := List.Sublist.refl _

omit [Host] [Foundation] [JSONEncoder] in
theorem Shrunk.trans {db'' : ReaderDatabase} (first : Shrunk db db')
    (second : Shrunk db' db'') : Shrunk db db'' := List.Sublist.trans second first

omit [Host] [Foundation] [JSONEncoder] in
theorem Shrunk.length_le (shrunk : Shrunk db db') : db'.outbox.length ≤ db.outbox.length := by
  have lengths := List.Sublist.length_le shrunk
  rwa [List.length_map,List.length_map] at lengths

omit [Host] [Foundation] [JSONEncoder] in
theorem shrunk_markSuccess (id : Nat) : Shrunk db (db.markSuccess id) :=
  List.filter_sublist.map OutboxEntry.told

omit [Host] [Foundation] [JSONEncoder] in
theorem shrunk_markFailed (id : Nat) (error : String) : Shrunk db (db.markFailed id error) := by
  have same : (db.markFailed id error).outbox.map OutboxEntry.told =
      db.outbox.map OutboxEntry.told := by
    rw [ReaderDatabase.markFailed,List.map_map]
    refine List.map_congr_left fun entry _ => ?_
    simp only [Function.comp_apply,OutboxEntry.told]
    split <;> rfl
  rw [Shrunk,same]

omit [Foundation] [JSONEncoder] in
theorem shrunk_markItem {mark : Nat → ReaderDatabase → ReaderDatabase}
    (shrinks : ∀ id db, Shrunk db (mark id db)) (db : ReaderDatabase) (id : Text) :
    Shrunk db (markItem items mark db id) := by
  unfold markItem
  split
  · exact shrinks _ db
  · exact .refl db

omit [Host] [Foundation] [JSONEncoder] in
theorem shrunk_foldl {act : ReaderDatabase → α → ReaderDatabase}
    (shrinks : ∀ db a, Shrunk db (act db a)) (l : List α) (db : ReaderDatabase) :
    Shrunk db (l.foldl act db) := by
  induction l generalizing db with
  | nil => exact .refl db
  | cons a rest ih => exact (shrinks db a).trans (ih (act db a))

omit [Foundation] [JSONEncoder] in
theorem shrunk_acknowledged (ids : List Text) (db : ReaderDatabase) :
    Shrunk db (ids.foldl (markItem items ReaderDatabase.markSuccess) db) :=
  shrunk_foldl (shrunk_markItem fun id _ => shrunk_markSuccess id) ids db

omit [Foundation] [JSONEncoder] in
theorem shrunk_handleResponse (response : Reader.PushSyncResponse) :
    Shrunk (response.acceptedIds.foldl (markItem items ReaderDatabase.markSuccess) db)
      (handleResponse items response db) :=
  (shrunk_foldl (fun db _ => shrunk_markItem (fun id _ => shrunk_markFailed id _) db _) _ _).trans
    (shrunk_foldl (fun db _ => shrunk_markItem (fun id _ => shrunk_markFailed id _) db _) _ _)

theorem shrunk_pushDatabase (device : Text) (clock : Nat → Reader.Clock) (db : ReaderDatabase)
    (server : Reader.Db) : Shrunk db (pushDatabase device clock db server).1 := by
  unfold pushDatabase
  dsimp only
  split
  · exact .refl db
  · split
    · exact (shrunk_acknowledged _ db).trans (shrunk_handleResponse _)
    · exact .refl db

omit [Foundation] [JSONEncoder] in
theorem acknowledged_gone {ids : List Text} {id : Text} {item : SyncOutbox} (accepted : id ∈ ids)
    (first : firstItem items id = some item) :
    ∀ entry ∈ (ids.foldl (markItem items ReaderDatabase.markSuccess) db).outbox,
      entry.id ≠ item.id := by
  induction ids generalizing db with
  | nil => cases accepted
  | cons head rest ih =>
    rcases List.mem_cons.mp accepted with rfl | later
    · have gone : ∀ entry ∈ (markItem items ReaderDatabase.markSuccess db id).outbox,
          entry.id ≠ item.id := by
        intro entry listed
        rw [markItem,first] at listed
        simpa using (List.mem_filter.mp listed).2
      intro entry listed
      have shrunk : Shrunk (markItem items ReaderDatabase.markSuccess db id)
          (rest.foldl (markItem items ReaderDatabase.markSuccess)
            (markItem items ReaderDatabase.markSuccess db id)) := shrunk_acknowledged rest _
      have told := shrunk.subset (List.mem_map_of_mem listed)
      obtain ⟨old,kept,same⟩ := List.mem_map.mp told
      exact fun other => gone old kept ((congrArg Prod.fst same).trans other)
    · exact ih later

omit [DecidableEq δ] in
theorem pushDatabase_lt {device : δ} {clock : Nat → Reader.Clock} {fleet : Fleet δ}
    (accepts : AcceptsAll name device clock fleet = true)
    (long : (fleet.clients device).database.outbox ≠ []) :
    (pushDatabase (name device) clock (fleet.clients device).database fleet.server).1.outbox.length
      < (fleet.clients device).database.outbox.length := by
  set db := (fleet.clients device).database
  obtain ⟨item,listed⟩ : ∃ item, item ∈ pendingItems db := by
    refine List.exists_mem_of_ne_nil _ fun none_ => long ?_
    rw [pendingItems,getPendingSyncItems,List.take_eq_nil_iff] at none_
    have sorted := none_.resolve_left (by decide)
    have rows := List.perm_insertionSort SyncOutbox.precedes (db.outbox.map OutboxEntry.row)
    rw [sorted] at rows
    simpa using rows.nil_eq
  unfold AcceptsAll at accepts
  unfold pushDatabase
  dsimp only at accepts ⊢
  rw [if_neg (by simpa using List.ne_nil_of_mem listed)]
  split at accepts
  · rename_i response server' pushed
    rw [pushed]
    obtain ⟨first,found⟩ : ∃ first, firstItem (pendingItems db) item.entityID.uuidString =
        some first := by
      refine Option.isSome_iff_exists.mp (List.find?_isSome.mpr ⟨item,listed,?_⟩)
      simp [sameId]
    have named : item.entityID.uuidString ∈ response.acceptedIds := by
      simpa using List.all_eq_true.mp accepts item listed
    have member := (List.perm_insertionSort _ _).mem_iff.mp
      (List.mem_of_mem_take (List.mem_of_find?_eq_some found))
    obtain ⟨entry,kept,same⟩ := List.mem_map.mp member
    have shrunk : Shrunk db (handleResponse (pendingItems db) response db) :=
      (shrunk_acknowledged response.acceptedIds db).trans (shrunk_handleResponse response)
    refine lt_of_le_of_ne shrunk.length_le fun even => ?_
    have equal := shrunk.eq_of_length (by rw [List.length_map,List.length_map,even])
    have still := List.mem_map_of_mem kept (f := OutboxEntry.told)
    rw [← equal] at still
    have back := (shrunk_handleResponse response).subset still
    obtain ⟨other,left,told⟩ := List.mem_map.mp back
    exact acknowledged_gone named found other left
      ((congrArg Prod.fst told).trans (congrArg SyncOutbox.id same))
  · cases accepts

theorem round_shrinks {round : Round δ} {fleet : Fleet δ} (device : δ)
    (remote : round.isEdit = false)
    (quiet : ∀ device limit now page, round = .pull device limit now →
      Reader.pullSync (name device) (fleet.clients device).cursor limit fleet.server =
        .ok page → QuietPage page now (fleet.clients device)) :
    Shrunk (fleet.clients device).database ((round.run name fleet).clients device).database ∧
      ((round.run name fleet).clients device).database.outbox.length ≤
        (fleet.clients device).database.outbox.length -
          acceptedPushes name device [round] fleet := by
  cases round with
  | edit _ _ _ => cases remote
  | push other clock =>
    by_cases own : device = other
    · subst own
      have shrunk := shrunk_pushDatabase (name device) clock (fleet.clients device).database
        fleet.server
      simp only [Round.run,Function.update_self,acceptedPushes]
      refine ⟨shrunk,?_⟩
      by_cases long : (fleet.clients device).database.outbox = []
      · have shorter := shrunk.length_le
        rw [long] at shorter ⊢
        exact shorter.trans (Nat.zero_le _)
      · by_cases accepts : AcceptsAll name device clock fleet = true
        · have lt := pushDatabase_lt accepts long
          simp only [decide_true,Bool.true_and,accepts,if_true]
          omega
        · simpa [accepts] using shrunk.length_le
    · simp only [Round.run,Function.update_of_ne own,acceptedPushes]
      exact ⟨.refl _,by simp [Ne.symm own]⟩
  | pull other limit now =>
    simp only [Round.run,acceptedPushes,Nat.add_zero,Nat.sub_zero]
    split
    · rename_i page pulled
      by_cases own : device = other
      · subst own
        have same : (pullPage page now (fleet.clients device)).1.database.outbox =
            (fleet.clients device).database.outbox :=
          (silent_iff page _).mpr (quiet device limit now page rfl pulled)
        simp only [Function.update_self]
        exact ⟨by rw [Shrunk,same],same ▸ le_rfl⟩
      · simp only [Function.update_of_ne own]
        exact ⟨.refl _,le_rfl⟩
    · exact ⟨.refl _,le_rfl⟩

theorem run_shrinks (rounds : List (Round δ)) (fleet : Fleet δ) (device : δ)
    (remote : ∀ round ∈ rounds, round.isEdit = false)
    (quiet : EveryPage name QuietPage rounds fleet) :
    Shrunk (fleet.clients device).database
        ((runRounds name rounds fleet).clients device).database ∧
      ((runRounds name rounds fleet).clients device).database.outbox.length ≤
        (fleet.clients device).database.outbox.length -
          acceptedPushes name device rounds fleet := by
  induction rounds generalizing fleet with
  | nil => exact ⟨.refl _,le_rfl⟩
  | cons round rest ih =>
    obtain ⟨here,later⟩ := List.forall_mem_cons.mp remote
    have first := round_shrinks device here quiet.1
    have others := ih (round.run name fleet) later quiet.2
    refine ⟨first.1.trans others.1,?_⟩
    have split : acceptedPushes name device (round :: rest) fleet =
        acceptedPushes name device [round] fleet +
          acceptedPushes name device rest (round.run name fleet) := rfl
    have total := others.2
    rw [runRounds,List.foldl_cons,← runRounds,split]
    omega

end Shrinking

omit [Host] [JSONEncoder] in
theorem everyPage_congr {name : δ → Text} {holds holds' : Reader.Page → Date → Puller → Prop}
    (same : ∀ page now client, holds page now client ↔ holds' page now client)
    (rounds : List (Round δ)) (fleet : Fleet δ) [Host] [JSONEncoder] :
    EveryPage name holds rounds fleet ↔ EveryPage name holds' rounds fleet := by
  induction rounds generalizing fleet with
  | nil => exact Iff.rfl
  | cons round rest ih => simp only [EveryPage,same,ih]

/-- Nothing that is pulled is enqueued, in any order of edits, pushes and pulls of any number
of devices. Once no edit is made every outbox only loses entries, until it is empty. -/
structure Unechoed (name : δ → Text) (rounds : List (Round δ)) (fleet : Fleet δ) : Prop where
  silent : EveryPage name Silent rounds fleet
  drained : ∀ past rest, rounds = past ++ rest → (∀ round ∈ rest, round.isEdit = false) →
    ∀ device,
      let before := ((runRounds name past fleet).clients device).database
      let after := ((runRounds name rounds fleet).clients device).database
      Shrunk before after ∧
        (before.outbox.length ≤ acceptedPushes name device rest (runRounds name past fleet) →
          after.outbox = [])

theorem everyPage_append {name : δ → Text} {holds : Reader.Page → Date → Puller → Prop}
    (past rest : List (Round δ)) (fleet : Fleet δ)
    (every : EveryPage name holds (past ++ rest) fleet) :
    EveryPage name holds rest (runRounds name past fleet) := by
  induction past generalizing fleet with
  | nil => exact every
  | cons round past ih => exact ih _ every.2

/-- A page is applied without a word to the server, and a run without an echo, exactly when no
deletion of a highlight, a note or an item is reached. -/
theorem unechoed_iff (name : δ → Text) :
    (∀ now operations db, (applyServerOperations now operations db).1.outbox = db.outbox ↔
        Quiet now operations db) ∧
      ∀ rounds fleet, Unechoed name rounds fleet ↔ EveryPage name QuietPage rounds fleet := by
  refine ⟨fun _ => outbox_applied_iff,fun rounds fleet => ⟨fun unechoed => ?_,fun quiet => ?_⟩⟩
  · exact (everyPage_congr (fun page _ client => silent_iff page client) rounds fleet).mp
      unechoed.silent
  · refine ⟨(everyPage_congr (fun page _ client => silent_iff page client) rounds fleet).mpr quiet,
      fun past rest split remote device => ?_⟩
    subst split
    have shrinks := run_shrinks rest (runRounds name past fleet) device remote
      (everyPage_append past rest fleet quiet)
    have joined : runRounds name (past ++ rest) fleet =
        runRounds name rest (runRounds name past fleet) := List.foldl_append
    dsimp only
    rw [joined]
    refine ⟨shrinks.1,fun enough => List.eq_nil_of_length_eq_zero ?_⟩
    omega

end Fleet

section Circulation

open scoped AsciiHost PlainCodec

def twoNames : Bool → Text := fun first => if first then "macbook".toList else "iphone".toList

def goneNote : UUID := nilUUID

def noteDeleted : List (Round Bool) :=
  [.edit true (.deleteNote goneNote) 0,.push true fun _ _ => 0,.pull false 100 0]

def noteReturned : List (Round Bool) := [.push false fun _ _ => 0,.pull true 100 0]

def paired : Fleet Bool := {server := Reader.twoDevices}

/-- The device that is told of a deletion tells the server of it, and is the next to be told
when the first device does the same. -/
theorem deletion_circulates :
    ((runRounds twoNames (noteDeleted ++ noteReturned) paired).clients true).database.outbox.map
        OutboxEntry.key = [.note goneNote] ∧
      ¬ Unechoed twoNames noteDeleted paired := by
  refine ⟨by decide +kernel,fun unechoed => ?_⟩
  have shrunk := (unechoed.drained (noteDeleted.take 2) (noteDeleted.drop 2) rfl
    (by decide) false).1.length_le
  exact absurd shrunk (by decide +kernel)

end Circulation

end LocalBook.ReadFlow
