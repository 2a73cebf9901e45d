import LocalBook.ReadFlow.Acknowledging
import LocalBook.ReadFlow.Encoding

/-! Which operations of the outbox ever reach the server when sync rounds are repeated: a
round sends the oldest hundred rows or nothing, and the rows that are not accepted stay at
the head. -/
namespace LocalBook.ReadFlow

open Reader (Json)

section Window

variable {α κ : Type}

theorem mem_take_of_sublist {l l' : List α} {a : α} (fewer : l'.Sublist l) (distinct : l.Nodup)
    (n : Nat) (early : a ∈ l.take n) (still : a ∈ l') : a ∈ l'.take n := by
  induction fewer generalizing n with
  | slnil => cases still
  | @cons l' l b fewer ih =>
    obtain ⟨fresh,rest⟩ := List.nodup_cons.mp distinct
    cases n with
    | zero => simp at early
    | succ n =>
      rcases List.mem_cons.mp early with rfl | later
      · exact absurd (fewer.subset still) fresh
      · exact (List.take_subset_take_left l' (Nat.le_succ n)) (ih rest n later still)
  | @cons_cons l' l b fewer ih =>
    obtain ⟨fresh,rest⟩ := List.nodup_cons.mp distinct
    cases n with
    | zero => simp at early
    | succ n =>
      rcases List.mem_cons.mp early with rfl | later
      · exact List.mem_cons_self
      · have member := List.mem_of_mem_take later
        rcases List.mem_cons.mp still with rfl | still
        · exact absurd member fresh
        · exact List.mem_cons_of_mem _ (ih rest n later still)

end Window

inductive Payload where
  | empty
  | json (value : Json)
  | malformed

section Rounds

variable [Host] [Foundation]

/-- The data a payload is sent as. Anything but an object or an array makes the push throw. -/
def Payload.data : Payload → Option Json
  | .empty => some (.obj [])
  | .json (.obj fields) => some (snakeCaseJSON (.obj fields))
  | .json (.arr items) => some (snakeCaseJSON (.arr items))
  | .json _ => none
  | .malformed => none

structure SentOperation where
  entityType : Reader.SyncEntityType
  entityID : Text
  operation : Reader.SyncOperation
  data : Json
  clientTimestamp : Int

/-- The rows of `sync_outbox`, and the bytes of their payloads. -/
structure Queue where
  rows : List SyncOutbox
  distinct : (ids rows).Nodup
  payload : Nat → Payload

variable (payload : Nat → Payload)

def sentOperation (row : SyncOutbox) : Option SentOperation :=
  (payload row.id).data.map fun data =>
    {entityType := row.entityType
     entityID := row.entityID.uuidString
     operation := row.operation
     data
     clientTimestamp := row.createdAt}

/-- The request of a round: all operations of the window, unless one of them cannot be sent. -/
def request (rows : List SyncOutbox) : Option (List SentOperation) :=
  (getPendingSyncItems pushLimit rows).mapM (sentOperation payload)

def SyncOutbox.face (row : SyncOutbox) : SyncOutbox := {row with retryCount := 0,lastError := none}

/-- What the server makes of a request. A request that it refuses whole has no answer. -/
abbrev Answer := List SentOperation → Option Reader.PushSyncResponse

/-- `pushChanges` with a server that is reached. -/
def pushRound (answer : Answer) (rows : List SyncOutbox) : List SyncOutbox :=
  let items := getPendingSyncItems pushLimit rows
  if items.isEmpty then rows
  else
    match (request payload rows).bind answer with
    | some response => processResponse items response rows
    | none => rows

def afterRounds (answers : Nat → Answer) (rows : List SyncOutbox) : Nat → List SyncOutbox
  | 0 => rows
  | round + 1 => pushRound payload (answers round) (afterRounds answers rows round)

def sentIds (rows : List SyncOutbox) : List Nat :=
  if (request payload rows).isSome then ids (getPendingSyncItems pushLimit rows) else []

/-- The server accepts an operation of the request. -/
def Accepts (answer : Answer) (rows : List SyncOutbox) : Prop :=
  ∃ response, (request payload rows).bind answer = some response ∧
    ∃ id ∈ response.acceptedIds,
      (firstItem (getPendingSyncItems pushLimit rows) id).isSome = true

/-- Every row is part of a request within as many rounds as there are rows. -/
def Unstarved (answers : Nat → Answer) (queue : Queue) : Prop :=
  ∀ row ∈ queue.rows, ∃ round < queue.rows.length,
    row.id ∈ sentIds queue.payload (afterRounds queue.payload answers queue.rows round)

/-- Every payload can be sent, and while there are more rows than a request takes the server
accepts an operation of each. -/
structure Flowing (answers : Nat → Answer) (queue : Queue) : Prop where
  sendable : ∀ row ∈ queue.rows, (queue.payload row.id).data.isSome = true
  accepts : ∀ round,
    pushLimit < (afterRounds queue.payload answers queue.rows round).length →
      Accepts queue.payload (answers round)
        (afterRounds queue.payload answers queue.rows round)

section Progress

variable {payload} {answer : Answer} {rows : List SyncOutbox} {items : List SyncOutbox}

omit [Host] [Foundation] in
theorem ids_face (rows : List SyncOutbox) : ids (rows.map SyncOutbox.face) = ids rows := by
  rw [ids,List.map_map]
  rfl

omit [Host] [Foundation] in
theorem face_markSyncItemFailed (id : Nat) (error : String) (rows : List SyncOutbox) :
    (markSyncItemFailed id error rows).map SyncOutbox.face = rows.map SyncOutbox.face := by
  rw [markSyncItemFailed,List.map_map]
  refine List.map_congr_left fun row _ => ?_
  simp only [Function.comp_apply,SyncOutbox.face]
  split <;> rfl

omit [Foundation] in
theorem face_failWith (reason : String) (rows : List SyncOutbox) (id : Text) :
    (failWith items reason rows id).map SyncOutbox.face = rows.map SyncOutbox.face := by
  unfold failWith
  split
  · exact face_markSyncItemFailed _ _ _
  · rfl

omit [Host] [Foundation] in
theorem face_foldl {act : List SyncOutbox → β → List SyncOutbox} {l : List β}
    (keeps : ∀ rows b, (act rows b).map SyncOutbox.face = rows.map SyncOutbox.face)
    (rows : List SyncOutbox) : (l.foldl act rows).map SyncOutbox.face =
      rows.map SyncOutbox.face := by
  induction l generalizing rows with
  | nil => rfl
  | cons b rest ih => exact (ih (act rows b)).trans (keeps rows b)

omit [Foundation] in
theorem face_processResponse (response : Reader.PushSyncResponse) (rows : List SyncOutbox) :
    (processResponse items response rows).map SyncOutbox.face =
      (response.acceptedIds.foldl (acknowledge items) rows).map SyncOutbox.face := by
  rw [processResponse,face_foldl fun _ _ => face_failWith _ _ _,
    face_foldl fun _ _ => face_failWith _ _ _]

omit [Foundation] in
theorem acknowledged_sublist (accepted : List Text) (rows : List SyncOutbox) :
    (accepted.foldl (acknowledge items) rows).Sublist rows := by
  induction accepted generalizing rows with
  | nil => exact .refl _
  | cons id rest ih =>
    refine (ih _).trans ?_
    unfold acknowledge
    split
    · exact List.filter_sublist
    · exact .refl _

theorem face_pushRound_sublist (answer : Answer) (rows : List SyncOutbox) :
    ((pushRound payload answer rows).map SyncOutbox.face).Sublist
      (rows.map SyncOutbox.face) := by
  unfold pushRound
  dsimp only
  split
  · exact .refl _
  · split
    · rw [face_processResponse]
      exact (acknowledged_sublist _ rows).map _
    · exact .refl _

theorem ids_pushRound_sublist (answer : Answer) (rows : List SyncOutbox) :
    (ids (pushRound payload answer rows)).Sublist (ids rows) := by
  rw [← ids_face,← ids_face rows]
  exact (face_pushRound_sublist answer rows).map _

theorem face_later_sublist (answers : Nat → Answer) {round later : Nat} (order : round ≤ later) :
    ((afterRounds payload answers rows later).map SyncOutbox.face).Sublist
      ((afterRounds payload answers rows round).map SyncOutbox.face) := by
  induction order with
  | refl => exact .refl _
  | step _ ih => exact (face_pushRound_sublist _ _).trans ih

theorem ids_afterRounds_sublist (answers : Nat → Answer) (round : Nat) :
    (ids (afterRounds payload answers rows round)).Sublist (ids rows) := by
  induction round with
  | zero => exact .refl _
  | succ round ih => exact (ids_pushRound_sublist _ _).trans ih

omit [Host] [Foundation] in
theorem mem_ids_pending {n : Nat} (found : n ∈ ids (getPendingSyncItems pushLimit rows)) :
    n ∈ ids rows := by
  obtain ⟨row,listed,same⟩ := List.mem_map.mp found
  exact List.mem_map.mpr
    ⟨row,(List.perm_insertionSort _ _).mem_iff.mp (List.mem_of_mem_take listed),same⟩

omit [Host] [Foundation] in
theorem pending_all (short : rows.length ≤ pushLimit) :
    (getPendingSyncItems pushLimit rows).Perm rows := by
  rw [getPendingSyncItems,List.take_of_length_le]
  · exact List.perm_insertionSort _ _
  · rwa [List.length_insertionSort]

theorem length_pushRound_le (answer : Answer) (rows : List SyncOutbox) :
    (pushRound payload answer rows).length ≤ rows.length := by
  have sublist : (ids (pushRound payload answer rows)).Sublist (ids rows) :=
    ids_pushRound_sublist answer rows
  have fewer := sublist.length_le
  rwa [ids,ids,List.length_map,List.length_map] at fewer

theorem sent_of_gone {n : Nat} (listed : n ∈ ids rows)
    (gone : n ∉ ids (pushRound payload answer rows)) : n ∈ sentIds payload rows := by
  unfold pushRound at gone
  dsimp only at gone
  split at gone
  · exact absurd listed gone
  · split at gone
    · rename_i response answered
      rw [mem_ids_processResponse] at gone
      obtain ⟨ops,asked,-⟩ := Option.bind_eq_some_iff.mp answered
      rw [sentIds,if_pos (by rw [asked]; rfl)]
      by_contra unsent
      refine gone ⟨listed,fun id _ item first same => unsent ?_⟩
      exact same ▸ List.mem_map_of_mem (List.mem_of_find?_eq_some first)
    · exact absurd listed gone

theorem length_pushRound_lt (accepts : Accepts payload answer rows) :
    (pushRound payload answer rows).length < rows.length := by
  obtain ⟨response,answered,id,accepted,named⟩ := accepts
  obtain ⟨item,first⟩ := Option.isSome_iff_exists.mp named
  have listed := List.mem_of_find?_eq_some first
  have member : item.id ∈ ids rows := mem_ids_pending (List.mem_map_of_mem listed)
  have gone : item.id ∉ ids (pushRound payload answer rows) := by
    rw [pushRound,if_neg (by simpa using List.ne_nil_of_mem listed),answered,
      mem_ids_processResponse]
    exact fun kept => kept.2 id accepted item first rfl
  refine lt_of_le_of_ne (length_pushRound_le answer rows) fun even => gone ?_
  have sublist : (ids (pushRound payload answer rows)).Sublist (ids rows) :=
    ids_pushRound_sublist answer rows
  have equal := sublist.eq_of_length (by rw [ids,ids,List.length_map,List.length_map,even])
  rwa [equal]

omit [Host] in
theorem isSome_request (sendable : ∀ n ∈ ids rows, (payload n).data.isSome = true) :
    (request payload rows).isSome = true := by
  have each : ∀ row ∈ getPendingSyncItems pushLimit rows,
      (sentOperation payload row).isSome = true := by
    intro row listed
    rw [sentOperation,Option.isSome_map]
    exact sendable row.id (mem_ids_pending (List.mem_map_of_mem listed))
  have all : ∀ items : List SyncOutbox, (∀ row ∈ items, (sentOperation payload row).isSome) →
      (items.mapM (sentOperation payload)).isSome = true := by
    intro items
    induction items with
    | nil => exact fun _ => rfl
    | cons row rest ih =>
      intro fine
      obtain ⟨here,later⟩ := List.forall_mem_cons.mp fine
      obtain ⟨op,asked⟩ := Option.isSome_iff_exists.mp here
      obtain ⟨ops,others⟩ := Option.isSome_iff_exists.mp (ih later)
      exact Option.isSome_iff_exists.mpr ⟨_,mapM_cons_eq_some.mpr ⟨op,ops,asked,others,rfl⟩⟩
  exact all _ each

/-- While the queue flows, a row has been sent or is still there in a queue that gets shorter
with every round. -/
theorem sent_or_shorter {answers : Nat → Answer} {queue : Queue}
    (flowing : Flowing answers queue) {row : SyncOutbox} (listed : row ∈ queue.rows)
    (round : Nat) :
    (∃ before < round, row.id ∈ sentIds queue.payload
      (afterRounds queue.payload answers queue.rows before)) ∨
      row.id ∈ ids (afterRounds queue.payload answers queue.rows round) ∧
        (afterRounds queue.payload answers queue.rows round).length + round ≤
          queue.rows.length := by
  induction round with
  | zero => exact .inr ⟨List.mem_map_of_mem listed,le_rfl⟩
  | succ round ih =>
    rcases ih with ⟨before,early,sent⟩ | ⟨here,short⟩
    · exact .inl ⟨before,by omega,sent⟩
    · by_cases sent : row.id ∈ sentIds queue.payload
          (afterRounds queue.payload answers queue.rows round)
      · exact .inl ⟨round,by omega,sent⟩
      · right
        constructor
        · by_contra gone
          exact sent (sent_of_gone here gone)
        · have long : pushLimit < (afterRounds queue.payload answers queue.rows round).length := by
            by_contra fits
            refine sent ?_
            rw [sentIds,if_pos]
            · exact ((pending_all (by omega)).map SyncOutbox.id).mem_iff.mpr here
            · refine isSome_request fun n found => ?_
              obtain ⟨old,kept,rfl⟩ := List.mem_map.mp
                ((ids_afterRounds_sublist answers round).subset found)
              exact flowing.sendable old kept
          have shorter := length_pushRound_lt (flowing.accepts round long)
          rw [afterRounds]
          omega

theorem unstarved_of_flowing {answers : Nat → Answer} {queue : Queue}
    (flowing : Flowing answers queue) : Unstarved answers queue := by
  intro row listed
  rcases sent_or_shorter flowing listed queue.rows.length with ⟨round,early,sent⟩ | ⟨here,short⟩
  · exact ⟨round,early,sent⟩
  · have some_ := List.length_pos_of_mem here
    rw [ids,List.length_map] at some_
    omega

end Progress

section Standstill

variable {payload} {answer : Answer} {rows : List SyncOutbox}

omit [Host] [Foundation] in
theorem pending_face (limit : Nat) (rows : List SyncOutbox) :
    getPendingSyncItems limit (rows.map SyncOutbox.face) =
      (getPendingSyncItems limit rows).map SyncOutbox.face := by
  rw [getPendingSyncItems,getPendingSyncItems,List.map_take,
    List.map_insertionSort SyncOutbox.precedes SyncOutbox.precedes]
  exact fun a _ b _ => Iff.rfl

omit [Host] in
theorem request_face (rows : List SyncOutbox) :
    request payload (rows.map SyncOutbox.face) = request payload rows := by
  rw [request,request,pending_face]
  induction getPendingSyncItems pushLimit rows with
  | nil => rfl
  | cons row rest ih =>
    rw [List.map_cons,List.mapM_cons,List.mapM_cons,ih]
    rfl

omit [Foundation] in
theorem firstItem_face (items : List SyncOutbox) (id : Text) :
    (firstItem (items.map SyncOutbox.face) id).isSome = (firstItem items id).isSome := by
  rw [firstItem,List.find?_map,Option.isSome_map]
  rfl

theorem accepts_face : Accepts payload answer (rows.map SyncOutbox.face) ↔
    Accepts payload answer rows := by
  simp only [Accepts,request_face,pending_face,firstItem_face]

omit [Host] in
theorem sentIds_face (rows : List SyncOutbox) :
    sentIds payload (rows.map SyncOutbox.face) = sentIds payload rows := by
  rw [sentIds,sentIds,request_face,pending_face,ids_face]

theorem face_pushRound (stuck : ¬ Accepts payload answer rows) :
    (pushRound payload answer rows).map SyncOutbox.face = rows.map SyncOutbox.face := by
  unfold pushRound
  dsimp only
  split
  · rfl
  · split
    · rename_i response answered
      have none_ : ∀ id ∈ response.acceptedIds,
          firstItem (getPendingSyncItems pushLimit rows) id = none := by
        intro id accepted
        by_contra named
        exact stuck ⟨response,answered,id,accepted,Option.isSome_iff_ne_none.mpr named⟩
      rw [face_processResponse]
      congr 1
      generalize response.acceptedIds = accepted at none_
      induction accepted with
      | nil => rfl
      | cons id rest ih =>
        obtain ⟨here,later⟩ := List.forall_mem_cons.mp none_
        rw [List.foldl_cons,acknowledge,here]
        exact ih later
    · rfl

/-- A server that answers the same request in the same way leaves the queue where it stands. -/
theorem face_stuck {round : Nat}
    (stuck : ¬ Accepts payload answer (afterRounds payload (fun _ => answer) rows round))
    {later : Nat} (order : round ≤ later) :
    (afterRounds payload (fun _ => answer) rows later).map SyncOutbox.face =
      (afterRounds payload (fun _ => answer) rows round).map SyncOutbox.face := by
  induction order with
  | refl => rfl
  | step _ ih =>
    rw [afterRounds,face_pushRound,ih]
    rwa [← accepts_face,ih,accepts_face]

def place (row : SyncOutbox) : Int ×ₗ Nat := toLex (row.createdAt,row.id)

def orderedIds (rows : List SyncOutbox) : List Nat :=
  ((rows.map place).insertionSort (· ≤ ·)).map fun key => (ofLex key).2

omit [Host] [Foundation] in
theorem ids_eq_places (rows : List SyncOutbox) :
    ids rows = (rows.map place).map fun key => (ofLex key).2 := by
  rw [ids,List.map_map]
  rfl

omit [Host] [Foundation] in
theorem ids_pending (rows : List SyncOutbox) :
    ids (getPendingSyncItems pushLimit rows) = (orderedIds rows).take pushLimit := by
  rw [ids_eq_places,getPendingSyncItems,List.map_take,List.map_take,orderedIds,
    List.map_insertionSort SyncOutbox.precedes (· ≤ ·)]
  intro a _ b _
  rw [place,place,Prod.Lex.toLex_le_toLex]
  exact Iff.rfl

omit [Host] [Foundation] in
theorem orderedIds_perm (rows : List SyncOutbox) : (orderedIds rows).Perm (ids rows) := by
  rw [ids_eq_places]
  exact (List.perm_insertionSort _ _).map _

theorem orderedIds_sublist (answers : Nat → Answer) {round later : Nat} (order : round ≤ later) :
    (orderedIds (afterRounds payload answers rows later)).Sublist
      (orderedIds (afterRounds payload answers rows round)) := by
  have places : ((afterRounds payload answers rows later).map place).Sublist
      ((afterRounds payload answers rows round).map place) := by
    have faces : ((afterRounds payload answers rows later).map SyncOutbox.face).Sublist
        ((afterRounds payload answers rows round).map SyncOutbox.face) :=
      face_later_sublist answers order
    have places := faces.map place
    rwa [List.map_map,List.map_map] at places
  have sorted := List.sublist_insertionSort' (List.pairwise_insertionSort (· ≤ ·) _)
    ((List.perm_insertionSort (· ≤ ·) _).subperm.trans places.subperm)
  exact sorted.map _

theorem pending_still {answers : Nat → Answer} {round later n : Nat} (order : round ≤ later)
    (distinct : (ids rows).Nodup)
    (early : n ∈ ids (getPendingSyncItems pushLimit (afterRounds payload answers rows round)))
    (still : n ∈ ids (afterRounds payload answers rows later)) :
    n ∈ ids (getPendingSyncItems pushLimit (afterRounds payload answers rows later)) := by
  rw [ids_pending] at early ⊢
  have nodup : (ids (afterRounds payload answers rows round)).Nodup :=
    distinct.sublist (ids_afterRounds_sublist answers round)
  exact mem_take_of_sublist (orderedIds_sublist answers order)
    ((orderedIds_perm _).nodup_iff.mpr nodup) pushLimit early
    ((orderedIds_perm _).mem_iff.mpr still)

omit [Host] [Foundation] in
theorem exists_outside (distinct : (ids rows).Nodup) (long : pushLimit < rows.length) :
    ∃ n ∈ ids rows, n ∉ ids (getPendingSyncItems pushLimit rows) := by
  have nodup := (orderedIds_perm rows).nodup_iff.mpr distinct
  have size : (orderedIds rows).length = rows.length := by
    rw [(orderedIds_perm rows).length_eq,ids,List.length_map]
  have bound : pushLimit < (orderedIds rows).length := by omega
  refine ⟨(orderedIds rows)[pushLimit],(orderedIds_perm rows).mem_iff.mp (List.getElem_mem _),
    fun inside => ?_⟩
  rw [ids_pending] at inside
  have both : (orderedIds rows)[pushLimit] ∈ (orderedIds rows).drop pushLimit :=
    List.mem_drop_iff_getElem.mpr ⟨0,by omega,by simp⟩
  exact List.disjoint_take_drop nodup le_rfl inside both

omit [Host] in
theorem mem_pending_of_sent {n : Nat} (sent : n ∈ sentIds payload rows) :
    n ∈ ids (getPendingSyncItems pushLimit rows) := by
  unfold sentIds at sent
  split at sent
  · exact sent
  · cases sent

omit [Host] in
theorem sendable_of_sent {n : Nat} (sent : n ∈ sentIds payload rows) :
    (payload n).data.isSome = true := by
  unfold sentIds request at sent
  split at sent
  · rename_i asked
    obtain ⟨ops,asked⟩ := Option.isSome_iff_exists.mp asked
    obtain ⟨row,listed,rfl⟩ := List.mem_map.mp sent
    generalize getPendingSyncItems pushLimit rows = items at asked listed
    induction items generalizing ops with
    | nil => cases listed
    | cons head rest ih =>
      obtain ⟨op,more,here,later,-⟩ := mapM_cons_eq_some.mp asked
      rcases List.mem_cons.mp listed with rfl | tail
      · have asked := congrArg Option.isSome here
        rwa [sentOperation,Option.isSome_map,Option.isSome_some] at asked
      · exact ih more later tail
  · cases sent

/-- When nothing starves before a server that answers the same request in the same way, the
queue flows. -/
theorem flowing_of_unstarved {queue : Queue}
    (unstarved : Unstarved (fun _ => answer) queue) : Flowing (fun _ => answer) queue := by
  refine ⟨fun row listed => ?_,fun round long => ?_⟩
  · obtain ⟨round,-,sent⟩ := unstarved row listed
    exact sendable_of_sent sent
  · by_contra stuck
    have nodup : (ids (afterRounds queue.payload (fun _ => answer) queue.rows round)).Nodup :=
      queue.distinct.sublist (ids_afterRounds_sublist _ round)
    obtain ⟨n,here,outside⟩ := exists_outside nodup long
    obtain ⟨row,listed,rfl⟩ := List.mem_map.mp ((ids_afterRounds_sublist _ round).subset here)
    obtain ⟨moment,-,sent⟩ := unstarved row listed
    rcases le_total moment round with before | after
    · exact outside (pending_still before queue.distinct (mem_pending_of_sent sent) here)
    · have same := face_stuck stuck after
      rw [← sentIds_face,same,sentIds_face] at sent
      exact outside (mem_pending_of_sent sent)

/-- Whatever the server answers, nothing starves in a queue that flows; before a server that
answers the same request in the same way, nothing starves in no other. -/
theorem unstarved_iff_flowing (queue : Queue) :
    (∀ answers, Flowing answers queue → Unstarved answers queue) ∧
      ∀ answer : Answer, Unstarved (fun _ => answer) queue ↔ Flowing (fun _ => answer) queue :=
  ⟨fun _ flowing => unstarved_of_flowing flowing,
    fun _ => ⟨flowing_of_unstarved,unstarved_of_flowing⟩⟩

end Standstill

end Rounds

section Blocked

open scoped AsciiHost PlainCodec

def note (digit : Fin 16) : UUID := ⟨List.replicate 32 digit,List.length_replicate⟩

def draftNote : UUID := note (Fin.last 15)

def goneDraft : UUID := note (Fin.last 15).rev

def blockedQueue : Queue where
  rows :=
    [{id := 1,entityType := .note,entityID := draftNote,operation := .update,createdAt := 0},
      {id := 2,entityType := .note,entityID := goneDraft,operation := .delete,createdAt := 1}]
  distinct := by decide
  payload row := if row = 1 then .json (.str "draft".toList) else .empty

def welcoming : Answer := fun operations =>
  some {accepted := operations.length
        rejected := 0
        acceptedIds := operations.map SentOperation.entityID
        rejectedIds := []
        conflicts := []}

/-- The deletion is never sent. -/
theorem blockedQueue_starves : ¬ Unstarved (fun _ => welcoming) blockedQueue := by
  intro unstarved
  obtain ⟨round,early,sent⟩ := unstarved _ (List.mem_cons_of_mem _ List.mem_cons_self)
  have silent : ∀ round < 2, sentIds blockedQueue.payload
      (afterRounds blockedQueue.payload (fun _ => welcoming) blockedQueue.rows round) = [] := by
    decide +kernel
  rw [silent round early] at sent
  cases sent

end Blocked

end LocalBook.ReadFlow
