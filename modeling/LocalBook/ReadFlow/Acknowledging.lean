import LocalBook.ReadFlow.Outbox

/-! Which rows of the outbox the answer to a push removes: of every entity that has an
accepted operation, the first row of the batch. -/
namespace LocalBook.ReadFlow

open Reader

section First

variable {α κ : Type} [DecidableEq κ]

/-- In a list without repetition, each good element is the first of its key exactly when no
good element comes after another of its key. -/
theorem pairwise_iff_find?_eq {key : α → κ} {good : α → Prop} {l : List α} (distinct : l.Nodup) :
    (l.Pairwise fun a b => key a = key b → ¬ good b) ↔
      ∀ b ∈ l, good b → l.find? (fun a => key a = key b) = some b := by
  induction l with
  | nil => simp
  | cons x xs ih =>
    obtain ⟨fresh,rest⟩ := List.nodup_cons.mp distinct
    rw [List.pairwise_cons,ih rest,List.forall_mem_cons]
    constructor
    · rintro ⟨head,tail⟩
      refine ⟨fun _ => by simp,fun b found fine => ?_⟩
      have other : key x ≠ key b := fun same => head b found same fine
      rw [List.find?_cons_of_neg (by simpa using other)]
      exact tail b found fine
    · rintro ⟨-,tail⟩
      have split : ∀ b ∈ xs, good b → key x ≠ key b ∧
          xs.find? (fun a => key a = key b) = some b := by
        intro b found fine
        have first := tail b found fine
        by_cases same : key x = key b
        · rw [List.find?_cons_of_pos (by simpa using same)] at first
          exact absurd (Option.some.inj first ▸ found) fresh
        · rw [List.find?_cons_of_neg (by simpa using same)] at first
          exact ⟨same,first⟩
      exact ⟨fun b found same fine => (split b found fine).1 same,
        fun b found fine => (split b found fine).2⟩

end First

namespace UUID

theorem lower_hexDigit_injective :
    ∀ d e : Fin 16, Text.asciiLower (hexDigit d) = Text.asciiLower (hexDigit e) → d = e := by
  decide

theorem lower_hexDigit_ne (d : Fin 16) : Text.asciiLower (hexDigit d) ≠ '-' := by
  revert d
  decide

theorem hexDigit_ascii (d : Fin 16) : Text.isAscii (hexDigit d) = true := by
  revert d
  decide

/-- The groups are the digits in order. -/
theorem rejoin (l : List α) : l.take 8 ++ ((l.drop 8).take 4 ++ ((l.drop 12).take 4 ++
    ((l.drop 16).take 4 ++ l.drop 20))) = l := by
  have cut : ∀ n m : Nat, (l.drop n).take m ++ l.drop (n + m) = l.drop n := by
    intro n m
    rw [← List.drop_drop,List.take_append_drop]
  rw [cut 16 4,cut 12 4,cut 8 4,List.take_append_drop]

/-- The digits are what is left of the lowered text when the dashes go. -/
theorem digits_uuidString (u : UUID) :
    (u.uuidString.map Text.asciiLower).filter (fun c => c ≠ '-') =
      u.digits.map fun d => Text.asciiLower (hexDigit d) := by
  have solid : ∀ l : List (Fin 16),
      ((l.map hexDigit).map Text.asciiLower).filter (fun c => c ≠ '-') =
        l.map fun d => Text.asciiLower (hexDigit d) := by
    intro l
    rw [List.map_map,List.filter_eq_self.mpr]
    · rfl
    · intro c found
      obtain ⟨d,-,rfl⟩ := List.mem_map.mp found
      simpa using lower_hexDigit_ne d
  have skip : ∀ l : Text, ('-' :: l).filter (fun c => c ≠ '-') = l.filter fun c => c ≠ '-' :=
    fun l => List.filter_cons_of_neg (by simp)
  have dash : Text.asciiLower '-' = '-' := by decide
  simp only [uuidString,← List.map_take,← List.map_drop,List.map_append,List.map_cons,dash,
    List.filter_append,skip,solid]
  rw [← List.map_append,← List.map_append,← List.map_append,← List.map_append,rejoin]

theorem uuidString_ascii (u : UUID) : u.uuidString.all Text.isAscii = true := by
  refine List.all_eq_true.mpr fun c found => ?_
  simp only [uuidString,← List.map_take,← List.map_drop,List.mem_append,List.mem_cons,
    List.mem_map] at found
  rcases found with ⟨d,-,rfl⟩ | rfl | ⟨d,-,rfl⟩ | rfl | ⟨d,-,rfl⟩ | rfl | ⟨d,-,rfl⟩ | rfl |
    ⟨d,-,rfl⟩
  all_goals first
    | exact hexDigit_ascii _
    | decide

end UUID

section Answer

variable [Host]

/-- The server's echo of an entity id names that entity only. -/
theorem sameId_uuidString (u v : UUID) : sameId u.uuidString v.uuidString = true ↔ u = v := by
  rw [sameId,decide_eq_true_eq,Host.casefold_ascii _ u.uuidString_ascii,
    Host.casefold_ascii _ v.uuidString_ascii]
  constructor
  · intro same
    have digits : u.digits = v.digits := by
      have mapped := congrArg (List.filter fun c => c ≠ '-') same
      rw [u.digits_uuidString,v.digits_uuidString] at mapped
      exact List.map_injective_iff.mpr UUID.lower_hexDigit_injective mapped
    cases u
    cases v
    cases digits
    rfl
  · rintro rfl
    rfl

section Queue

variable {items outbox : List SyncOutbox} {verdicts : List Verdict}

def ids (outbox : List SyncOutbox) : List Nat := outbox.map SyncOutbox.id

omit [Host] in
theorem ids_markSyncItemFailed (id : Nat) (error : String) (outbox : List SyncOutbox) :
    ids (markSyncItemFailed id error outbox) = ids outbox := by
  rw [ids,markSyncItemFailed,List.map_map]
  refine List.map_congr_left fun row _ => ?_
  simp only [Function.comp_apply]
  split <;> rfl

/-- Marking rows as failed keeps them in the queue. -/
theorem ids_failWith (items : List SyncOutbox) (reason : String) (outbox : List SyncOutbox)
    (id : Text) : ids (failWith items reason outbox id) = ids outbox := by
  unfold failWith
  split
  · exact ids_markSyncItemFailed _ _ _
  · rfl

omit [Host] in
theorem ids_foldl {f : List SyncOutbox → β → List SyncOutbox} {l : List β}
    (keeps : ∀ outbox b, ids (f outbox b) = ids outbox) (outbox : List SyncOutbox) :
    ids (l.foldl f outbox) = ids outbox := by
  induction l generalizing outbox with
  | nil => rfl
  | cons b rest ih => exact (ih (f outbox b)).trans (keeps outbox b)

theorem mem_ids_acknowledge {id : Text} {n : Nat} :
    n ∈ ids (acknowledge items outbox id) ↔
      n ∈ ids outbox ∧ ∀ item, firstItem items id = some item → item.id ≠ n := by
  unfold acknowledge
  split
  · rename_i item found
    simp only [ids,markSyncItemSuccess,List.mem_map,List.mem_filter,decide_eq_true_eq,found,
      Option.some.injEq,forall_eq']
    constructor
    · rintro ⟨row,⟨member,other⟩,rfl⟩
      exact ⟨⟨row,member,rfl⟩,Ne.symm other⟩
    · rintro ⟨⟨row,member,rfl⟩,other⟩
      exact ⟨row,⟨member,Ne.symm other⟩,rfl⟩
  · rename_i none_
    simp [none_]

/-- A row leaves the queue when it is the first of the batch with an accepted entity id. -/
theorem mem_ids_processResponse {response : PushSyncResponse} {n : Nat} :
    n ∈ ids (processResponse items response outbox) ↔
      n ∈ ids outbox ∧ ∀ id ∈ response.acceptedIds, ∀ item,
        firstItem items id = some item → item.id ≠ n := by
  rw [processResponse,ids_foldl fun _ _ => ids_failWith _ _ _ _,
    ids_foldl fun _ _ => ids_failWith _ _ _ _]
  induction response.acceptedIds generalizing outbox with
  | nil => simp
  | cons id rest ih =>
    rw [List.foldl_cons,ih,mem_ids_acknowledge,List.forall_mem_cons,and_assoc]

/-- The first row of the batch with an entity id is that of the first entry. -/
theorem firstItem_uuidString (length : verdicts.length = items.length) (u : UUID) :
    firstItem items u.uuidString =
      ((items.zip verdicts).find? fun entry => entry.1.entityID = u).map Prod.fst := by
  have rows : (items.zip verdicts).map Prod.fst = items := List.map_fst_zip (by omega)
  have same : (fun item : SyncOutbox => sameId item.entityID.uuidString u.uuidString) =
      fun item => decide (item.entityID = u) := by
    funext item
    rw [Bool.eq_iff_iff,sameId_uuidString,decide_eq_true_eq]
  rw [firstItem,same]
  conv_lhs => rw [← rows]
  rw [List.find?_map]
  rfl

omit [Host] in
/-- The accepted ids are the entity ids of the accepted rows. -/
theorem mem_acceptedIds {id : Text} :
    id ∈ (tally (items.map SyncOutbox.toOperation) verdicts).acceptedIds ↔
      ∃ entry ∈ items.zip verdicts, entry.2 = none ∧ entry.1.entityID.uuidString = id := by
  simp only [tally,idsOf,List.zip_map_left,List.filter_map,List.map_map,List.mem_map,
    List.mem_filter,Function.comp_apply,Prod.map_snd,id_eq,Option.isNone_iff_eq_none,and_assoc]
  rfl

end Queue

/-- What the client may conclude from an answer: a row has left the queue exactly when the
server accepted its operation, and a refused one is still there. -/
structure AckSound (outbox after : List SyncOutbox) (entries : List (SyncOutbox × Verdict)) :
    Prop where
  removed : ∀ row ∈ outbox, row.id ∉ ids after ↔ (row,none) ∈ entries
  queued : ∀ row error, (row,some error) ∈ entries → row.id ∈ ids after

/-- No accepted operation of the batch comes after another one on the same entity. -/
def OnlyFirstAccepted (entries : List (SyncOutbox × Verdict)) : Prop :=
  entries.Pairwise fun earlier later =>
    earlier.1.entityID = later.1.entityID → ¬ later.2 = none

/-- The rows left when an answer with these verdicts has been processed. -/
theorem mem_ids_answered {items outbox : List SyncOutbox} {verdicts : List Verdict}
    (length : verdicts.length = items.length) {n : Nat} :
    n ∈ ids (processResponse items (tally (items.map SyncOutbox.toOperation) verdicts) outbox) ↔
      n ∈ ids outbox ∧ ∀ entry ∈ items.zip verdicts, entry.2 = none → ∀ first,
        (items.zip verdicts).find? (fun other => other.1.entityID = entry.1.entityID) =
          some first → first.1.id ≠ n := by
  rw [mem_ids_processResponse]
  refine and_congr_right fun _ => ⟨fun none_ entry member accepted first found => ?_,
    fun none_ id listed item found => ?_⟩
  · refine none_ _ (mem_acceptedIds.mpr ⟨entry,member,accepted,rfl⟩) first.1 ?_
    rw [firstItem_uuidString length,found]
    rfl
  · obtain ⟨entry,member,accepted,rfl⟩ := mem_acceptedIds.mp listed
    rw [firstItem_uuidString length,Option.map_eq_some_iff] at found
    obtain ⟨first,found,rfl⟩ := found
    exact none_ entry member accepted first found

theorem ackSound_iff {items outbox : List SyncOutbox} {verdicts : List Verdict}
    (distinct : (ids outbox).Nodup) (batch : items ⊆ outbox) (rows : (ids items).Nodup)
    (length : verdicts.length = items.length) :
    AckSound outbox (processResponse items (tally (items.map SyncOutbox.toOperation) verdicts)
      outbox) (items.zip verdicts) ↔ OnlyFirstAccepted (items.zip verdicts) := by
  have entryIds : ((items.zip verdicts).map fun entry => entry.1.id).Nodup := by
    have first : (items.zip verdicts).map Prod.fst = items := List.map_fst_zip (by omega)
    rw [ids,← first,List.map_map] at rows
    exact rows
  have sameRow : ∀ row ∈ outbox, ∀ other ∈ outbox, row.id = other.id → row = other :=
    fun row found other member => List.inj_on_of_nodup_map distinct found member
  have sameEntry : ∀ entry ∈ items.zip verdicts, ∀ other ∈ items.zip verdicts,
      entry.1.id = other.1.id → entry = other :=
    fun entry found other member => List.inj_on_of_nodup_map entryIds found member
  have queuedRow : ∀ entry ∈ items.zip verdicts, entry.1 ∈ outbox :=
    fun entry member => batch (List.of_mem_zip member).1
  rw [OnlyFirstAccepted,pairwise_iff_find?_eq (entryIds.of_map _)]
  constructor
  · intro sound entry member accepted
    have gone : entry.1.id ∉ ids (processResponse items
        (tally (items.map SyncOutbox.toOperation) verdicts) outbox) := by
      refine (sound.removed entry.1 (queuedRow entry member)).mpr ?_
      rw [← accepted]
      exact member
    rw [mem_ids_answered length] at gone
    push Not at gone
    obtain ⟨other,found,-,first,isFirst,same⟩ := gone (List.mem_map_of_mem (queuedRow entry member))
    obtain rfl := sameEntry first (List.mem_of_find?_eq_some isFirst) entry member same
    have key : first.1.entityID = other.1.entityID := by
      simpa using List.find?_some isFirst
    rw [key]
    exact isFirst
  · intro first
    have left : ∀ n, n ∈ ids (processResponse items
        (tally (items.map SyncOutbox.toOperation) verdicts) outbox) ↔
        n ∈ ids outbox ∧ ∀ entry ∈ items.zip verdicts, entry.2 = none → entry.1.id ≠ n := by
      intro n
      rw [mem_ids_answered length]
      refine and_congr_right fun _ => forall₂_congr fun entry member => forall_congr'
        fun accepted => ?_
      simp [first entry member accepted]
    constructor
    · intro row found
      rw [left]
      push Not
      constructor
      · intro gone
        obtain ⟨entry,member,accepted,same⟩ := gone (List.mem_map_of_mem found)
        obtain rfl := sameRow entry.1 (queuedRow entry member) row found same
        rw [← accepted]
        exact member
      · intro member _
        exact ⟨(row,none),member,rfl,rfl⟩
    · intro row error member
      refine (left row.id).mpr ⟨List.mem_map_of_mem (queuedRow _ member),?_⟩
      intro entry found accepted same
      have both := sameEntry entry found (row,some error) member same
      rw [both] at accepted
      cases accepted

omit [Host] in
/-- The batch is some rows of the outbox. -/
theorem pending_perm (outbox : List SyncOutbox) (limit : Nat) :
    ∃ rest, List.Perm (getPendingSyncItems limit outbox ++ rest) outbox := by
  refine ⟨(outbox.insertionSort SyncOutbox.precedes).drop limit,?_⟩
  rw [getPendingSyncItems,List.take_append_drop]
  exact List.perm_insertionSort _ _

/-- Whatever the queue holds and whatever the server answers: the rows that leave are those
the server accepted if and only if only first operations of an entity were accepted. -/
theorem pushChanges_ackSound_iff {device : Text} {clock : Nat → Clock} {outbox : List SyncOutbox}
    {db db' : Db} {verdicts : List Verdict} (distinct : (ids outbox).Nodup)
    (answered : pushVerdicts device
      ((getPendingSyncItems pushLimit outbox).map SyncOutbox.toOperation) clock db =
        .ok (verdicts,db')) :
    AckSound outbox (pushChanges device clock outbox db).1
      ((getPendingSyncItems pushLimit outbox).zip verdicts) ↔
    OnlyFirstAccepted ((getPendingSyncItems pushLimit outbox).zip verdicts) := by
  have length : verdicts.length = (getPendingSyncItems pushLimit outbox).length := by
    have counted := length_verdicts (pushVerdicts_eq_ok.mp answered).2
    rwa [List.length_map] at counted
  obtain ⟨rest,perm⟩ := pending_perm outbox pushLimit
  have batch : getPendingSyncItems pushLimit outbox ⊆ outbox := fun row found =>
    perm.subset (List.mem_append_left _ found)
  have rows : (ids (getPendingSyncItems pushLimit outbox)).Nodup := by
    have whole := (perm.map SyncOutbox.id).nodup_iff.mpr distinct
    rw [List.map_append] at whole
    exact (List.nodup_append.mp whole).1
  rw [← ackSound_iff distinct batch rows length]
  have after : (pushChanges device clock outbox db).1 =
      processResponse (getPendingSyncItems pushLimit outbox)
        (tally ((getPendingSyncItems pushLimit outbox).map SyncOutbox.toOperation) verdicts)
        outbox := by
    unfold pushChanges
    have replied := pushSync_eq_ok.mpr ⟨verdicts,answered,rfl⟩
    by_cases empty : (getPendingSyncItems pushLimit outbox).isEmpty
    · have none_ : getPendingSyncItems pushLimit outbox = [] := List.isEmpty_iff.mp empty
      simp [none_,processResponse,tally,idsOf] at length ⊢
      simp [length]
    · simp only [empty,Bool.false_eq_true,if_false,replied]
  rw [after]

end Answer

def someNote : UUID := ⟨List.replicate 32 0,rfl⟩

def creation : SyncOutbox where
  id := 1
  entityType := .note
  entityID := someNote
  operation := .create
  createdAt := 0

def deletion : SyncOutbox := {creation with id := 2,operation := .delete,createdAt := 1}

open scoped AsciiHost

theorem deletion_ackSound : AckSound [deletion]
    (pushChanges "macbook".toList (fun _ _ => 0) [deletion] emptyServer).1
    ((getPendingSyncItems pushLimit [deletion]).zip [none]) :=
  (pushChanges_ackSound_iff (by decide) rfl).mpr (List.pairwise_singleton _ _)

/-- The server refuses the creation and accepts the deletion; the client takes the accepted
id for the creation, and loses the refused operation. -/
theorem creation_lost : ∃ verdicts db',
    pushVerdicts "macbook".toList
      ((getPendingSyncItems pushLimit [creation,deletion]).map SyncOutbox.toOperation)
      (fun _ _ => 0) emptyServer = .ok (verdicts,db') ∧
    ¬ AckSound [creation,deletion]
      (pushChanges "macbook".toList (fun _ _ => 0) [creation,deletion] emptyServer).1
      ((getPendingSyncItems pushLimit [creation,deletion]).zip verdicts) := by
  refine ⟨_,_,rfl,fun sound => ?_⟩
  have kept := sound.queued creation _ (.head _)
  exact absurd kept (by decide +kernel)

end LocalBook.ReadFlow
