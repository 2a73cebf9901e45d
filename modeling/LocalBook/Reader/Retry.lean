import LocalBook.Reader.Pushing

/-! A push whose answer is lost is pushed again. The server keeps no memory of the batch:
what it accepted once it applies, or refuses, a second time. -/
namespace LocalBook.Reader

structure Admits (device : Text) (operations : List Operation) (db : Db) : Prop where
  length : operations.length ≤ maxBatchSize
  known : device ≠ placeholderDevice ∧ device ∈ db.devices

section Push

variable {device : Text} {clock : Nat → Clock} {operations : List Operation} {db db' : Db}
  {verdicts : List Verdict}

theorem pushVerdicts_eq_ok :
    pushVerdicts device operations clock db = .ok (verdicts,db') ↔
      Admits device operations db ∧
        applyOperations device clock 0 operations db = .ok (verdicts,db') := by
  by_cases long : maxBatchSize < operations.length
  · constructor
    · intro ran
      simp [pushVerdicts,refuse,long,bind,Except.bind] at ran
    · rintro ⟨admits,-⟩
      exact absurd admits.length (by omega)
  · by_cases known : device ≠ placeholderDevice ∧ device ∈ db.devices
    · have admits : Admits device operations db := ⟨by omega,known⟩
      have passes : getDevice device db = .ok () := by
        simp [getDevice,refuse,known.1,known.2]
      simp only [pushVerdicts,refuse,long,passes,bind,Except.bind,decide_false,Bool.false_eq_true,
        if_false,admits,true_and]
      cases applyOperations device clock 0 operations db <;> simp [pure,Except.pure,throw,
        throwThe,MonadExceptOf.throw]
    · have refused : ¬ Admits device operations db := fun admits => known admits.known
      have barred : getDevice device db = .error
          (.reader ⟨.deviceNotFound,"Device not found: " ++ String.ofList device,none⟩) := by
        rw [getDevice,refuse,if_pos]
        simp only [Bool.or_eq_true,decide_eq_true_eq]
        tauto
      simp [pushVerdicts,refuse,long,barred,bind,Except.bind,refused]

theorem pushSync_eq_ok {reply : PushSyncResponse} :
    pushSync device operations clock db = (.ok reply,db') ↔
      ∃ verdicts, pushVerdicts device operations clock db = .ok (verdicts,db') ∧
        tally operations verdicts = reply := by
  unfold pushSync
  cases pushVerdicts device operations clock db with
  | error fault => simp
  | ok result => simp [Prod.ext_iff,eq_comm,and_comm]

/-- The ids of a batch of which nothing satisfies the test. -/
theorem idsOf_eq_nil {test : Verdict → Bool} (length : verdicts.length = operations.length) :
    idsOf test operations verdicts = [] ↔ verdicts.countP test = 0 := by
  rw [idsOf,List.map_eq_nil_iff,List.filter_eq_nil_iff,List.countP_eq_zero]
  constructor
  · intro none_ verdict found
    have second : verdict ∈ (operations.zip verdicts).map Prod.snd := by
      rwa [List.map_snd_zip (by omega)]
    obtain ⟨entry,member,rfl⟩ := List.mem_map.mp second
    exact none_ entry member
  · intro none_ entry member
    exact none_ entry.2 (List.of_mem_zip member).2

end Push

/-- The batch is pushed again, after the server has answered a first time: the tables stay
as they are and the new answer acknowledges what the first one did. -/
def Retried (device : Text) (operations : List Operation) (reply : PushSyncResponse)
    (db : Db) : Prop :=
  ∀ clock, ∃ again db', pushSync device operations clock db = (.ok again,db') ∧
    SameRows db db' ∧ ∀ id ∈ reply.acceptedIds, id ∈ again.acceptedIds

/-- A push that acknowledges an operation has appended to the outbox. -/
theorem outbox_ne_of_accepted {device : Text} {operations : List Operation}
    {clock : Nat → Clock} {reply : PushSyncResponse} {db db' : Db}
    (pushed : pushSync device operations clock db = (.ok reply,db'))
    (some_ : reply.acceptedIds ≠ []) : db'.outbox ≠ db.outbox := by
  obtain ⟨verdicts,ran,rfl⟩ := pushSync_eq_ok.mp pushed
  obtain ⟨-,ran⟩ := pushVerdicts_eq_ok.mp ran
  obtain ⟨rows,appended,count⟩ := applyOperations_appended ran
  have positive : verdicts.countP Option.isNone ≠ 0 := fun none_ =>
    some_ ((idsOf_eq_nil (length_verdicts ran)).mpr none_)
  intro same
  have longer := congrArg List.length same
  rw [appended.outbox,List.length_append] at longer
  omega

/-- Pushing again is harmless for exactly the batches of which the server refuses every
operation. -/
theorem retried_iff {device : Text} {operations : List Operation} {clock : Nat → Clock}
    {reply : PushSyncResponse} {db db' : Db}
    (pushed : pushSync device operations clock db = (.ok reply,db')) :
    Retried device operations reply db' ↔ ∀ op ∈ operations, Refused device op db := by
  obtain ⟨verdicts,first,rfl⟩ := pushSync_eq_ok.mp pushed
  obtain ⟨admits,ran⟩ := pushVerdicts_eq_ok.mp first
  constructor
  · intro retried
    obtain ⟨again,db'',second,same,acknowledged⟩ := retried clock
    by_cases empty : (tally operations verdicts).acceptedIds = []
    · exact (applyOperations_refused ran
        ((idsOf_eq_nil (length_verdicts ran)).mp empty)).2
    · obtain ⟨id,member⟩ := List.exists_mem_of_ne_nil _ empty
      have nonempty : again.acceptedIds ≠ [] := List.ne_nil_of_mem (acknowledged id member)
      exact absurd same.outbox (outbox_ne_of_accepted second nonempty)
  · intro refused again
    obtain ⟨vs,same,count⟩ := applyOperations_of_refused clock 0 refused
    obtain ⟨rfl,rfl⟩ := Prod.mk.inj (Except.ok.inj (ran.symm.trans same))
    obtain ⟨us,retry,-⟩ := applyOperations_of_refused again 0 refused
    have empty : (tally operations verdicts).acceptedIds = [] :=
      (idsOf_eq_nil (length_verdicts ran)).mpr count
    refine ⟨tally operations us,db',?_,⟨rfl,rfl,rfl,rfl,rfl,rfl⟩,by simp [empty]⟩
    exact pushSync_eq_ok.mpr ⟨us,pushVerdicts_eq_ok.mpr ⟨admits,retry⟩,rfl⟩

def emptyServer : Db := {devices := ["macbook".toList]}

def newSource : Operation where
  operation := .create
  entityType := .source
  entityId := "s1".toList
  data := [("type".toList,.str "web".toList)]

def typeless : Operation := {newSource with data := []}

theorem typeless_retried : Retried "macbook".toList [typeless]
    (tally [typeless] [some ⟨.invalidOperation,"Missing required field: type or source_type",none⟩])
    emptyServer :=
  (@retried_iff _ _ (fun _ _ => 0) _ emptyServer emptyServer
    (pushSync_eq_ok.mpr ⟨_,rfl,rfl⟩)).mpr fun op member =>
      ⟨_,by obtain rfl := List.mem_singleton.mp member; rfl⟩

/-- The source is created, the answer is lost, and the second push refuses the operation. -/
theorem newSource_not_retried : ∃ reply db',
    pushSync "macbook".toList [newSource] (fun _ _ => 0) emptyServer = (.ok reply,db') ∧
      ¬ Retried "macbook".toList [newSource] reply db' := by
  refine ⟨_,_,rfl,fun retried => ?_⟩
  obtain ⟨again,db'',second,same,acknowledged⟩ := retried fun _ _ => 0
  have member := acknowledged "s1".toList (by decide)
  exact outbox_ne_of_accepted second (List.ne_nil_of_mem member) same.outbox

end LocalBook.Reader
