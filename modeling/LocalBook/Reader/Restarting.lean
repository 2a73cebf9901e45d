import LocalBook.Reader.Resuming

/-! Starts of the server that are cut off and repeated: the schema of the outbox converges
unless one of them leaves a migration halfway. -/
namespace LocalBook.Reader.Schema

open Effect

section Migrations

variable {origin : Option Outbox} {c : Connection} {files known : List Migration}

def On (origin : Option Outbox) (known : List Migration) (c : Connection) : Prop :=
  ∃ files, Stage origin files c ∧ c.pending = none ∧ known ⊆ files

theorem On.way (on : On origin known c) : Way origin c := on.elim fun _ both => both.1.way

theorem recorded_iff (stage : Stage origin files c) (migration : Migration) :
    c.visible.recorded migration = true ↔ migration ∈ files := by
  simp [Database.recorded,stage.ledger]

theorem stage_conversationSourceNullable (stage : Stage origin files c)
    (clear : c.pending = none) :
    Keeps sqlite (Way origin) (Ended origin) applyMigration003 c
      fun _ c' => Stage origin files c' ∧ c'.pending = none := by
  obtain ⟨disk,pending⟩ := c
  obtain rfl : pending = none := clear
  have ready : Ready origin disk := stage.disk
  refine keeps_look stage.way ?_
  obtain ⟨table,some_⟩ := Option.isSome_iff_exists.mp ready.conversations
  have held : (Connection.visible {disk}).conversations = some table := some_
  rw [held]
  refine stage_skipIf stage (fun _ => ⟨stage,rfl⟩) fun _ => ?_
  refine Keeps.then (Q := fun _ => Stage origin files) ?_ fun _ c after => ?_
  · refine Keeps.then (Q := fun _ c' => c' = {disk,pending := some disk}) ?_ fun _ c after => ?_
    · exact keeps_begin stage.way stage.way rfl
    subst after
    refine (inside_execute ready (q := ({disk with conversationsNew := none} :
      Database).unindex .conversationsNew) rfl).then fun _ c after => ?_
    subst after
    refine (inside_execute ready (q := {({disk with conversationsNew := none} :
      Database).unindex .conversationsNew with conversationsNew := some {}})
      rfl).then fun _ c after => ?_
    subst after
    refine (inside_execute ready (q := {({disk with conversationsNew := none} :
      Database).unindex .conversationsNew with conversationsNew := some {}})
      (by simp [Statement.run,Database.unindex,some_])).then fun _ c after => ?_
    subst after
    refine (inside_execute ready (q := ({disk.unindex .conversationsNew with
      conversations := none,conversationsNew := some {}} : Database).unindex .conversations)
      (by simp [Statement.run,Database.unindex,some_])).then fun _ c after => ?_
    subst after
    refine (inside_execute ready (q := ({(disk.unindex .conversationsNew).unindex
      .conversations with conversations := some {},conversationsNew := none} :
        Database).reindex .conversationsNew .conversations)
      (by simp [Statement.run,Database.unindex])).then fun _ c after => ?_
    subst after
    have rebuilt : Ready origin (({(disk.unindex .conversationsNew).unindex
        .conversations with conversations := some {},conversationsNew := none} :
          Database).reindex .conversationsNew .conversations) := by
      refine ready_indexes (ready_conversations ready {} none) ?_
      exact @reserved_reindex {(disk.unindex .conversationsNew).unindex .conversations with
        conversations := some {},conversationsNew := none}
        (reserved_unindex (reserved_unindex ready.reserved _) _) _ _ (by decide)
    have stage : Stage origin files {disk,pending := some (({(disk.unindex
        .conversationsNew).unindex .conversations with
          conversations := some {},conversationsNew := none} :
          Database).reindex .conversationsNew .conversations)} :=
      ⟨ready,rebuilt,stage.ledger⟩
    refine (stage_executeIndex stage rfl (by decide)).then fun _ c after => ?_
    refine (stage_executeIndex after.1 after.2 (by decide)).then fun _ c after => ?_
    refine (stage_executeIndex after.1 after.2 (by decide)).then fun _ c after => ?_
    refine (stage_executeIndex after.1 after.2 (by decide)).then fun _ c after => ?_
    exact (stage_commit after.1).imp fun _ c' done => done.1
  · refine (stage_commit after).then fun _ c done => ?_
    refine Keeps.then (Q := fun _ c' => Stage origin files c' ∧ c'.pending = none) ?_
      fun _ c done => keeps_pure done.1.way done
    obtain ⟨stage,-,clear⟩ := done
    obtain ⟨versions,some_⟩ := Option.isSome_iff_exists.mp stage.next.versions
    have ran : Statement.run c.visible (.insertOrIgnoreVersion 3) =
        .ok {c.visible with versions := some (if 3 ∈ versions then versions
          else versions ++ [3])} := by
      simp only [Statement.run,some_]
    have kept := stage.keep (@ready_version _ _ stage.next _ 3 some_) stage.ledger false
    refine keeps_step ran stage.way kept.way ⟨kept,?_⟩
    simp [Connection.keep,clear]

theorem stage_conversationOwner (stage : Stage origin files c) :
    Keeps sqlite (Way origin) (Ended origin) applyMigration007 c
      fun _ c' => Stage origin files c' ∧ c'.pending = none := by
  refine keeps_look stage.way ?_
  refine Keeps.then (Q := fun _ c' => Stage origin files c' ∧
    c'.visible.conversations.any Conversations.owner = true) ?_ fun _ c after => ?_
  · refine stage_skipIf stage (fun owned => ⟨stage,owned⟩) fun unowned => ?_
    obtain ⟨table,some_⟩ := Option.isSome_iff_exists.mp stage.next.conversations
    have ran : Statement.run c.visible .addOwner =
        .ok {c.visible with conversations := some {table with owner := true}} := by
      simp [some_] at unowned
      simp [Statement.run,some_,unowned]
    refine (stage_execute stage ran (ready_conversations stage.next _ _) stage.ledger).imp
      fun _ c' after => ⟨after.1,?_⟩
    rw [after.2]
    rfl
  · obtain ⟨stage,owned⟩ := after
    have sessions : c.visible.has .sessions = true := by
      simpa [Database.has] using stage.next.sessions
    have ran : Statement.run c.visible .assignOwners = .ok c.visible := by
      simp [Statement.run,owned,sessions]
    refine (stage_execute stage ran stage.next stage.ledger).then fun _ c' after => ?_
    have there : c'.visible.has .conversations = true := after.1.next.conversations
    refine (stage_executeIndex after.1 there (by decide)).then fun _ c' after => ?_
    exact (stage_commit after.1).imp fun _ c' done => ⟨done.1,done.2.2⟩

theorem on_record {migration : Migration} (stage : Stage origin files c)
    (new : migration ∉ files) (other : migration ≠ .pairingAndOutbox)
    (kept : known ⊆ files) :
    Keeps sqlite (Way origin) (Ended origin)
      (execute (.recordMigration migration) >>= fun _ => commit) c
      fun _ c' => On origin (migration :: known) c' := by
  have ran : Statement.run c.visible (.recordMigration migration) =
      .ok {c.visible with ledger := some (files ++ [migration])} := by
    simp [Statement.run,stage.ledger,new]
  have ready := ready_record stage.next stage.ledger other
  have next : Stage origin (files ++ [migration])
      (c.keep true {c.visible with ledger := some (files ++ [migration])}) := by
    refine ⟨?_,by rwa [visible_keep],by rw [visible_keep]⟩
    rcases disk_keep true with same | same <;> rw [same]
    · exact stage.disk
    · exact ready
  refine Keeps.then (Q := fun _ => Stage origin (files ++ [migration])) ?_ fun _ c after => ?_
  · exact keeps_execute ran stage.way next.way next
  · refine (stage_commit after).imp fun _ c' done => ⟨_,done.1,done.2.2,?_⟩
    exact List.cons_subset.mpr ⟨by simp,fun file listed =>
      List.mem_append_left _ (kept listed)⟩

theorem on_pairingApproval (stage : Stage origin files c) (clear : c.pending = none)
    (second : .pairingAndOutbox ∈ files) (new : .pairingApproval ∉ files)
    (kept : known ⊆ files) :
    Keeps sqlite (Way origin) (Ended origin)
      (executeScript readerPairingApproval >>= fun _ =>
        execute (.recordMigration .pairingApproval) >>= fun _ => commit) c
      fun _ c' => On origin known c' := by
  obtain ⟨disk,pending⟩ := c
  obtain rfl : pending = none := clear
  have ready : Ready origin disk := stage.disk
  have unrecorded : disk.recorded .pairingApproval = false := by
    have ledger : disk.ledger = some files := stage.ledger
    simp [Database.recorded,ledger,new]
  have paired : disk.recorded .pairingAndOutbox = true := (recorded_iff stage _).mpr second
  obtain ⟨columns,held⟩ := Option.isSome_iff_exists.mp (ready.pairing paired unrecorded)
  have fresh := ready.approval unrecorded columns held
  obtain ⟨old,legacy,-⟩ := ready.legacy
  have half : Way origin {disk := {disk with pairing := some (columns ++ ["approved_at"])}} :=
    .inr (.inr (.inr (.inr ⟨by simp [legacy,Outbox.isLegacy],unrecorded,by simp⟩)))
  have ledger : disk.ledger = some files := stage.ledger
  have approved : Ready origin {disk with
      pairing := some (columns ++ ["approved_at"]),
      ledger := some (files ++ [.pairingApproval])} := by
    have base := ready_record ready ledger (by decide : Migration.pairingApproval ≠ _)
    refine {base with pairing := fun _ _ => rfl,approval := fun sixth => ?_}
    simp [Database.recorded] at sixth
  have added : Statement.run disk (.addPairingColumn "approved_at") =
      .ok {disk with pairing := some (columns ++ ["approved_at"])} := by
    simp [Statement.run,held,fresh]
  have recorded : Statement.run {disk with pairing := some (columns ++ ["approved_at"])}
      (.recordMigration .pairingApproval) = .ok {disk with
        pairing := some (columns ++ ["approved_at"]),
        ledger := some (files ++ [.pairingApproval])} := by
    simp [Statement.run,ledger,new]
  refine Keeps.then (Q := fun _ c' => c' = {disk := {disk with
    pairing := some (columns ++ ["approved_at"])}}) ?_ fun _ c after => ?_
  · refine Keeps.then (Q := fun _ c' => c' = {disk}) ?_ fun _ c after => ?_
    · exact keeps_commit stage.way stage.way rfl
    subst after
    refine Keeps.then (Q := fun _ c' => c' = {disk := {disk with
      pairing := some (columns ++ ["approved_at"])}}) ?_ fun _ c after => ?_
    · exact keeps_step (c := {disk}) added stage.way half rfl
    · subst after
      exact keeps_pure half rfl
  subst after
  refine Keeps.then (Q := fun _ c' => c'.disk = {disk with
    pairing := some (columns ++ ["approved_at"])} ∧ c'.visible = {disk with
      pairing := some (columns ++ ["approved_at"]),
      ledger := some (files ++ [.pairingApproval])}) ?_ fun _ c after => ?_
  · exact keeps_execute (c := {disk := _}) recorded half half ⟨rfl,rfl⟩
  · have way : Way origin c := by
      rw [Way,after.1]
      exact half
    have visible : Ready origin c.visible := after.2 ▸ approved
    refine keeps_commit way (.inr (.inl visible)) ⟨files ++ [.pairingApproval],
      ⟨visible,visible,?_⟩,rfl,fun file listed => List.mem_append_left _ (kept listed)⟩
    exact congrArg Database.ledger after.2

end Migrations

section Order

variable {origin : Option Outbox} {c : Connection} {files known : List Migration}

/-- A run that keeps to converged databases keeps to what the disk may hold. -/
theorem Keeps.safe {p : Action Unit} {Q : Unit → Connection → Prop}
    (keeps : Keeps sqlite (fun c => Converged origin c.disk) (fun c => Converged origin c.disk)
      p c Q) : Keeps sqlite (Way origin) (Ended origin) p c Q :=
  keeps.mono (fun _ converged => .inr (.inr (.inl converged))) fun _ converged => converged

theorem on_migrate (migration : Migration)
    (on : On origin [.initReaderSchema,.pairingAndOutbox] c) :
    Keeps sqlite (Way origin) (Ended origin) (migrate migration) c
      fun _ => On origin [.initReaderSchema,.pairingAndOutbox] := by
  obtain ⟨files,stage,clear,kept⟩ := on
  refine keeps_look stage.way (stage_skipIf stage (fun _ => ⟨files,stage,clear,kept⟩) ?_)
  intro unrecorded
  have new : migration ∉ files := fun old => unrecorded ((recorded_iff stage _).mpr old)
  have record : ∀ c', Stage origin files c' → migration ≠ .pairingAndOutbox →
      Keeps sqlite (Way origin) (Ended origin)
        (execute (.recordMigration migration) >>= fun _ => commit) c'
        fun _ => On origin [.initReaderSchema,.pairingAndOutbox] := by
    intro c' stage other
    refine (on_record stage new other kept).imp fun _ c'' on => ?_
    obtain ⟨files',stage',clear',kept'⟩ := on
    exact ⟨files',stage',clear',(List.cons_subset.mp kept').2⟩
  cases migration with
  | initReaderSchema => exact absurd (kept (by simp)) new
  | pairingAndOutbox => exact absurd (kept (by simp)) new
  | conversationSourceNullable =>
    refine (stage_conversationSourceNullable stage clear).then fun _ c' after => ?_
    exact record c' after.1 (by decide)
  | accessTokens =>
    refine (stage_accessTokens stage).then fun _ c' after => ?_
    exact record c' after (by decide)
  | readerItems =>
    refine (stage_items stage).then fun _ c' after => ?_
    exact record c' after (by decide)
  | pairingApproval => exact on_pairingApproval stage clear (kept (by simp)) new kept
  | conversationOwner =>
    refine (stage_conversationOwner stage).then fun _ c' after => ?_
    exact record c' after.1 (by decide)

theorem on_recorded (on : On origin [.initReaderSchema] c) :
    Keeps sqlite (Way origin) (Ended origin) (migrate .initReaderSchema) c
      fun _ => On origin [.initReaderSchema] := by
  obtain ⟨files,stage,clear,kept⟩ := on
  refine keeps_look stage.way (stage_skipIf stage (fun _ => ⟨files,stage,clear,kept⟩) ?_)
  intro unrecorded
  exact absurd ((recorded_iff stage _).mpr (kept (by simp))) unrecorded

def Progress (origin : Option Outbox) (c : Connection) : Prop :=
  Steady origin c ∨ On origin [.initReaderSchema,.pairingAndOutbox] c

theorem Progress.way (progress : Progress origin c) : Way origin c :=
  progress.elim (fun steady => .inr (.inr (.inl steady.1))) On.way

theorem progress_migrate (migration : Migration) (progress : Progress origin c) :
    Keeps sqlite (Way origin) (Ended origin) (migrate migration) c fun _ => Progress origin := by
  rcases progress with steady | on
  · exact (Keeps.safe (steady_migrate migration steady)).imp fun _ _ => .inl
  · exact (on_migrate migration on).imp fun _ _ => .inr

theorem progress_pairingAndOutbox (on : On origin [.initReaderSchema] c) :
    Keeps sqlite (Way origin) (Ended origin) (migrate .pairingAndOutbox) c
      fun _ => Progress origin := by
  obtain ⟨files,stage,clear,kept⟩ := on
  refine keeps_look stage.way (stage_skipIf stage (fun recorded => .inr ?_) fun _ => ?_)
  · refine ⟨files,stage,clear,fun file listed => ?_⟩
    rcases List.mem_cons.mp listed with rfl | second
    · exact kept (by simp)
    · obtain rfl := List.mem_singleton.mp second
      exact (recorded_iff stage _).mp recorded
  · refine (steady_of_applyMigration002 stage clear).then fun _ c after => ?_
    refine Keeps.safe ?_
    refine (steady_execute after (by simp)).then fun _ c after => ?_
    exact (steady_commit after).imp fun _ _ => .inl

/-- The check behind the loop makes up for a second migration that left the old outbox. -/
theorem steady_of_healthCheck (progress : Progress origin c) :
    Keeps sqlite (Way origin) (Ended origin) healthCheck c fun _ => Steady origin := by
  rcases progress with steady | ⟨files,stage,clear,kept⟩
  · exact Keeps.safe (steady_healthCheck steady)
  · have recorded : c.visible.recorded .pairingAndOutbox = true :=
      (recorded_iff stage _).mpr (kept (by simp))
    refine keeps_look stage.way (stage_skipIf stage (fun unrecorded => ?_) fun _ => ?_)
    · rw [recorded] at unrecorded
      cases unrecorded
    · exact steady_of_applyMigration002 stage clear

end Order

section Beginning

variable {origin : Option Outbox} {c : Connection} {db : Database}

def initialised (db : Database) : Bool :=
  db.outbox = some (.legacy []) && db.versions = some [1] && db.ledger = some [] &&
    db.devices.isSome && db.conversations.isSome && .sessions ∈ db.others && db.pairing = none &&
    db.indexes.all fun entry => entry.1 ∉ outboxIndexes || entry.2 = .outbox

theorem ready_of_initialised (done : initialised db = true) :
    Ready none db ∧ db.ledger = some [] := by
  simp only [initialised,Bool.and_eq_true,decide_eq_true_eq,List.all_eq_true,
    Bool.or_eq_true] at done
  obtain ⟨⟨⟨⟨⟨⟨⟨outbox,versions⟩,ledger⟩,devices⟩,conversations⟩,sessions⟩,pairing⟩,reserved⟩ :=
    done
  refine ⟨⟨⟨[],outbox,fun _ => rfl⟩,by simp [versions],
    .inl (by simp [Database.versioned,versions]),devices,conversations,sessions,
    fun entry listed named => (reserved entry listed).resolve_left (· named),
    fun second => ?_,fun _ columns some_ => ?_⟩,ledger⟩
  · simp [Database.recorded,ledger] at second
  · rw [pairing] at some_
    cases some_

def scripted (test : Database → Bool) : List Statement → Database → Bool
  | [],db => test db && initialised db
  | statement :: rest,db =>
    test db && match statement.run db with
      | .ok db' => scripted test rest db'
      | .error _ => false

theorem keeps_scripted {test : Database → Bool} {script : List Statement}
    (safe : ∀ db, test db = true → Safe origin db)
    (ran : scripted test script db = true) :
    Keeps sqlite (Way origin) (Ended origin) (inTurn step script) {disk := db} fun _ c' =>
      c'.pending = none ∧ initialised c'.disk = true := by
  induction script generalizing db with
  | nil =>
    simp only [scripted,Bool.and_eq_true] at ran
    exact keeps_pure (safe db ran.1) ⟨rfl,ran.2⟩
  | cons statement rest ih =>
    simp only [scripted,Bool.and_eq_true] at ran
    obtain ⟨here,later⟩ := ran
    cases next : statement.run db with
    | error fault => simp [next] at later
    | ok db' =>
      rw [next] at later
      have there : test db' = true := by
        cases rest <;> simp only [scripted,Bool.and_eq_true] at later <;> exact later.1
      refine Keeps.then (Q := fun _ c' => c' = {disk := db'}) ?_ fun _ c after => ?_
      · exact keeps_step (c := {disk := db}) next (safe db here) (safe db' there) rfl
      · subst after
        exact ih later

def onTheWay (db : Database) : Bool :=
  decide (Early db) || decide (HalfInitialised db) || initialised db

theorem safe_onTheWay (db : Database) (on : onTheWay db = true) : Safe none db := by
  simp only [onTheWay,Bool.or_eq_true,decide_eq_true_eq] at on
  rcases on with (early | half) | done
  · exact .inl ⟨rfl,early⟩
  · exact .inr (.inr (.inr (.inl half)))
  · exact .inr (.inl (ready_of_initialised done).1)

theorem scripted_initReaderSchema :
    scripted onTheWay initReaderSchema {ledger := some []} = true ∧
      scripted onTheWay initReaderSchema {ledger := some [],devices := some []} = true := by
  decide +kernel

theorem on_initReaderSchema (early : db = {ledger := some []} ∨
    db = {ledger := some [],devices := some []}) :
    Keeps sqlite (Way none) (Ended none) (migrate .initReaderSchema) {disk := db}
      fun _ => On none [.initReaderSchema] := by
  have way : Way none {disk := db} := .inl ⟨rfl,.inr early⟩
  have ran : scripted onTheWay initReaderSchema db = true := by
    rcases early with rfl | rfl
    · exact scripted_initReaderSchema.1
    · exact scripted_initReaderSchema.2
  refine keeps_look way ?_
  have unrecorded : ¬ (Connection.visible {disk := db}).recorded .initReaderSchema = true := by
    rcases early with rfl | rfl <;> decide
  rw [skipIf,if_neg unrecorded]
  refine Keeps.then (Q := fun _ c' => c'.pending = none ∧ initialised c'.disk = true) ?_
    fun _ c after => ?_
  · refine Keeps.then (Q := fun _ c' => c' = {disk := db}) ?_ fun _ c after => ?_
    · exact keeps_commit way way rfl
    · subst after
      exact keeps_scripted safe_onTheWay ran
  · obtain ⟨disk,pending⟩ := c
    obtain ⟨rfl,done⟩ := after
    obtain ⟨ready,ledger⟩ := ready_of_initialised done
    have stage : Stage none [] {disk} := ⟨ready,ready,ledger⟩
    exact on_record stage (by simp) (by decide) (List.nil_subset [])

theorem on_beginning (ready : Ready origin db) :
    Keeps sqlite (Way origin) (Ended origin)
      (execute (.createTableIfNotExists .migrations) >>= fun _ => commit >>= fun _ =>
        recordInitialised) {disk := db} fun _ => On origin [.initReaderSchema] := by
  have way : Way origin {disk := db} := .inr (.inl ready)
  refine Keeps.then (Q := fun _ c' => c'.pending = none ∧ ∃ files, Stage origin files c') ?_
    fun _ c after => ?_
  · cases held : db.ledger with
    | some files =>
      have ran : Statement.run db (.createTableIfNotExists .migrations) = .ok db := by
        simp [Statement.run,Database.has,held]
      exact keeps_execute (c := {disk := db}) ran way way ⟨rfl,files,ready,ready,held⟩
    | none =>
      have ran : Statement.run db (.createTableIfNotExists .migrations) =
          .ok {db with ledger := some []} := by
        simp [Statement.run,Database.has,held,Database.add]
      have unrecorded : ∀ migration, db.recorded migration = false := by
        simp [Database.recorded,held]
      have made : Ready origin {db with ledger := some []} := by
        refine {ready with applied := .inl ?_,pairing := fun second => ?_,approval := fun _ => ?_}
        · exact ready.applied.resolve_right (by simp [unrecorded])
        · simp [Database.recorded] at second
        · exact ready.approval (unrecorded _)
      exact keeps_execute (c := {disk := db}) ran way (.inr (.inl made))
        ⟨rfl,[],made,made,rfl⟩
  · obtain ⟨clear,files,stage⟩ := after
    refine (stage_commit stage).then fun _ c after => ?_
    obtain ⟨stage,-,clear⟩ := after
    refine keeps_look stage.way (stage_skipIf stage (fun skipped => ?_) fun needed => ?_)
    · refine ⟨files,stage,clear,fun file listed => ?_⟩
      obtain rfl := List.mem_singleton.mp listed
      refine (recorded_iff stage _).mp (skipped.elim (fun unversioned => ?_) id)
      exact stage.next.applied.resolve_left (by simp [unversioned])
    · refine on_record stage (fun old => needed (.inr ((recorded_iff stage _).mpr old)))
        (by decide) (List.nil_subset files)

theorem early_beginning (early : Early db) :
    Keeps sqlite (Way none) (Ended none)
      (execute (.createTableIfNotExists .migrations) >>= fun _ => commit >>= fun _ =>
        recordInitialised) {disk := db} fun _ c' => ∃ db', c' = {disk := db'} ∧
          (db' = {ledger := some []} ∨ db' = {ledger := some [],devices := some []}) := by
  have way : ∀ {db}, Early db → Way none {disk := db} := fun early => .inl ⟨rfl,early⟩
  obtain ⟨db',ran,next⟩ : ∃ db', Statement.run db (.createTableIfNotExists .migrations) = .ok db' ∧
      (db' = {ledger := some []} ∨ db' = {ledger := some [],devices := some []}) := by
    rcases early with rfl | rfl | rfl
    · exact ⟨_,rfl,.inl rfl⟩
    · exact ⟨_,rfl,.inl rfl⟩
    · exact ⟨_,rfl,.inr rfl⟩
  refine Keeps.then (Q := fun _ c' => c' = {disk := db'}) ?_ fun _ c after => ?_
  · exact keeps_execute (c := {disk := db}) ran (way early) (way (.inr next)) rfl
  subst after
  refine Keeps.then (Q := fun _ c' => c' = {disk := db'}) ?_ fun _ c after => ?_
  · exact keeps_commit (way (.inr next)) (way (.inr next)) rfl
  subst after
  refine keeps_look (way (.inr next)) ?_
  have unversioned : (Connection.visible {disk := db'}).versioned 1 = false := by
    rcases next with rfl | rfl <;> rfl
  rw [skipIf,if_pos (.inl unversioned)]
  exact keeps_pure (way (.inr next)) ⟨db',rfl,next⟩

end Beginning

section Starts

variable {origin : Option Outbox} {db : Database}

/-- What a start may find when no start before it left a migration halfway. -/
def Sound (origin : Option Outbox) (db : Database) : Prop :=
  (origin = none ∧ Early db) ∨ Ready origin db ∨ Converged origin db

theorem keeps_ensureSchema (sound : Sound origin db) :
    Keeps sqlite (Way origin) (Ended origin) ensureSchema {disk := db} fun _ => Steady origin := by
  have behind : ∀ c, On origin [.initReaderSchema] c →
      Keeps sqlite (Way origin) (Ended origin)
        (inTurn migrate [.pairingAndOutbox,.conversationSourceNullable,.accessTokens,
          .readerItems,.pairingApproval,.conversationOwner]) c fun _ => Progress origin := by
    intro c on
    refine (progress_pairingAndOutbox on).then fun _ c after => ?_
    exact keeps_inTurn (fun c => Progress.way)
      (fun migration _ c progress => progress_migrate migration progress) after
  rcases sound with ⟨rfl,early⟩ | ready | converged
  · refine (early_beginning early).then fun _ c after => ?_
    obtain ⟨db',rfl,made⟩ := after
    refine Keeps.then (Q := fun _ => Progress none) ?_ fun _ c after =>
      steady_of_healthCheck after
    exact (on_initReaderSchema made).then fun _ c on => behind c on
  · refine (on_beginning ready).then fun _ c on => ?_
    refine Keeps.then (Q := fun _ => Progress origin) ?_ fun _ c after =>
      steady_of_healthCheck after
    exact (on_recorded on).then fun _ c on => behind c on
  · exact Keeps.safe (steady_ensureSchema ⟨converged,converged⟩)

theorem safe_start (cut : Option Nat) (sound : Sound origin db) :
    Safe origin (start cut db) :=
  way_start (keeps_ensureSchema sound) cut

theorem converged_of_sound (sound : Sound origin db) : Converged origin (start none db) := by
  have ended := (keeps_ensureSchema sound).run
  unfold start
  split at ended
  · rename_i ran
    rw [ran]
    exact ended.2.1
  · rename_i ran
    rw [ran]
    exact ended.2

theorem sound_starts {cuts : List (Option Nat)} (sound : Sound origin db)
    (unbroken : Unbroken cuts db) : Sound origin (starts cuts db) := by
  induction cuts generalizing db with
  | nil => exact sound
  | cons cut rest ih =>
    refine ih ?_ unbroken.2
    rcases safe_start cut sound with early | ready | converged | halfway
    · exact .inl early
    · exact .inr (.inl ready)
    · exact .inr (.inr converged)
    · exact absurd halfway unbroken.1

theorem converged_starts (later : List (Option Nat)) (converged : Converged origin db) :
    Converged origin (starts later db) := by
  induction later generalizing db with
  | nil => exact converged
  | cons cut rest ih => exact ih (converged_start cut converged)

end Starts

/-- However many starts are cut off, and wherever, the first that is not converges and the
later ones keep what it made, unless one left a migration halfway. -/
theorem converged_of_unbroken {db : Database} (starting : Starting db)
    {cuts : List (Option Nat)} (unbroken : Unbroken cuts db) (later : List (Option Nat)) :
    Converged db.outbox (starts later (start none (starts cuts db))) := by
  have sound : Sound db.outbox db := by
    rcases starting with rfl | ready | converged
    · exact .inl ⟨rfl,.inl rfl⟩
    · exact .inr (.inl ready)
    · exact .inr (.inr converged)
  exact converged_starts later (converged_of_sound (sound_starts sound unbroken))

def skippedBody : Database where
  devices := some []
  conversations := some {}
  outbox := some (.legacy [⟨7,"note".toList,"n".toList,.create,"p".toList,5,none,0⟩])
  versions := some [1]
  ledger := some [.initReaderSchema,.pairingAndOutbox]
  pairing := some ["token_hash"]
  others := [.sessions]

theorem skippedBody_starting : Starting skippedBody := by
  refine .inr (.inl ⟨⟨_,rfl,fun device => ⟨device,rfl⟩⟩,rfl,.inl (by decide),rfl,rfl,by decide,
    by simp [Reserved,skippedBody],fun _ _ => rfl,fun _ columns held => ?_⟩)
  obtain rfl := Option.some.inj held
  decide

/-- Two starts are cut off in the middle of the loop and of the transformation. -/
theorem skippedBody_converged :
    Converged skippedBody.outbox
      (starts [] (start none (starts [some 12,some 45] skippedBody))) :=
  @converged_of_unbroken _ skippedBody_starting [some 12,some 45]
    ⟨by decide +kernel,by decide +kernel,trivial⟩ []

/-- A first start that is cut off behind the first index is followed by starts that raise. -/
theorem cutScript_not_converged :
    Starting {} ∧ ¬ Converged none (start none (start (some 9) {})) := by
  refine ⟨.inl rfl,?_⟩
  rintro ⟨rows,current,-⟩
  have absent : (start none (start (some 9) {})).outbox = none := by decide +kernel
  rw [absent] at current
  cases current

end LocalBook.Reader.Schema
