import LocalBook.Reader.Migrating

/-! What a start makes of a database whose outbox is the old one. -/
namespace LocalBook.Reader.Schema

open Effect

section Frames

variable {origin : Option Outbox} {db : Database}

theorem ready_others (ready : Ready origin db) (table : Table) :
    Ready origin {db with others := db.others ++ [table]} :=
  {ready with sessions := List.mem_append_left _ ready.sessions}

theorem ready_index (ready : Ready origin db) {name : String} {table : Table}
    (other : name ∉ outboxIndexes) :
    Ready origin {db with indexes := db.indexes ++ [(name,table)]} := by
  refine {ready with reserved := fun entry listed named => ?_}
  rcases List.mem_append.mp listed with old | new
  · exact ready.reserved entry old named
  · obtain rfl := List.mem_singleton.mp new
    exact absurd named other

theorem ready_indexes (ready : Ready origin db) {indexes : List (String × Table)}
    (reserved : Reserved indexes) : Ready origin {db with indexes} :=
  {ready with reserved}

theorem ready_version (ready : Ready origin db) {versions : List Nat} {version : Nat}
    (some_ : db.versions = some versions) :
    Ready origin {db with versions := some (if version ∈ versions then versions
      else versions ++ [version])} := by
  refine {ready with versions := rfl,applied := ready.applied.imp_left fun first => ?_}
  simp only [Database.versioned,some_,Option.any_some,decide_eq_true_eq] at first ⊢
  split
  · exact first
  · exact List.mem_append_left _ first

theorem ready_conversations (ready : Ready origin db) (table : Conversations)
    (new : Option Conversations) :
    Ready origin {db with conversations := some table,conversationsNew := new} :=
  {ready with conversations := rfl}

theorem ready_outboxNew (ready : Ready origin db) (new : Option (List Row)) :
    Ready origin {db with outboxNew := new} := {ready with}

theorem ready_pairing (ready : Ready origin db) {columns : List String}
    (approval : db.recorded .pairingApproval = false → "approved_at" ∉ columns) :
    Ready origin {db with pairing := some columns} := by
  refine {ready with pairing := fun _ _ => rfl,approval := fun sixth other same => ?_}
  obtain rfl := Option.some.inj same
  exact approval sixth

/-- A further migration is recorded, other than the second. -/
theorem ready_record (ready : Ready origin db) {files : List Migration} {migration : Migration}
    (ledger : db.ledger = some files) (other : migration ≠ .pairingAndOutbox) :
    Ready origin {db with ledger := some (files ++ [migration])} := by
  have less : ∀ file, db.recorded file = true →
      ({db with ledger := some (files ++ [migration])} : Database).recorded file = true := by
    intro file
    simp only [Database.recorded,ledger,Option.any_some,decide_eq_true_eq,List.mem_append]
    exact .inl
  have unrecorded : ({db with ledger := some (files ++ [migration])} : Database).recorded
      .pairingApproval = false → db.recorded .pairingApproval = false := by
    intro new
    by_contra old
    rw [less _ (by simpa using old)] at new
    cases new
  refine {ready with applied := ready.applied.imp_right (less _),pairing := ?_,approval := ?_}
  · intro second sixth
    refine ready.pairing ?_ (unrecorded sixth)
    simp only [Database.recorded,ledger,Option.any_some,decide_eq_true_eq,List.mem_append,
      List.mem_singleton] at second ⊢
    exact second.resolve_right fun same => other same.symm
  · exact fun sixth => ready.approval (unrecorded sixth)

theorem reserved_unindex (reserved : Reserved db.indexes) (table : Table) :
    Reserved (db.unindex table).indexes :=
  fun entry listed => reserved entry (List.mem_of_mem_filter listed)

theorem reserved_reindex (reserved : Reserved db.indexes) {old : Table} (new : Table)
    (other : old ≠ .outbox) : Reserved (db.reindex old new).indexes := by
  intro entry listed named
  obtain ⟨source,found,rfl⟩ := List.mem_map.mp listed
  by_cases same : source.2 = old
  · rw [if_pos same] at named
    exact absurd ((reserved source found named).symm.trans same) other.symm
  · rw [if_neg same] at named ⊢
    exact reserved source found named

end Frames

section Stages

variable {origin : Option Outbox} {c : Connection} {s : Statement} {db' : Database}
  {files : List Migration}

abbrev Way (origin : Option Outbox) (c : Connection) : Prop := Safe origin c.disk

abbrev Ended (origin : Option Outbox) (c : Connection) : Prop := Converged origin c.disk

/-- The old outbox is still to be transformed, and these migrations are recorded. -/
structure Stage (origin : Option Outbox) (files : List Migration) (c : Connection) : Prop where
  disk : Ready origin c.disk
  next : Ready origin c.visible
  ledger : c.visible.ledger = some files

theorem Stage.way (stage : Stage origin files c) : Way origin c := .inr (.inl stage.disk)

theorem Stage.keep (stage : Stage origin files c) (ready : Ready origin db')
    (ledger : db'.ledger = some files) (opens : Bool) :
    Stage origin files (c.keep opens db') := by
  refine ⟨?_,by rwa [visible_keep],by rwa [visible_keep]⟩
  rcases disk_keep opens with same | same <;> rw [same]
  · exact stage.disk
  · exact ready

theorem stage_execute (stage : Stage origin files c) (ran : s.run c.visible = .ok db')
    (ready : Ready origin db') (ledger : db'.ledger = some files) :
    Keeps sqlite (Way origin) (Ended origin) (execute s) c fun _ c' =>
      Stage origin files c' ∧ c'.visible = db' :=
  keeps_execute ran stage.way (stage.keep ready ledger _).way
    ⟨stage.keep ready ledger _,visible_keep _⟩

theorem stage_step (stage : Stage origin files c) (ran : s.run c.visible = .ok db')
    (ready : Ready origin db') (ledger : db'.ledger = some files) :
    Keeps sqlite (Way origin) (Ended origin) (step s) c fun _ c' =>
      Stage origin files c' ∧ c'.visible = db' :=
  keeps_step ran stage.way (stage.keep ready ledger _).way
    ⟨stage.keep ready ledger _,visible_keep _⟩

theorem stage_commit (stage : Stage origin files c) :
    Keeps sqlite (Way origin) (Ended origin) commit c fun _ c' =>
      Stage origin files c' ∧ c'.visible = c.visible ∧ c'.pending = none :=
  keeps_commit stage.way (.inr (.inl stage.next)) ⟨⟨stage.next,stage.next,stage.ledger⟩,rfl,rfl⟩

theorem stage_skipIf {condition : Prop} [Decidable condition] {action : Action Unit}
    {Q : Unit → Connection → Prop} (stage : Stage origin files c)
    (skipped : condition → Q () c)
    (keeps : ¬ condition → Keeps sqlite (Way origin) (Ended origin) action c Q) :
    Keeps sqlite (Way origin) (Ended origin) (skipIf condition action) c Q := by
  unfold skipIf
  split
  · exact keeps_pure stage.way (skipped ‹_›)
  · exact keeps ‹_›

/-- `CREATE INDEX IF NOT EXISTS` on a table that is there. -/
theorem run_indexIfNotExists {db : Database} {name : String} {table : Table}
    (ready : Ready origin db) (there : db.has table = true) (other : name ∉ outboxIndexes) :
    ∃ db', Statement.run db (.createIndexIfNotExists name table) = .ok db' ∧
      Ready origin db' ∧ db'.ledger = db.ledger ∧ db'.has table = true ∧
      db'.versions = db.versions := by
  simp only [Statement.run,there,if_true]
  split
  · exact ⟨db,rfl,ready,rfl,there,rfl⟩
  · refine ⟨_,rfl,ready_index ready other,rfl,?_,rfl⟩
    cases table <;> exact there

theorem stage_stepIndex {name : String} {table : Table} (stage : Stage origin files c)
    (there : c.visible.has table = true) (other : name ∉ outboxIndexes) :
    Keeps sqlite (Way origin) (Ended origin) (step (.createIndexIfNotExists name table)) c
      fun _ c' => Stage origin files c' ∧ c'.visible.has table = true := by
  obtain ⟨db',ran,ready,ledger,has,-⟩ := run_indexIfNotExists stage.next there other
  refine (stage_step stage ran ready (ledger.trans stage.ledger)).imp fun _ c' after => ?_
  exact ⟨after.1,after.2 ▸ has⟩

theorem stage_executeIndex {name : String} {table : Table} (stage : Stage origin files c)
    (there : c.visible.has table = true) (other : name ∉ outboxIndexes) :
    Keeps sqlite (Way origin) (Ended origin) (execute (.createIndexIfNotExists name table)) c
      fun _ c' => Stage origin files c' ∧ c'.visible.has table = true := by
  obtain ⟨db',ran,ready,ledger,has,-⟩ := run_indexIfNotExists stage.next there other
  refine (stage_execute stage ran ready (ledger.trans stage.ledger)).imp fun _ c' after => ?_
  exact ⟨after.1,after.2 ▸ has⟩

theorem stage_stepVersion {version : Nat} (stage : Stage origin files c) :
    Keeps sqlite (Way origin) (Ended origin) (step (.insertOrIgnoreVersion version)) c
      fun _ c' => Stage origin files c' := by
  obtain ⟨versions,some_⟩ := Option.isSome_iff_exists.mp stage.next.versions
  have ran : Statement.run c.visible (.insertOrIgnoreVersion version) =
      .ok {c.visible with versions := some (if version ∈ versions then versions
        else versions ++ [version])} := by
    simp only [Statement.run,some_]
  exact (stage_step stage ran (ready_version stage.next some_) stage.ledger).imp
    fun _ c' after => after.1

/-- A table is made that counts by its name only. -/
theorem stage_stepTable {table : Table} (stage : Stage origin files c)
    (named : table = .accessTokens ∨ table = .items) :
    Keeps sqlite (Way origin) (Ended origin) (step (.createTableIfNotExists table)) c
      fun _ c' => Stage origin files c' ∧ c'.visible.has table = true := by
  by_cases there : c.visible.has table = true
  · have ran : Statement.run c.visible (.createTableIfNotExists table) = .ok c.visible := by
      simp only [Statement.run,there,if_true]
    refine (stage_step stage ran stage.next stage.ledger).imp fun _ c' after => ?_
    exact ⟨after.1,after.2 ▸ there⟩
  · have ran : Statement.run c.visible (.createTableIfNotExists table) =
        .ok {c.visible with others := c.visible.others ++ [table]} := by
      simp only [Statement.run,if_neg there]
      rcases named with rfl | rfl <;> rfl
    refine (stage_step stage ran (ready_others stage.next table) stage.ledger).imp
      fun _ c' after => ⟨after.1,?_⟩
    rw [after.2]
    rcases named with rfl | rfl <;> simp [Database.has]

theorem stage_accessTokens (stage : Stage origin files c) :
    Keeps sqlite (Way origin) (Ended origin) (executeScript readerAccessTokens) c
      fun _ => Stage origin files := by
  refine (stage_commit stage).then fun _ c after => ?_
  refine (stage_stepTable after.1 (.inl rfl)).then fun _ c after => ?_
  refine (stage_stepIndex after.1 after.2 (by decide)).then fun _ c after => ?_
  exact keeps_pure after.1.way after.1

theorem stage_items (stage : Stage origin files c) :
    Keeps sqlite (Way origin) (Ended origin) (executeScript readerItems) c
      fun _ => Stage origin files := by
  refine (stage_commit stage).then fun _ c after => ?_
  refine (stage_stepTable after.1 (.inr rfl)).then fun _ c after => ?_
  refine (stage_stepIndex after.1 after.2 (by decide)).then fun _ c after => ?_
  refine (stage_stepIndex after.1 after.2 (by decide)).then fun _ c after => ?_
  refine (stage_stepIndex after.1 after.2 (by decide)).then fun _ c after => ?_
  exact keeps_pure after.1.way after.1

theorem stage_addColumn {columns : List String} {column : String}
    (stage : Stage origin files c) (held : c.visible.pairing = some columns)
    (new : column ∉ columns) (other : column ≠ "approved_at") :
    Keeps sqlite (Way origin) (Ended origin) (execute (.addPairingColumn column)) c
      fun _ c' => Stage origin files c' ∧
        c'.visible.pairing = some (columns ++ [column]) := by
  have ran : Statement.run c.visible (.addPairingColumn column) =
      .ok {c.visible with pairing := some (columns ++ [column])} := by
    simp only [Statement.run,held,if_neg new]
  have ready := @ready_pairing _ _ stage.next (columns ++ [column]) fun sixth => by
    have old := stage.next.approval sixth columns held
    simp [old,other.symm]
  refine (stage_execute stage ran ready stage.ledger).imp fun _ c' after => ?_
  exact ⟨after.1,by rw [after.2]⟩

theorem stage_pairingTokens (stage : Stage origin files c) (clear : c.pending = none) :
    Keeps sqlite (Way origin) (Ended origin) ensurePairingTokens c
      fun _ c' => Stage origin files c' ∧ c'.pending = none := by
  refine keeps_look stage.way ?_
  cases held : c.visible.pairing with
  | none =>
    refine Keeps.then (Q := fun _ => Stage origin files) ?_ fun _ c after =>
      (stage_commit after).imp fun _ c' done => ⟨done.1,done.2.2⟩
    refine (stage_commit stage).then fun _ c after => ?_
    obtain ⟨stage,same,-⟩ := after
    have ran : Statement.run c.visible (.createTableIfNotExists .pairingTokens) =
        .ok (c.visible.add .pairingTokens) := by
      simp [Statement.run,Database.has,same,held]
    refine (stage_step stage ran (ready_pairing stage.next fun _ => by decide) stage.ledger).then
      fun _ c after => ?_
    have there : c.visible.has .pairingTokens = true := by
      rw [after.2]
      rfl
    refine (stage_stepIndex after.1 there (by decide)).then fun _ c after => ?_
    refine (stage_stepIndex after.1 after.2 (by decide)).then fun _ c after => ?_
    refine (stage_stepVersion after.1).then fun _ c after => ?_
    exact keeps_pure after.way after
  | some columns =>
    refine stage_skipIf stage (fun _ => ⟨stage,clear⟩) fun _ => ?_
    refine Keeps.then (Q := fun _ c' => Stage origin files c' ∧ ∃ now,
      c'.visible.pairing = some now ∧
        ("used_by_device_id" ∈ now ↔ "used_by_device_id" ∈ columns)) ?_ fun _ c after => ?_
    · refine stage_skipIf stage (fun _ => ⟨stage,columns,held,Iff.rfl⟩) fun new => ?_
      refine (stage_addColumn stage held new (by decide)).imp fun _ c' after => ?_
      exact ⟨after.1,_,after.2,by simp⟩
    · obtain ⟨stage,now,held,same⟩ := after
      refine Keeps.then (Q := fun _ => Stage origin files) ?_ fun _ c after =>
        (stage_commit after).imp fun _ c' done => ⟨done.1,done.2.2⟩
      refine stage_skipIf stage (fun _ => stage) fun new => ?_
      exact (stage_addColumn stage held (fun old => new (same.mp old)) (by decide)).imp
        fun _ c' after => after.1

/-- `CREATE INDEX` for each name, inside a transaction. -/
theorem inside_indexes {disk p : Database} {names : List String} (ready : Ready origin disk)
    (there : p.outbox.isSome = true) (fresh : ∀ entry ∈ p.indexes, entry.1 ∉ names)
    (distinct : names.Nodup) :
    Keeps sqlite (Way origin) (Ended origin)
      (inTurn (fun name => execute (.createIndex name .outbox)) names)
      {disk,pending := some p} fun _ c' => c' = {disk,pending := some {p with
        indexes := p.indexes ++ names.map fun name => (name,.outbox)}} := by
  induction names generalizing p with
  | nil => exact keeps_pure (.inr (.inl ready)) (by simp)
  | cons name rest ih =>
    have absent : p.hasIndex name = false := by
      rw [Database.hasIndex,List.any_eq_false]
      intro entry listed same
      exact fresh entry listed (by simp only [decide_eq_true_eq] at same; simp [same])
    have ran : Statement.run p (.createIndex name .outbox) =
        .ok {p with indexes := p.indexes ++ [(name,.outbox)]} := by
      have has : p.has .outbox = true := there
      simp only [Statement.run,absent,has,if_true,Bool.false_eq_true,if_false]
    refine Keeps.then (Q := fun _ c' => c' = {disk,pending := some {p with
      indexes := p.indexes ++ [(name,.outbox)]}}) ?_ fun _ c after => ?_
    · exact keeps_execute (c := {disk,pending := some p}) ran (.inr (.inl ready))
        (.inr (.inl ready)) rfl
    · subst after
      obtain ⟨unlike,others⟩ := List.nodup_cons.mp distinct
      refine (ih (p := {p with indexes := p.indexes ++ [(name,.outbox)]}) there ?_ others).imp
        fun _ c' after => ?_
      · intro entry listed later
        rcases List.mem_append.mp listed with old | new
        · exact fresh entry old (List.mem_cons_of_mem name later)
        · obtain rfl := List.mem_singleton.mp new
          exact unlike later
      · rw [after,List.map_cons,List.append_assoc,List.singleton_append]

/-- The device the old rows are given: the tables are as they were but for a placeholder. -/
theorem stage_defaultDevice {disk : Database} (ready : Ready origin disk) :
    Keeps sqlite (Way origin) (Ended origin) defaultDevice {disk} fun device c' =>
      c'.disk = disk ∧ ∃ devices, device ∈ devices ∧
        c'.visible = {disk with devices := some devices} := by
  refine keeps_look (.inr (.inl ready)) ?_
  obtain ⟨devices,some_⟩ := Option.isSome_iff_exists.mp ready.devices
  have held : (Connection.visible {disk}).devices = some devices := some_
  rw [held]
  cases devices with
  | cons device rest =>
    refine keeps_pure (.inr (.inl ready)) ⟨rfl,device :: rest,List.mem_cons_self,?_⟩
    rw [← some_]
    rfl
  | nil =>
    have ran : Statement.run disk (.insertPlaceholder placeholderDevice) =
        .ok {disk with devices := some [placeholderDevice]} := by
      simp [Statement.run,some_]
    refine Keeps.then (Q := fun _ c' => c'.disk = disk ∧
      c'.visible = {disk with devices := some [placeholderDevice]}) ?_ fun _ c after => ?_
    · exact keeps_execute (c := {disk}) ran (.inr (.inl ready)) (.inr (.inl ready)) ⟨rfl,rfl⟩
    · have way : Way origin c := by
        rw [Way,after.1]
        exact .inr (.inl ready)
      exact keeps_pure way ⟨after.1,_,List.mem_singleton_self _,after.2⟩

theorem inside_execute {disk p q : Database} (ready : Ready origin disk)
    (ran : s.run p = .ok q) :
    Keeps sqlite (Way origin) (Ended origin) (execute s) {disk,pending := some p}
      fun _ c' => c' = {disk,pending := some q} := by
  refine keeps_execute (c := {disk,pending := some p}) ran (.inr (.inl ready)) ?_ ?_
  · simp only [Connection.keep,Option.isSome_some,Bool.or_true,if_true]
    exact .inr (.inl ready)
  · simp only [Connection.keep,Option.isSome_some,Bool.or_true,if_true]

/-- The old outbox is replaced in one transaction. -/
theorem steady_transformOutbox {disk : Database} (ready : Ready origin disk) :
    Keeps sqlite (Way origin) (Ended origin) transformOutbox {disk} fun _ => Steady origin := by
  obtain ⟨old,legacy,target⟩ := ready.legacy
  -- The leftover of a start that was cut off goes first, and both statements are committed.
  have dropped : Ready origin ({disk with outboxNew := none}.unindex .outboxNew) :=
    ready_indexes (ready_outboxNew ready none) (reserved_unindex ready.reserved _)
  refine Keeps.then (Q := fun _ c' => c' =
    {disk := {disk with outboxNew := none}.unindex .outboxNew}) ?_ fun _ c after => ?_
  · exact keeps_execute (c := {disk}) rfl (.inr (.inl ready)) (.inr (.inl dropped)) rfl
  subst after
  have made := ready_outboxNew dropped (some [])
  refine Keeps.then (Q := fun _ c' => c' = {disk := {({disk with outboxNew := none} :
    Database).unindex .outboxNew with outboxNew := some []}}) ?_ fun _ c after => ?_
  · exact keeps_execute (c := {disk := _}) rfl (.inr (.inl dropped)) (.inr (.inl made)) rfl
  subst after
  refine (stage_defaultDevice made).then fun device c after => ?_
  obtain ⟨same,devices,member,visible⟩ := after
  have way : Way origin c := .inr (.inl (same ▸ made))
  -- From here on the statements are inside one transaction.
  have copied : Statement.run c.visible (.copyOutbox device) =
      .ok {c.visible with outboxNew := some (old.map (migrateRow device))} := by
    rw [visible]
    simp [Statement.run,Database.unindex,legacy,member]
  refine Keeps.then (Q := fun _ c' => c' = {disk := c.disk,pending := some {c.visible with
    outboxNew := some (old.map (migrateRow device))}}) ?_ fun _ c' after => ?_
  · exact keeps_execute copied way way rfl
  subst after
  have ready' : Ready origin c.disk := same ▸ made
  have there : c.visible.outbox = some (.legacy old) := by rw [visible]; exact legacy
  refine (inside_execute ready' (q := ({c.visible with
    outboxNew := some (old.map (migrateRow device)),outbox := none} : Database).unindex
      .outbox) (by simp [Statement.run,there])).then fun _ c' after => ?_
  subst after
  refine (inside_execute ready' (q := ({c.visible.unindex .outbox with
    outbox := some (.current (old.map (migrateRow device))),outboxNew := none} :
      Database).reindex .outboxNew .outbox)
    (by simp [Statement.run,Database.unindex])).then fun _ c' after => ?_
  subst after
  have reserved : Reserved c.visible.indexes := by rw [visible]; exact made.reserved
  refine (inside_indexes ready' rfl ?_ (by decide)).then fun _ c' after => ?_
  · intro entry listed named
    obtain ⟨source,found,rfl⟩ := List.mem_map.mp listed
    obtain ⟨kept,other⟩ := List.mem_filter.mp found
    have name : source.1 ∈ outboxIndexes := by
      split at named <;> exact named
    exact absurd (reserved source kept name) (by simpa using other)
  · subst after
    have converged : Converged origin ({(({c.visible.unindex .outbox with
        outbox := some (.current (old.map (migrateRow device))),outboxNew := none} :
        Database).reindex .outboxNew .outbox) with
          indexes := (({c.visible.unindex .outbox with
            outbox := some (.current (old.map (migrateRow device))),outboxNew := none} :
            Database).reindex .outboxNew .outbox).indexes ++
              outboxIndexes.map fun name => (name,.outbox)}) := by
      refine ⟨_,rfl,target device,fun name listed => ?_⟩
      exact List.mem_append_right _ (List.mem_map.mpr ⟨name,listed,rfl⟩)
    exact keeps_commit (.inr (.inl ready')) (.inr (.inr (.inl converged)))
      ⟨converged,converged⟩

/-- The second migration makes the old outbox the current one. -/
theorem steady_of_applyMigration002 (stage : Stage origin files c) (clear : c.pending = none) :
    Keeps sqlite (Way origin) (Ended origin) applyMigration002 c fun _ => Steady origin := by
  refine (stage_pairingTokens stage clear).then fun _ c after => ?_
  obtain ⟨stage,clear⟩ := after
  refine keeps_look stage.way ?_
  obtain ⟨old,legacy,-⟩ := stage.next.legacy
  rw [legacy]
  obtain ⟨disk,pending⟩ := c
  obtain rfl : pending = none := clear
  exact steady_transformOutbox stage.disk

end Stages

end LocalBook.Reader.Schema
