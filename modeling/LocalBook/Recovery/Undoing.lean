import LocalBook.Recovery.Reversal

/-! What an undo does to a committed job: it is whole exactly when every row can be
reversed, or not even the row that comes first. -/
namespace LocalBook.Recovery

open Effect Vault UndoLog

namespace Step

def audited : Step → Text
  | create path _ | update path _ _ => path
  | move source _ _ => source

theorem Undoable.short {v : VaultService} {d : Disk} {step : Step} (undoable : step.Undoable v d) :
    step.audited.length ≤ 4096 := by
  cases step with
  | create path data => exact short_path undoable.1.1
  | update path before after => exact short_path undoable.1.1
  | move source target data => exact short_path undoable.2.1

end Step

namespace Logged

theorem auditOf_row (jobId : Text) (seq : Nat) (logged : Logged) :
    UndoService.auditOf jobId seq (logged.row jobId) =
      appendAudit jobId seq logged.step.audited logged.step.operation.beforeHash := by
  cases logged with
  | mk number state step => cases step <;> rfl

variable [Host] {u : UndoService} {jobId : Text} {w : World} {logged : Logged}

theorem run_restoreOne (seq : Nat) (auditable : Auditable jobId w)
    (undoable : logged.step.Undoable u.vault w.disk) :
    run SysOp.step (u.restoreOne (logged.row jobId) jobId seq) w = (.ok (),{
      disk := logged.step.undone w.disk
      db := w.db.putRow
        (auditRow jobId seq logged.step.audited logged.step.operation.beforeHash)}) := by
  cases logged.step.restoreFile_outcome w.disk jobId logged.seq logged.state u with
  | refused unready reason ended => exact absurd undoable unready
  | done ready ended =>
    have file : run SysOp.step (liftM (u.restoreFile (logged.row jobId)) : Sys Unit) w =
        (.ok (),{w with disk := logged.step.undone w.disk}) := by
      rw [run_liftFs,Logged.row,ended]
    unfold UndoService.restoreOne
    rw [run_bind_ok SysOp.step file,auditOf_row]
    exact run_appendAudit seq _ ⟨auditable.named,auditable.known⟩ undoable.short

theorem run_restoreOne_refused (seq : Nat) (stuck : ¬ logged.step.Undoable u.vault w.disk) :
    ∃ reason, run SysOp.step (u.restoreOne (logged.row jobId) jobId seq) w =
      (.error reason,w) := by
  cases logged.step.restoreFile_outcome w.disk jobId logged.seq logged.state u with
  | done ready ended => exact absurd ready stuck
  | refused unready reason ended =>
    refine ⟨reason,run_bind_error SysOp.step ?_⟩
    rw [run_liftFs,Logged.row,ended]

end Logged

/-- The loop of `undo` reverses rows until one cannot be. -/
theorem run_restoreAll [Host] {u : UndoService} {jobId : Text} (log : List Logged) (seq : Nat)
    (restored : List Text) (w : World) (auditable : Auditable jobId w) :
    ∃ stop w', Reversal u.vault jobId log seq w stop w' ∧
      ∃ result, run SysOp.step (u.restoreAll jobId (log.map (Logged.row jobId)) seq restored) w =
          (result,w') ∧ (stop = none ↔ ∃ names, result = .ok (names,none)) := by
  induction log generalizing seq restored w with
  | nil => exact ⟨none,w,.nil seq w,_,rfl,by simp⟩
  | cons first rest ih =>
    simp only [List.map_cons,UndoService.restoreAll]
    rw [run_andThen]
    by_cases can : first.step.Undoable u.vault w.disk
    · rw [Logged.run_restoreOne seq auditable can]
      obtain ⟨stop,w',reversal,result,ran,whole⟩ := ih (seq + 1)
        (restored ++ [first.step.path]) {
          disk := first.step.undone w.disk
          db := w.db.putRow (auditRow jobId seq first.step.audited
            first.step.operation.beforeHash)} ⟨auditable.named,auditable.known⟩
      exact ⟨stop,w',.cons can reversal,result,ran,whole⟩
    · obtain ⟨reason,refused⟩ := Logged.run_restoreOne_refused seq can
      rw [refused]
      refine ⟨some first,w,.stuck seq w can,?_⟩
      cases reason <;> exact ⟨_,rfl,by simp⟩

structure Journaled (jobId : Text) (log : List Logged) (w : World) : Prop where
  auditable : Auditable jobId w
  rows : (w.db.journal jobId).rows = log.map (Logged.row jobId)
  nonempty : log ≠ []
  separate : Separate log

def Undoes (jobId : Text) (log : List Logged) (ended : Except Exc RecoveryResult × World) : Prop :=
  ∃ result, ended.1 = .ok result ∧ result.jobId = jobId ∧ result.status = .undone ∧
    ∀ logged ∈ log, logged.image.Holds ended.2.disk.tree.get

def Declines (ended : Except Exc RecoveryResult) : Prop :=
  ∀ result, ended = .ok result → result.status ≠ .undone

section Undo

variable [Host] {u : UndoService} {jobId : Text} {log : List Logged} {w : World}

theorem run_undo (journaled : Journaled jobId log w) :
    run SysOp.step (u.undo jobId) w = run SysOp.step (do
      let outcome ← u.restoreAll jobId (log.reverse.map (Logged.row jobId))
        (nextSeq (log.map (Logged.row jobId))) []
      pure (UndoService.conclude jobId outcome)) w := by
  have executable : ((log.map (Logged.row jobId)).filter fun entry =>
      entry.operation.executable) = log.map (Logged.row jobId) := by
    refine List.filter_eq_self.mpr fun entry found => ?_
    obtain ⟨logged,_,rfl⟩ := List.mem_map.mp found
    exact logged.executable_row jobId
  have fresh : ((log.map (Logged.row jobId)).any fun entry => entry.operation = .undo) = false := by
    refine List.any_eq_false.mpr fun entry found => ?_
    obtain ⟨logged,_,rfl⟩ := List.mem_map.mp found
    have plain := logged.executable_row jobId
    intro undo
    simp only [decide_eq_true_eq] at undo
    simp [undo,JournalOperation.executable] at plain
  have some : log.map (Logged.row jobId) ≠ [] := by simpa using journaled.nonempty
  simp only [UndoService.undo,run_bind,History.run_journal,journaled.rows,if_neg some,fresh,
    Bool.false_eq_true,if_false,UndoService.undoEntries,executable,List.map_reverse]

theorem undo_reversal (journaled : Journaled jobId log w) :
    ∃ stop, Reversal u.vault jobId log.reverse (nextSeq (log.map (Logged.row jobId))) w stop
        (run SysOp.step (u.undo jobId) w).2 ∧
      (stop = none → ∃ result, (run SysOp.step (u.undo jobId) w).1 = .ok result ∧
        result.jobId = jobId ∧ result.status = .undone) ∧
      (stop ≠ none → Declines (run SysOp.step (u.undo jobId) w).1) := by
  obtain ⟨stop,w',reversal,result,ran,whole⟩ := run_restoreAll (u := u) log.reverse
    (nextSeq (log.map (Logged.row jobId))) [] w journaled.auditable
  rw [run_undo journaled,run_bind,ran]
  refine ⟨stop,?_,fun complete => ?_,fun stopped => ?_⟩
  · cases result <;> exact reversal
  · obtain ⟨names,rfl⟩ := whole.mp complete
    exact ⟨_,rfl,rfl,rfl⟩
  · cases result with
    | error reason => simp [Declines]
    | ok outcome =>
      obtain ⟨names,conflict⟩ := outcome
      cases conflict with
      | none => exact absurd (whole.mpr ⟨names,rfl⟩) stopped
      | some path => simp [Declines,UndoService.conclude]

theorem undo_undoes (journaled : Journaled jobId log w)
    (undoable : ∀ logged ∈ log, logged.step.Undoable u.vault w.disk)
    (intact : ∀ logged ∈ log, logged.step.Intact w.disk) :
    Undoes jobId log (run SysOp.step (u.undo jobId) w) := by
  have separate := separate_reverse journaled.separate
  obtain ⟨stop,reversal,complete,_⟩ := undo_reversal (u := u) journaled
  have whole : stop = none := (reversal.stop_iff separate).mpr fun logged found =>
    undoable logged (List.mem_reverse.mp found)
  obtain ⟨result,ended,same,status⟩ := complete whole
  have replays := (reversal.reversed separate whole).replays fun logged found =>
    intact logged (List.mem_reverse.mp found)
  have apart : (log.reverse.map Logged.image).Pairwise Image.Apart :=
    List.pairwise_map.mpr separate
  refine ⟨result,ended,same,status,fun logged found => ?_⟩
  exact replays.holds apart _ (List.mem_map_of_mem (List.mem_reverse.mpr found))

theorem undo_refused (journaled : Journaled jobId log w) {last : Logged}
    (isLast : log.getLast? = some last) (stuck : ¬ last.step.Undoable u.vault w.disk) :
    Declines (run SysOp.step (u.undo jobId) w).1 ∧ (run SysOp.step (u.undo jobId) w).2 = w := by
  obtain ⟨rest,reversed⟩ : ∃ rest, log.reverse = last :: rest := by
    rw [← List.head?_reverse] at isLast
    exact List.head?_eq_some_iff.mp isLast
  obtain ⟨stop,reversal,_,stopped⟩ := undo_reversal (u := u) journaled
  rw [reversed] at reversal
  generalize run SysOp.step (u.undo jobId) w = ended at *
  cases reversal with
  | stuck _ _ _ => exact ⟨stopped (by simp),rfl⟩
  | cons undoable _ => exact absurd undoable stuck

theorem undo_again {row : JournalEntry} (there : row ∈ (w.db.journal jobId).rows)
    (audit : row.operation = .undo) : Declines (run SysOp.step (u.undo jobId) w).1 := by
  have some : (w.db.journal jobId).rows ≠ [] := List.ne_nil_of_mem there
  have found : ((w.db.journal jobId).rows.any fun entry => entry.operation = .undo) = true :=
    List.any_eq_true.mpr ⟨row,there,by simpa using audit⟩
  unfold UndoService.undo
  rw [run_bind_ok SysOp.step (History.run_journal jobId),if_neg some,if_pos found]
  intro result same
  obtain rfl := Except.ok.inj same
  nofun

/-- The row that comes first is reversed and a later one cannot be: the job is not undone,
and its journal refuses every later undo. -/
theorem undo_torn (journaled : Journaled jobId log w) {last : Logged}
    (isLast : log.getLast? = some last) (first : last.step.Undoable u.vault w.disk)
    (stuck : ∃ logged ∈ log, ¬ logged.step.Undoable u.vault w.disk) :
    Declines (run SysOp.step (u.undo jobId) w).1 ∧
      ∀ d, Declines (run SysOp.step (u.undo jobId)
        {(run SysOp.step (u.undo jobId) w).2 with disk := d}).1 := by
  obtain ⟨rest,reversed⟩ : ∃ rest, log.reverse = last :: rest := by
    rw [← List.head?_reverse] at isLast
    exact List.head?_eq_some_iff.mp isLast
  obtain ⟨stop,reversal,_,stopped⟩ := undo_reversal (u := u) journaled
  have incomplete : stop ≠ none := by
    intro whole
    obtain ⟨logged,found,refused⟩ := stuck
    exact refused ((reversal.stop_iff (separate_reverse journaled.separate)).mp whole logged
      (List.mem_reverse.mpr found))
  rw [reversed] at reversal
  obtain ⟨row,there,audit⟩ := reversal.audited first
  exact ⟨stopped incomplete,fun d => undo_again there audit⟩

/-- An undo restores every path, or it changes no file and a later one, with the files as
the job left them, still restores every path. -/
def UndoneWhole (u : UndoService) (jobId : Text) (log : List Logged) (w : World) : Prop :=
  Undoes jobId log (run SysOp.step (u.undo jobId) w) ∨
    (Declines (run SysOp.step (u.undo jobId) w).1 ∧
      (run SysOp.step (u.undo jobId) w).2.disk = w.disk ∧
      ∀ d, (∀ logged ∈ log, logged.step.Undoable u.vault d ∧ logged.step.Intact d) →
        Undoes jobId log (run SysOp.step (u.undo jobId)
          {(run SysOp.step (u.undo jobId) w).2 with disk := d}))

omit [Host] in
structure Committed (u : UndoService) (jobId : Text) (log : List Logged) (w : World) : Prop where
  journaled : Journaled jobId log w
  files : ∀ logged ∈ log, logged.step.Undoable u.vault w.disk ∧ logged.step.Intact w.disk

omit [Host] in
theorem Journaled.edit (journaled : Journaled jobId log w) (d : Disk) :
    Journaled jobId log {w with disk := d} :=
  ⟨⟨journaled.auditable.named,journaled.auditable.known⟩,journaled.rows,journaled.nonempty,
    journaled.separate⟩

omit [Host] in
theorem Undoes.not_declines {ended : Except Exc RecoveryResult × World}
    (undoes : Undoes jobId log ended) : ¬ Declines ended.1 := by
  obtain ⟨result,same,_,status,_⟩ := undoes
  exact fun declines => declines result same status

/-- Whatever was changed after the commit, an undo is all or nothing and can be repeated
exactly when every row can be reversed, or the row that comes first cannot. -/
theorem undoneWhole_iff (committed : Committed u jobId log w) (d : Disk) :
    UndoneWhole u jobId log {w with disk := d} ↔
      (∀ logged ∈ log, logged.step.Undoable u.vault d ∧ logged.step.Intact d) ∨
        ∃ last, log.getLast? = some last ∧ ¬ last.step.Undoable u.vault d := by
  have journaled := committed.journaled.edit d
  constructor
  · intro undone
    by_contra neither
    rw [not_or] at neither
    obtain ⟨notAll,torn⟩ := neither
    obtain ⟨last,isLast⟩ : ∃ last, log.getLast? = some last :=
      ⟨log.getLast committed.journaled.nonempty,List.getLast?_eq_some_getLast _⟩
    have first : last.step.Undoable u.vault d := by
      by_contra refused
      exact torn ⟨last,isLast,refused⟩
    by_cases undoable : ∀ logged ∈ log, logged.step.Undoable u.vault d
    · obtain ⟨stop,reversal,complete,_⟩ := undo_reversal (u := u) journaled
      have separate := separate_reverse journaled.separate
      have whole : stop = none := (reversal.stop_iff separate).mpr fun logged found =>
        undoable logged (List.mem_reverse.mp found)
      rcases undone with restored | ⟨declines,_⟩
      · obtain ⟨_,_,_,_,holds⟩ := restored
        refine notAll fun logged found => ⟨undoable logged found,?_⟩
        exact reversal.intact_of_holds separate whole logged (List.mem_reverse.mpr found)
          (holds logged found)
      · obtain ⟨result,ended,_,status⟩ := complete whole
        exact declines result ended status
    · push Not at undoable
      obtain ⟨declines,again⟩ := undo_torn journaled isLast first undoable
      rcases undone with restored | ⟨_,_,retry⟩
      · exact restored.not_declines declines
      · exact (retry w.disk committed.files).not_declines (again w.disk)
  · rintro (whole | ⟨last,isLast,stuck⟩)
    · exact .inl (undo_undoes journaled (fun logged found => (whole logged found).1)
        fun logged found => (whole logged found).2)
    · obtain ⟨declines,same⟩ := undo_refused journaled isLast stuck
      refine .inr ⟨declines,by rw [same],fun later files => ?_⟩
      rw [same]
      exact undo_undoes (journaled.edit later) (fun logged found => (files logged found).1)
        fun logged found => (files logged found).2

end Undo

section TwoNotes

open scoped AsciiHost

def smallUndo : UndoService := ⟨⟨100,hundred_pos⟩⟩

def firstNote : Logged := ⟨0,.applied,.create "a.md".toList "one".toUTF8⟩

def secondNote : Logged := ⟨1,.applied,.create "b.md".toList "two".toUTF8⟩

def twoNotes : World where
  disk := (Disk.bare.setTree ["a.md".toList] (some (.file "one".toUTF8))).setTree
    ["b.md".toList] (some (.file "two".toUTF8))
  db := ((Db.empty.save {jobId := "j".toList,status := .committed}).putRow
    (firstNote.row "j".toList)).putRow (secondNote.row "j".toList)

theorem twoNotes_undoneWhole :
    UndoneWhole smallUndo "j".toList [firstNote,secondNote] {twoNotes with disk := twoNotes.disk} ↔
      (∀ logged ∈ [firstNote,secondNote], logged.step.Undoable smallUndo.vault twoNotes.disk ∧
        logged.step.Intact twoNotes.disk) ∨
        ∃ last, [firstNote,secondNote].getLast? = some last ∧
          ¬ last.step.Undoable smallUndo.vault twoNotes.disk := by
  have first : firstNote.step.Undoable smallUndo.vault twoNotes.disk :=
    ⟨eval_readBytes_holding.mp ⟨"one".toUTF8,by decide +kernel⟩,trivial⟩
  have second : secondNote.step.Undoable smallUndo.vault twoNotes.disk :=
    ⟨eval_readBytes_holding.mp ⟨"two".toUTF8,by decide +kernel⟩,trivial⟩
  have apart : firstNote.step.Apart secondNote.step := by
    unfold Step.Apart UndoLog.Image.Apart
    decide +kernel
  refine undoneWhole_iff ⟨⟨⟨by decide,by decide⟩,by decide +kernel,by simp,by simpa using apart⟩,
    fun logged found => ?_⟩ twoNotes.disk
  rcases List.mem_cons.mp found with rfl | found
  · exact ⟨first,trivial⟩
  · obtain rfl := List.mem_singleton.mp found
    exact ⟨second,trivial⟩

/-- The first note was edited after the commit: the second one is deleted before that is
noticed, and the undo raises. -/
theorem edited_not_undoneWhole :
    ¬ UndoneWhole smallUndo "j".toList [firstNote,secondNote] {twoNotes with
      disk := twoNotes.disk.setTree ["a.md".toList] (some (.file "mine".toUTF8))} := by
  intro undone
  rcases undone with ⟨result,ended,_,status,_⟩ | ⟨_,same,_⟩
  · have conflict : ((run SysOp.step (smallUndo.undo "j".toList) {twoNotes with
        disk := twoNotes.disk.setTree ["a.md".toList] (some (.file "mine".toUTF8))}).1.map
          RecoveryResult.status).toOption = some .conflict := by decide +kernel
    rw [ended] at conflict
    simp [Except.map,Except.toOption,status] at conflict
  · have gone : (run SysOp.step (smallUndo.undo "j".toList) {twoNotes with
        disk := twoNotes.disk.setTree ["a.md".toList] (some (.file "mine".toUTF8))}).2.disk.tree.get
          ["b.md".toList] = none := by decide +kernel
    rw [same] at gone
    exact absurd gone (by decide +kernel)

end TwoNotes

end LocalBook.Recovery
