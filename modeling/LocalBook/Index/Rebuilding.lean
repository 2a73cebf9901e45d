import LocalBook.Index.Malformed
import LocalBook.Index.Sharing

/-! A rebuild that may fail anywhere. The rows are replaced in one transaction; what is reported
and the names by which links are resolved are not under it. -/
namespace LocalBook.Index.Rebuilding

open Sharing (Connection Outcome)

/-- `_build_state`. -/
inductive BuildState where
  | idle
  | ready
  | unavailable
deriving DecidableEq

structure Reported where
  buildState : BuildState := .idle
  buildError : Option Text := none
  lastBuiltAt : Option Int := none
  lastSkipped : Nat := 0
  lastFailed : Nat := 0

/-- `_set_unavailable`. -/
def Reported.setUnavailable (r : Reported) (message : Text) : Reported :=
  {r with buildState := .unavailable,buildError := some message,lastBuiltAt := none}

structure DerivedIndexService where
  db : Option (Connection Tables) := none
  names : Basenames := {}
  pending : List Text := []
  reported : Reported := {}

inductive Raised where
  | indexUnavailable
  | error
deriving DecidableEq

/-- What the calls of a rebuild come to: the files, the error code where they cannot be listed, the
tables of a database that can be opened, and what SQLite makes of the begin, of each statement, of
the commit and of the rollback. -/
structure Calls where
  files : VaultFiles
  code : Text
  opening : Option Tables
  begins : Outcome
  statement : Nat → Outcome
  commits : Outcome
  rollsBack : Outcome
  now : Int

/-- A statement of the transaction; none when a row breaks a key or the code before it raises. -/
abbrev Step := Tables → Option Tables

def addTags (rows : List TagRow) (t : Tables) : Tables := {t with tags := t.tags ++ rows}

def addProperties (rows : List PropertyRow) (t : Tables) : Tables :=
  {t with properties := t.properties ++ rows}

def addLinks (rows : List LinkRow) (t : Tables) : Tables := {t with links := t.links ++ rows}

/-- `cursor.lastrowid` after the note has been inserted. -/
def lastRowid (t : Tables) : Nat := ((t.notes.getLast?).map NoteRow.rowid).getD 0

section Service

variable [Host] (settings : IndexSettings) (runtime : YamlRuntime)

/-- The statements of `_insert_note_row`. A row that breaks a key is found at the first of them. -/
def insertStatements (path : Text) (entry : NoteIndexEntry) : List Step :=
  [fun t => if t.Conflicts settings.ftsAvailable path entry then none
    else some {t with notes := t.notes ++ [noteRow path entry (Tables.nextRowid t.notes)]}] ++
  ((tagRows path entry).map fun row t => some (addTags [row] t)) ++
  ((propertyRows path entry).map fun row t => some (addProperties [row] t)) ++
  ((linkRows path entry).map fun row t => some (addLinks [row] t)) ++
  if settings.ftsAvailable then
    [fun t => some {t with fts := t.fts ++ [ftsRow path entry (lastRowid t)]}] else []

/-- `_read_and_build_entry` of the bytes of a note; none when its frontmatter raises. -/
def builtEntry (names : Basenames) (path : Text) (data : Bytes) : Option NoteIndexEntry :=
  match decodeUtf8 data with
  | none => some (unreadableEntry path (sha256Bytes data))
  | some text => (parseFrontmatter runtime text).map fun result =>
      entryFromText (withFrontmatter settings fun _ => result) names path text (sha256Bytes data)

def noteStatements (files : VaultFiles) (names : Basenames) (path : Text) : List Step :=
  match files.read path with
  | none => []
  | some data =>
    match builtEntry settings runtime names path data with
    | none => [fun _ => none]
    | some entry => insertStatements settings path entry

/-- The statements between the begin and the commit of `rebuild`. -/
def rebuildStatements (files : VaultFiles) (listing : List Text) : List Step :=
  let paths := scanned listing
  [fun t => some {fts := t.fts}] ++
  (if settings.ftsAvailable then [fun t => some {t with fts := []},some] else []) ++
  (paths.filter markdownFile).flatMap
    (noteStatements settings runtime files (Basenames.ofFiles paths)) ++
  [fun t => some (t.insertBacklinks t.links)]

/-- The statements in order, with whether the last one was reached and done. -/
def perform (outcome : Nat → Outcome) : List Step → Nat → Connection Tables →
    Connection Tables × Bool
  | [],_,c => (c,true)
  | step :: rest,n,c =>
    match step c.view with
    | none => (c,false)
    | some content =>
      match c.execute (.statement fun _ => content) (outcome n) with
      | (c,true) => perform outcome rest (n + 1) c
      | (c,false) => (c,false)

/-- `transaction`, with whether it returns. -/
def transaction (calls : Calls) (body : List Step) (c : Connection Tables) :
    Connection Tables × Bool :=
  match c.execute .begin calls.begins with
  | (c,false) => (c,false)
  | (c,true) =>
    match perform calls.statement body 0 c with
    | (c,true) => c.execute .commit calls.commits
    | (c,false) => ((c.execute .rollback calls.rollsBack).1,false)

def skippedNotes (files : VaultFiles) (paths : List Text) : Nat :=
  (paths.filter markdownFile).countP fun path => (files.read path).isNone

def failedNotes (files : VaultFiles) (names : Basenames) (paths : List Text) : Nat :=
  (paths.filter markdownFile).countP fun path =>
    ((files.read path).bind (builtEntry settings runtime names path)).any fun entry =>
      entry.frontmatterStatus = .unreadable ∨ entry.diagnostic.isSome

def databaseUnavailable : Text := "Derived index database is unavailable".toList

namespace DerivedIndexService

def index (s : DerivedIndexService) : DerivedIndex := ⟨(s.db.map Connection.view).getD {},s.names,s.pending⟩

def setUnavailable (s : DerivedIndexService) (message : Text) : DerivedIndexService :=
  {s with reported := s.reported.setUnavailable message}

/-- `_open_database`. -/
def openDatabase (s : DerivedIndexService) (opening : Option Tables) : DerivedIndexService :=
  match s.db with
  | some _ => s
  | none =>
    match opening with
    | none => s.setUnavailable databaseUnavailable
    | some tables =>
      let r := s.reported
      {s with
        db := some ⟨tables,none⟩,
        reported := if r.buildState = .unavailable ∧ r.buildError.getD [] ≠ [] then
          {r with buildState := .idle,buildError := none} else r}

/-- `rebuild`, with what it raises. -/
def rebuild (calls : Calls) (s : DerivedIndexService) : DerivedIndexService × Option Raised :=
  let s := s.openDatabase calls.opening
  match s.db with
  | none => (s.setUnavailable databaseUnavailable,some .indexUnavailable)
  | some c =>
    match calls.files.listing with
    | none => (s.setUnavailable calls.code,some .indexUnavailable)
    | some listing =>
      let paths := scanned listing
      let names := Basenames.ofFiles paths
      let s := {s with names}
      match transaction calls (rebuildStatements settings runtime calls.files listing) c with
      | (c,false) => ({s with db := some c},some .error)
      | (c,true) =>
        ({s with
          db := some c,
          reported := {
            buildState := .ready,
            buildError := none,
            lastBuiltAt := some calls.now,
            lastSkipped := skippedNotes calls.files paths,
            lastFailed := failedNotes settings runtime calls.files names paths}},none)

end DerivedIndexService

end Service

def applyAll (body : List Step) (t : Tables) : Option Tables := body.foldlM (fun t step => step t) t

section Statements

theorem applyAll_append (a b : List Step) (t : Tables) :
    applyAll (a ++ b) t = (applyAll a t).bind (applyAll b) := List.foldlM_append

theorem applyAll_single (step : Step) (t : Tables) : applyAll [step] t = step t := by
  simp [applyAll]

theorem applyAll_rows {Row : Type} (add : List Row → Tables → Tables) (start : ∀ t,add [] t = t)
    (next : ∀ row rows t,add rows (add [row] t) = add (row :: rows) t) (rows : List Row)
    (t : Tables) : applyAll (rows.map fun row t => some (add [row] t)) t = some (add rows t) := by
  induction rows generalizing t with
  | nil => rw [start]; rfl
  | cons row rest ih =>
    rw [← next]
    exact ih _

variable [Host] {settings : IndexSettings} {runtime : YamlRuntime} {files : VaultFiles}
  {names : Basenames} {path : Text} {entry : NoteIndexEntry} {listing : List Text}

theorem applyAll_insertStatements (t : Tables) : applyAll (insertStatements settings path entry) t =
    t.insertNoteRow settings.ftsAvailable path entry := by
  rw [insertStatements,applyAll_append,applyAll_append,applyAll_append,applyAll_append,
    applyAll_single,Tables.insertNoteRow]
  split
  · rfl
  · rw [Option.bind_some,applyAll_rows addTags (by simp [addTags]) (by simp [addTags]),
      Option.bind_some,applyAll_rows addProperties (by simp [addProperties])
        (by simp [addProperties]),
      Option.bind_some,applyAll_rows addLinks (by simp [addLinks]) (by simp [addLinks]),
      Option.bind_some]
    cases settings.ftsAvailable with
    | false => rfl
    | true =>
      rw [if_pos rfl,applyAll_single]
      simp [addTags,addProperties,addLinks,lastRowid,noteRow]

theorem applyAll_noteStatements (t : Tables) :
    applyAll (noteStatements settings runtime files names path) t =
      rebuildNoteOrRaise settings runtime files names t path := by
  rw [noteStatements,rebuildNoteOrRaise]
  cases files.read path with
  | none => rfl
  | some data =>
    dsimp only
    rw [builtEntry]
    cases decodeUtf8 data with
    | none => exact applyAll_insertStatements t
    | some text =>
      dsimp only
      cases parseFrontmatter runtime text with
      | none => rfl
      | some result => exact applyAll_insertStatements t

theorem applyAll_flatMap (paths : List Text) (t : Tables) :
    applyAll (paths.flatMap (noteStatements settings runtime files names)) t =
      paths.foldlM (rebuildNoteOrRaise settings runtime files names) t := by
  induction paths generalizing t with
  | nil => rfl
  | cons path rest ih =>
    rw [List.flatMap_cons,applyAll_append,applyAll_noteStatements,List.foldlM_cons]
    exact congrArg _ (funext ih)

theorem applyAll_rebuildStatements (t : Tables) :
    applyAll (rebuildStatements settings runtime files listing) t =
      rebuildOrRaise settings runtime files listing t := by
  have cleared : (applyAll [fun t => some {fts := t.fts}] t).bind (applyAll
      (if settings.ftsAvailable then [fun t => some {t with fts := []},some] else [])) =
        some (t.cleared settings.ftsAvailable) := by
    rw [applyAll_single,Option.bind_some,Tables.cleared]
    cases settings.ftsAvailable with
    | false => rfl
    | true => rfl
  rw [rebuildStatements,applyAll_append,applyAll_append,applyAll_append,cleared,Option.bind_some,
    applyAll_flatMap,rebuildOrRaise,Option.map_eq_bind]
  exact congrArg _ (funext fun written => applyAll_single _ written)

end Statements

section Transaction

variable {body : List Step} {outcome : Nat → Outcome} {calls : Calls} {c : Connection Tables}
  {t : Tables}

theorem perform_committed (within : c.working = some t) (n : Nat) :
    (perform outcome body n c).1.committed = c.committed ∧
      ((perform outcome body n c).2 = true → ∃ t',(perform outcome body n c).1.working = some t') := by
  induction body generalizing c t n with
  | nil => exact ⟨rfl,fun _ => ⟨t,within⟩⟩
  | cons step rest ih =>
    rw [perform]
    cases step c.view with
    | none => exact ⟨rfl,fun impossible => by cases impossible⟩
    | some content =>
      dsimp only
      cases outcome n with
      | done =>
        rw [Connection.execute,within]
        exact ih rfl (n + 1)
      | failed => exact ⟨rfl,fun impossible => by cases impossible⟩
      | aborted => exact ⟨rfl,fun impossible => by cases impossible⟩

theorem transaction_failed (idle : c.working = none) (commits : calls.commits = .done)
    (rollsBack : calls.rollsBack = .done) (failed : (transaction calls body c).2 = false) :
    (transaction calls body c).1 = c := by
  obtain ⟨committed,working⟩ := c
  subst idle
  rw [transaction] at failed ⊢
  cases begun : calls.begins with
  | failed => rfl
  | aborted => rfl
  | done =>
    rw [begun] at failed
    simp only [Connection.execute] at failed ⊢
    obtain ⟨kept,inside⟩ := @perform_committed body calls.statement ⟨committed,some committed⟩ _
      rfl 0
    generalize perform calls.statement body 0 ⟨committed,some committed⟩ = performed
      at failed kept inside ⊢
    obtain ⟨after,finished⟩ := performed
    cases finished with
    | true =>
      obtain ⟨t',working⟩ := inside rfl
      dsimp only at working
      simp [commits,working] at failed
    | false =>
      dsimp only at kept ⊢
      rw [rollsBack,kept]

/-- When SQLite does everything, the statements have the effect they have on the content alone. -/
theorem perform_done {t' : Tables} (done : ∀ n,outcome n = .done) (within : c.working = some t)
    (applied : applyAll body t = some t') (n : Nat) :
    perform outcome body n c = ({c with working := some t'},true) := by
  induction body generalizing c t n with
  | nil =>
    obtain ⟨committed,working⟩ := c
    subst within
    obtain rfl := Option.some.inj applied
    rfl
  | cons step rest ih =>
    have view : c.view = t := by rw [Connection.view,within]; rfl
    rw [applyAll,List.foldlM_cons] at applied
    obtain ⟨content,stepped,later⟩ := Option.bind_eq_some_iff.mp applied
    rw [perform,view,stepped]
    simp only [Connection.execute,within,done]
    exact ih rfl later (n + 1)

theorem transaction_done {t' : Tables} (idle : c.working = none) (begins : calls.begins = .done)
    (done : ∀ n,calls.statement n = .done) (commits : calls.commits = .done)
    (applied : applyAll body c.committed = some t') :
    transaction calls body c = (⟨t',none⟩,true) := by
  obtain ⟨committed,working⟩ := c
  subst idle
  rw [transaction,begins]
  simp only [Connection.execute]
  rw [perform_done done rfl applied]
  simp only [commits]

end Transaction

section Failing

variable [Host] {settings : IndexSettings} {runtime : YamlRuntime} {calls : Calls}
  {s s' : DerivedIndexService} {c : Connection Tables} {listing : List Text} {raised : Raised}

omit [Host] in
theorem openDatabase_of_open (held : s.db = some c) (opening : Option Tables) :
    s.openDatabase opening = s := by
  simp only [DerivedIndexService.openDatabase,held]

omit [Host] in
theorem openDatabase_names (s : DerivedIndexService) (opening : Option Tables) :
    (s.openDatabase opening).names = s.names ∧ (s.openDatabase opening).pending = s.pending ∧
      (s.openDatabase opening).reported.lastSkipped = s.reported.lastSkipped ∧
      (s.openDatabase opening).reported.lastFailed = s.reported.lastFailed := by
  unfold DerivedIndexService.openDatabase
  cases s.db with
  | some c => exact ⟨rfl,rfl,rfl,rfl⟩
  | none =>
    cases opening with
    | none => exact ⟨rfl,rfl,rfl,rfl⟩
    | some tables =>
      dsimp only
      split
      · exact ⟨rfl,rfl,rfl,rfl⟩
      · exact ⟨rfl,rfl,rfl,rfl⟩

/-- What a rebuild that raises has done: it could not begin, or its transaction failed. -/
theorem rebuild_raised (failed : s.rebuild settings runtime calls = (s',some raised)) :
    (raised = .indexUnavailable ∧ ∃ message,
        s' = (s.openDatabase calls.opening).setUnavailable message) ∨
      (raised = .error ∧ ∃ c listing,(s.openDatabase calls.opening).db = some c ∧
        calls.files.listing = some listing ∧
        (transaction calls (rebuildStatements settings runtime calls.files listing) c).2 = false ∧
        s' = {s.openDatabase calls.opening with
          names := Basenames.ofFiles (scanned listing),
          db := some (transaction calls
            (rebuildStatements settings runtime calls.files listing) c).1}) := by
  rw [DerivedIndexService.rebuild] at failed
  dsimp only at failed
  split at failed
  · obtain ⟨rfl,same⟩ := Prod.mk.inj failed
    exact .inl ⟨(Option.some.inj same).symm,_,rfl⟩
  · next c held =>
    split at failed
    · obtain ⟨rfl,same⟩ := Prod.mk.inj failed
      exact .inl ⟨(Option.some.inj same).symm,_,rfl⟩
    · next listing listed =>
      split at failed
      · next c' ended =>
        obtain ⟨rfl,same⟩ := Prod.mk.inj failed
        exact .inr ⟨(Option.some.inj same).symm,c,listing,held,listed,by rw [ended],by rw [ended]⟩
      · obtain ⟨_,impossible⟩ := Prod.mk.inj failed
        cases impossible

/-- Nothing but SQLite and a note that is read and decoded but cannot be stored fails a rebuild:
what cannot be read or decoded does not. -/
theorem transaction_cause (idle : c.working = none)
    (derived : Derived settings.ftsAvailable c.committed)
    (listed : calls.files.listing = some listing)
    (failed : (transaction calls
      (rebuildStatements settings runtime calls.files listing) c).2 = false) :
    calls.begins ≠ .done ∨ (∃ n,calls.statement n ≠ .done) ∨ calls.commits ≠ .done ∨
      ∃ path ∈ listing,markdownFile path = true ∧ ¬Accepts runtime calls.files path := by
  by_contra fine
  push Not at fine
  obtain ⟨begins,done,commits,accepts⟩ := fine
  obtain ⟨rebuilt,ran,_⟩ := @rebuilt_of_accepts _ settings runtime calls.files c.committed listing
    (calls.files.distinct listing listed) derived fun path member => by
      rw [List.mem_filter,scanned,List.mem_insertionSort] at member
      exact accepts path member.1 member.2
  rw [← applyAll_rebuildStatements] at ran
  rw [transaction_done idle begins done commits ran] at failed
  cases failed

/-- A rebuild that raises before its transaction leaves the names, and the rows of an open
database, so that every later operation does what it would have done; it reports the index
unavailable. One that raises in its transaction leaves what is reported, and the rows unless the
commit or the rollback is what fails. -/
theorem rebuild_failed (settings : IndexSettings) (runtime : YamlRuntime) (calls : Calls)
    (s s' : DerivedIndexService) (raised : Raised) (idle : ∀ c ∈ s.db,c.working = none)
    (failed : s.rebuild settings runtime calls = (s',some raised)) :
    s'.pending = s.pending ∧
    (raised = .indexUnavailable → s'.names = s.names ∧
      s'.reported.buildState = .unavailable ∧ s'.reported.buildError.isSome ∧
      s'.reported.lastBuiltAt = none ∧ s'.reported.lastSkipped = s.reported.lastSkipped ∧
      s'.reported.lastFailed = s.reported.lastFailed ∧
      (s.db.isSome → s'.db = s.db ∧ ∀ steps,
        IndexStep.run settings steps s'.index = IndexStep.run settings steps s.index)) ∧
    (raised = .error → ∀ c,s.db = some c → s'.reported = s.reported ∧
      (calls.commits = .done → calls.rollsBack = .done → s'.db = s.db) ∧
      (Derived settings.ftsAvailable c.committed → calls.begins ≠ .done ∨
        (∃ n,calls.statement n ≠ .done) ∨ calls.commits ≠ .done ∨
        ∃ listing,calls.files.listing = some listing ∧
          ∃ path ∈ listing,markdownFile path = true ∧ ¬Accepts runtime calls.files path)) := by
  obtain ⟨names,pending,skipped,counted⟩ := openDatabase_names s calls.opening
  rcases rebuild_raised failed with ⟨rfl,message,rfl⟩ | ⟨rfl,c,listing,held,listed,ended,rfl⟩
  · refine ⟨pending,fun _ => ⟨names,rfl,rfl,rfl,skipped,counted,?_⟩,
      fun impossible => by cases impossible⟩
    intro there
    obtain ⟨c,held⟩ := Option.isSome_iff_exists.mp there
    rw [openDatabase_of_open held]
    exact ⟨rfl,fun _ => rfl⟩
  · refine ⟨pending,fun impossible => (by cases impossible),fun _ c' held' => ?_⟩
    rw [openDatabase_of_open held'] at held ⊢
    obtain rfl : c' = c := Option.some.inj (held'.symm.trans held)
    refine ⟨rfl,?_,?_⟩
    · intro commits rollsBack
      rw [held]
      exact congrArg some (transaction_failed (idle c' held) commits rollsBack ended)
    · intro derived
      rcases transaction_cause (idle c' held) derived listed ended with
        begins | statement | commits | ⟨path,member,refused⟩
      · exact .inl begins
      · exact .inr (.inl statement)
      · exact .inr (.inr (.inl commits))
      · exact .inr (.inr (.inr ⟨listing,listed,path,member,refused⟩))

end Failing

section Example

open scoped AsciiHost

theorem distinct_nothing : ∀ paths ∈ (none : Option (List Text)),paths.Nodup := by
  rintro paths impossible
  cases impossible

theorem distinct_empty : ∀ paths ∈ some ([] : List Text),paths.Nodup := by
  rintro paths listed
  rw [← Option.mem_some_iff.mp listed]
  exact List.nodup_nil

def unlisted : Calls where
  files := ⟨none,fun _ => none,distinct_nothing⟩
  code := "PATH_NOT_FOUND".toList
  opening := none
  begins := .done
  statement := fun _ => .done
  commits := .done
  rollsBack := .done
  now := 0

def undeleted : Calls :=
  {unlisted with files := ⟨some [],fun _ => none,distinct_empty⟩,statement := fun _ => .failed}

def readyService : DerivedIndexService where
  db := some ⟨{},none⟩
  reported := {buildState := .ready}

theorem readyService_idle : ∀ c ∈ readyService.db,c.working = none := by
  rintro c held
  rw [← Option.mem_some_iff.mp held]

theorem readyService_kept :
    (readyService.rebuild plainSettings loadsSet undeleted).1.db = readyService.db ∧
      (readyService.rebuild plainSettings loadsSet undeleted).1.reported = readyService.reported := by
  obtain ⟨_,_,inside⟩ := rebuild_failed plainSettings loadsSet undeleted readyService
    (readyService.rebuild plainSettings loadsSet undeleted).1 .error readyService_idle rfl
  obtain ⟨reported,rows,_⟩ := inside rfl _ rfl
  exact ⟨rows rfl rfl,reported⟩

/-- When the files cannot be listed, a ready index is reported unavailable. -/
theorem readyService_unavailable : ¬∀ (calls : Calls) (s s' : DerivedIndexService) (raised : Raised),
    (∀ c ∈ s.db,c.working = none) → s.rebuild plainSettings loadsSet calls = (s',some raised) →
      s'.db = s.db ∧ s'.names = s.names ∧ s'.reported = s.reported := by
  intro every
  obtain ⟨_,_,reported⟩ := every unlisted readyService _ .indexUnavailable readyService_idle rfl
  have states := congrArg Reported.buildState reported
  cases states

end Example

end LocalBook.Index.Rebuilding
