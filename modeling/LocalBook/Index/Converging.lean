import LocalBook.Index.Startup
import LocalBook.Vault.Watching

/-! The index behind the watcher: files change, the watcher keeps and hands on their events,
and the index buffers those again before it looks at the files. A path whose rows are not
current is one that some waiting event still names. -/
namespace LocalBook.Index

open Vault (RawEvent VaultEvent VaultWatcher WatchRoot EventKind)

/-- The files of the Vault, the watcher, how many of the events it handed on the index has
handled, and the index. -/
structure IndexWorld where
  files : Text → Option Bytes
  watcher : VaultWatcher := {}
  delivered : Nat := 0
  index : DerivedIndex := {}

def unlisted (files : Text → Option Bytes) : VaultFiles where
  listing := none
  read := files
  distinct _ listed := nomatch listed

@[simp] theorem unlisted_read (files : Text → Option Bytes) (path : Text) :
    (unlisted files).read path = files path := rfl

/-- A change of a file, which the observer reports, or a turn of the watcher or the index. -/
inductive WorldStep where
  | change (path : Text) (data : Option Bytes) (raw : RawEvent) (now : Int)
  | rename (oldPath newPath : Text) (raw : RawEvent) (now : Int)
  | tick (now : Int)
  | flushWatcher
  | deliver
  | timer (path : Text)
  | flushIndex

def moved (files : Text → Option Bytes) (oldPath newPath : Text) : Text → Option Bytes :=
  Function.update (Function.update files newPath (files oldPath)) oldPath none

structure Watch where
  root : WatchRoot
  debounce : Int

namespace WorldStep

variable [Host] (settings : IndexSettings) (watch : Watch)

def apply (w : IndexWorld) : WorldStep → IndexWorld
  | .change path data raw now =>
    {w with
      files := Function.update w.files path data,
      watcher := w.watcher.step watch.root watch.debounce (.raw raw now)}
  | .rename oldPath newPath raw now =>
    {w with
      files := moved w.files oldPath newPath,
      watcher := w.watcher.step watch.root watch.debounce (.raw raw now)}
  | .tick now => {w with watcher := w.watcher.step watch.root watch.debounce (.tick now)}
  | .flushWatcher => {w with watcher := w.watcher.step watch.root watch.debounce .flush}
  | .deliver =>
    match w.watcher.handed[w.delivered]? with
    | none => w
    | some event =>
      {w with
        delivered := w.delivered + 1,
        index := handleEvent settings (unlisted w.files) w.index event}
  | .timer path => {w with index := flushEvent settings (unlisted w.files) w.index path}
  | .flushIndex => {w with index := flushEvents settings (unlisted w.files) w.index}

def run (steps : List WorldStep) (w : IndexWorld) : IndexWorld :=
  steps.foldl (apply settings watch) w

end WorldStep

def NoteRows.content (rows : NoteRows) : NoteRows := {rows with links := [],backlinks := []}

section Current

variable [Host] {settings : IndexSettings} {met : Bytes → Prop} {d : DerivedIndex}
  {files : Text → Option Bytes} {path other : Text}

def targetRows (settings : IndexSettings) (files : Text → Option Bytes) (path : Text) : NoteRows :=
  if markdownFile path then readRows settings (unlisted files) {} path else {}

def Fresh (settings : IndexSettings) (files : Text → Option Bytes) (t : Tables) (path : Text) :
    Prop := (t.rowsOf path).content = (targetRows settings files path).content

theorem content_writtenRows {fts : Bool} (names names' : Basenames) (data : Bytes) :
    (writtenRows fts path (entryOf settings names path data)).content =
      (writtenRows fts path (entryOf settings names' path data)).content := by
  rw [entryOf,entryOf]
  cases decodeUtf8 data with
  | none => rfl
  | some text => rfl

theorem not_markdownFile_nil : ¬ markdownFile [] = true := by
  have folded : Host.casefold [] = [] := Host.casefold_ascii [] rfl
  rw [markdownFile,folded]
  decide

structure Sound (settings : IndexSettings) (met : Bytes → Prop) (t : Tables) : Prop where
  stored : Stored settings (· = settings.noteTextCap) met t
  derived : Derived settings.ftsAvailable t
  markdown : ∀ path, ¬ markdownFile path = true → t.rowsOf path = {}

theorem Sound.fresh_of_other {t : Tables} (sound : Sound settings met t)
    (plain : ¬ markdownFile path = true) : Fresh settings files t path := by
  rw [Fresh,sound.markdown path plain,targetRows,if_neg plain]

theorem rowsOf_applyDelete (sound : Sound settings met d.tables) :
    (applyDelete settings d path).tables.rowsOf other =
      if other = path then {} else d.tables.rowsOf other := by
  rw [applyDelete]
  by_cases empty : path = []
  · rw [if_pos empty]
    split
    · rename_i same
      rw [same,empty,sound.markdown [] not_markdownFile_nil]
    · rfl
  · rw [if_neg empty]
    dsimp only
    split
    · exact rowsOf_deleteNoteRows sound.derived.mirrors
    · rename_i missing
      split
      · rename_i same
        refine same ▸ rowsOf_absent sound.derived.mirrors sound.derived.owned fun there => ?_
        obtain ⟨row,found,named⟩ := List.mem_map.mp there
        exact missing (List.find?_isSome.mpr ⟨row,found,decide_eq_true named⟩)
      · rfl

theorem Sound.applyDelete (sound : Sound settings met d.tables) (path : Text) :
    Sound settings met (applyDelete settings d path).tables := by
  refine ⟨@stored_applyDelete _ settings _ met d settings.noteTextCap sound.stored sound.derived
    path,derived_applyDelete sound.derived path,fun other plain => ?_⟩
  rw [rowsOf_applyDelete sound]
  split
  · rfl
  · exact sound.markdown other plain

theorem rowsOf_applyCreate (sound : Sound settings met d.tables) (apart : other ≠ path) :
    (applyCreate settings (unlisted files) d path).tables.rowsOf other =
      d.tables.rowsOf other := by
  rw [applyCreate]
  split
  · rfl
  split
  · rfl
  split
  · rfl
  split
  · rfl
  rename_i data _ _
  obtain ⟨t,upserted⟩ := @upsert_succeeds _ _ path _ sound.derived settings
    (d.names.refresh path) data
  dsimp only
  rw [upserted,Option.getD_some,rowsOf_upsert sound.derived upserted,if_neg apart]

theorem applyCreate_unread (unread : files path = none) :
    (applyCreate settings (unlisted files) d path).tables = d.tables := by
  rw [applyCreate]
  split
  · rfl
  split
  · rfl
  rw [unlisted_read,unread]

theorem Sound.applyCreate (sound : Sound settings met d.tables)
    (meets : (unlisted files).Meets met) (path : Text) :
    Sound settings met (applyCreate settings (unlisted files) d path).tables := by
  refine ⟨@stored_applyCreate _ settings (· = settings.noteTextCap) met d _ settings.noteTextCap
    rfl sound.stored sound.derived meets path,derived_applyCreate sound.derived path,fun other plain => ?_⟩
  by_cases same : other = path
  · subst same
    have kept : (Index.applyCreate settings (unlisted files) d other).tables = d.tables := by
      rw [Index.applyCreate]
      split
      · rfl
      · rfl
    rw [kept,sound.markdown other plain]
  · rw [rowsOf_applyCreate sound same,sound.markdown other plain]

theorem fresh_applyCreate (free : ∀ a b, met a → met b → sha256Bytes a = sha256Bytes b → a = b)
    (sound : Sound settings met d.tables) (meets : (unlisted files).Meets met) {data : Bytes}
    (read : files path = some data) :
    Fresh settings files (applyCreate settings (unlisted files) d path).tables path := by
  by_cases plain : ¬ markdownFile path = true
  · exact (sound.applyCreate meets path).fresh_of_other plain
  have named : path ≠ [] := fun empty => plain (empty ▸ not_markdownFile_nil)
  have read' : (unlisted files).read path = some data := read
  rw [Fresh,targetRows,if_pos (not_not.mp plain),readRows,read',applyCreate,if_neg named,
    if_neg plain]
  dsimp only
  rw [read']
  dsimp only
  split
  · rename_i known
    obtain ⟨row,present,digest⟩ := Option.map_eq_some_iff.mp known
    have there := List.mem_of_find?_eq_some present
    obtain rfl : row.path = path := by simpa using List.find?_some present
    obtain ⟨_,names,data',rfl,before,rows⟩ :=
      (sound.stored row.path).resolve_left (rowsOf_ne there)
    have same : data' = data := free _ _ before (meets _ _ read)
      ((sha256_rowsOf there rows).symm.trans digest)
    rw [rows,same]
    exact content_writtenRows _ _ data
  · obtain ⟨t,upserted⟩ := @upsert_succeeds _ _ path _ sound.derived settings
      (d.names.refresh path) data
    dsimp only
    rw [upserted,Option.getD_some,rowsOf_upsert sound.derived upserted,if_pos rfl]
    exact content_writtenRows _ _ data

theorem fresh_of_gone {t : Tables} (gone : t.rowsOf path = {}) (unread : files path = none) :
    Fresh settings files t path := by
  rw [Fresh,gone,targetRows,readRows,unlisted_read,unread]
  split
  · rfl
  · rfl

theorem fresh_syncEvent (free : ∀ a b, met a → met b → sha256Bytes a = sha256Bytes b → a = b)
    (sound : Sound settings met d.tables) (meets : (unlisted files).Meets met) :
    Fresh settings files (syncEvent settings (unlisted files) d path).tables path := by
  rw [syncEvent]
  cases read : files path with
  | none =>
    rw [if_neg (by simp [read])]
    exact fresh_of_gone (by rw [rowsOf_applyDelete sound,if_pos rfl]) read
  | some data =>
    rw [if_pos (by simp [read])]
    exact fresh_applyCreate free sound meets read

theorem rowsOf_syncEvent (sound : Sound settings met d.tables) (apart : other ≠ path) :
    (syncEvent settings (unlisted files) d path).tables.rowsOf other = d.tables.rowsOf other := by
  rw [syncEvent]
  split
  · exact rowsOf_applyCreate sound apart
  · rw [rowsOf_applyDelete sound,if_neg apart]

theorem Sound.syncEvent (sound : Sound settings met d.tables)
    (meets : (unlisted files).Meets met) (path : Text) :
    Sound settings met (syncEvent settings (unlisted files) d path).tables := by
  rw [Index.syncEvent]
  split
  · exact sound.applyCreate meets path
  · exact sound.applyDelete path

end Current

section Pending

variable [Host] (settings : IndexSettings) (files : VaultFiles) (d : DerivedIndex) (path : Text)

theorem pending_applyCreate : (applyCreate settings files d path).pending = d.pending := by
  unfold applyCreate
  repeat' split
  all_goals rfl

theorem pending_applyDelete : (applyDelete settings d path).pending = d.pending := by
  unfold applyDelete
  split
  · rfl
  · rfl

theorem pending_syncEvent : (syncEvent settings files d path).pending = d.pending := by
  unfold syncEvent
  split
  · exact pending_applyCreate settings files d path
  · exact pending_applyDelete settings d path

end Pending

def Named (w : IndexWorld) (mark : Nat) (path : Text) : Prop :=
  path ∈ w.index.pending ∨ ∃ key : EventKind × List Text, path ∈ key.2 ∧
    VaultWatcher.Waiting mark key w.watcher

/-- A move may be applied: its old path holds no file that the index would store, its new
path is readable or not stored, or else another event still names them. -/
def MoveSafe [Host] (w : IndexWorld) (oldPath newPath : Text) : Prop :=
  (oldPath = newPath ∨ w.files oldPath = none ∨ ¬ markdownFile oldPath = true ∨
    Named w (w.delivered + 1) oldPath) ∧
  ((w.files newPath).isSome ∨ w.index.tables.rowsOf newPath = {} ∨
    Named w (w.delivered + 1) newPath)

/-- What a step asks of the world it finds: a visible change has its event, and a move that
the index handles may be applied. -/
def WorldStep.Conforms [Host] (watch : Watch) (met : Bytes → Prop) (w : IndexWorld) :
    WorldStep → Prop
  | .change path data raw _ => (∃ event, Vault.emit watch.root raw = some event ∧
      event.paths = [path]) ∧ ∀ bytes, data = some bytes → met bytes
  | .rename oldPath newPath raw _ => ∃ isDirectory,
      Vault.emit watch.root raw = some (.moved oldPath newPath isDirectory)
  | .deliver => ∀ oldPath newPath isDirectory,
      w.watcher.handed[w.delivered]? = some (.moved oldPath newPath isDirectory) →
        MoveSafe w oldPath newPath
  | _ => True

def WorldStep.Conforming [Host] (settings : IndexSettings) (watch : Watch) (met : Bytes → Prop) :
    List WorldStep → IndexWorld → Prop
  | [],_ => True
  | s :: rest,w => s.Conforms watch met w ∧
      Conforming settings watch met rest (s.apply settings watch w)

structure Converging [Host] (settings : IndexSettings) (met : Bytes → Prop) (w : IndexWorld) :
    Prop where
  sound : Sound settings met w.index.tables
  keyed : VaultWatcher.Keyed w.watcher
  behind : w.delivered ≤ w.watcher.handed.length
  meets : (unlisted w.files).Meets met
  covered : ∀ path, Fresh settings w.files w.index.tables path ∨ Named w w.delivered path

section Steps

variable [Host] {settings : IndexSettings} {watch : Watch} {met : Bytes → Prop} {w : IndexWorld}

theorem named_watcher {path : Text} (converging : Converging settings met w)
    (named : Named w w.delivered path) (s : VaultWatcher.Step) :
    Named {w with watcher := w.watcher.step watch.root watch.debounce s} w.delivered path := by
  rcases named with pending | ⟨key,there,waiting⟩
  · exact .inl pending
  · exact .inr ⟨key,there,VaultWatcher.waiting_step converging.keyed converging.behind waiting s⟩

omit [Host] in
theorem named_raw {path : Text} {raw : RawEvent} {event : VaultEvent} (now : Int)
    (reported : Vault.emit watch.root raw = some event) (there : path ∈ event.paths) :
    Named {w with watcher := w.watcher.step watch.root watch.debounce (.raw raw now)}
      w.delivered path := by
  refine .inr ⟨event.key,there,?_⟩
  simp only [VaultWatcher.step,reported]
  exact .inl ⟨_,Dict.set_mem _ _ _,rfl⟩

theorem converging_watcher (converging : Converging settings met w) (s : VaultWatcher.Step) :
    Converging settings met {w with watcher := w.watcher.step watch.root watch.debounce s} :=
  ⟨converging.sound,VaultWatcher.keyed_step converging.keyed s,
    converging.behind.trans (VaultWatcher.handed_step w.watcher s).length_le,converging.meets,
    fun path => (converging.covered path).imp_right fun named =>
      named_watcher converging named s⟩

theorem fresh_of_same {files files' : Text → Option Bytes} {t : Tables} {path : Text}
    (same : files' path = files path) (fresh : Fresh settings files t path) :
    Fresh settings files' t path := by
  rw [Fresh,targetRows,readRows,unlisted_read] at fresh ⊢
  rw [same]
  exact fresh

theorem converging_files (converging : Converging settings met w) {raw : RawEvent}
    {event : VaultEvent} {files : Text → Option Bytes} (now : Int)
    (reported : Vault.emit watch.root raw = some event)
    (meets : (unlisted files).Meets met)
    (others : ∀ path, path ∉ event.paths → files path = w.files path) :
    Converging settings met {w with
      files,
      watcher := w.watcher.step watch.root watch.debounce (.raw raw now)} := by
  have later := @converging_watcher _ settings watch met w converging (.raw raw now)
  refine ⟨later.sound,later.keyed,later.behind,meets,fun path => ?_⟩
  by_cases there : path ∈ event.paths
  · exact .inr (named_raw (w := w) now reported there)
  · exact (later.covered path).imp_left fun fresh => fresh_of_same (others path there) fresh

theorem converging_flushEvent
    (free : ∀ a b, met a → met b → sha256Bytes a = sha256Bytes b → a = b)
    (converging : Converging settings met w) (path : Text) :
    Converging settings met
      {w with index := flushEvent settings (unlisted w.files) w.index path} := by
  rw [flushEvent]
  by_cases waits : path ∈ w.index.pending
  · rw [if_pos waits]
    have sound : Sound settings met {w.index with pending := w.index.pending.erase path}.tables :=
      converging.sound
    refine ⟨sound.syncEvent converging.meets path,converging.keyed,converging.behind,
      converging.meets,fun other => ?_⟩
    by_cases same : other = path
    · exact .inl (same ▸ fresh_syncEvent free sound converging.meets)
    · refine (converging.covered other).imp (fun fresh => ?_) fun named => ?_
      · rw [Fresh,rowsOf_syncEvent sound same]
        exact fresh
      · refine named.imp_left fun pending => ?_
        rw [pending_syncEvent]
        exact (List.mem_erase_of_ne same).mpr pending
  · rw [if_neg waits]
    exact converging

theorem converging_flushEvents
    (free : ∀ a b, met a → met b → sha256Bytes a = sha256Bytes b → a = b)
    (converging : Converging settings met w) :
    Converging settings met
      {w with index := flushEvents settings (unlisted w.files) w.index} := by
  have fold : ∀ (paths : List Text) (d : DerivedIndex),
      Converging settings met {w with index := d} →
        Converging settings met
          {w with index := paths.foldl (flushEvent settings (unlisted w.files)) d} := by
    intro paths
    induction paths with
    | nil => exact fun _ before => before
    | cons path rest ih => exact fun d before => ih _ (converging_flushEvent free before path)
  exact fold _ _ converging

omit [Host] in
theorem named_taken {event : VaultEvent} {path : Text}
    (next : w.watcher.handed[w.delivered]? = some event) (named : Named w w.delivered path) :
    path ∈ event.paths ∨ Named w (w.delivered + 1) path := by
  rcases named with pending | ⟨key,there,waiting | ⟨other,member,same⟩⟩
  · exact .inr (.inl pending)
  · exact .inr (.inr ⟨key,there,.inl waiting⟩)
  · obtain ⟨short,here⟩ := List.getElem?_eq_some_iff.mp next
    rw [List.drop_eq_getElem_cons short,here] at member
    rcases List.mem_cons.mp member with rfl | later
    · subst same
      exact .inl there
    · exact .inr (.inr ⟨key,there,.inr ⟨other,later,same⟩⟩)

theorem converging_buffer {event : VaultEvent} {path : Text}
    (converging : Converging settings met w)
    (next : w.watcher.handed[w.delivered]? = some event) (single : event.paths = [path]) :
    Converging settings met {w with
      delivered := w.delivered + 1,
      index := buffer w.index path} := by
  obtain ⟨short,-⟩ := List.getElem?_eq_some_iff.mp next
  have tables : (buffer w.index path).tables = w.index.tables := by
    rw [buffer]
    split
    · rfl
    · rfl
  refine ⟨?_,converging.keyed,short,converging.meets,fun other => ?_⟩
  · dsimp only
    rw [tables]
    exact converging.sound
  · dsimp only
    rw [tables]
    rcases converging.covered other with fresh | named
    · exact .inl fresh
    have grown : ∀ q ∈ w.index.pending, q ∈ (buffer w.index path).pending := by
      intro q found
      rw [buffer]
      split
      · exact found
      · exact List.mem_append_left _ found
    rcases named_taken next named with mine | later
    · obtain rfl : other = path := by simpa [single] using mine
      by_cases empty : other = []
      · exact .inl (converging.sound.fresh_of_other (empty ▸ not_markdownFile_nil))
      · refine .inr (.inl ?_)
        rw [buffer]
        split
        · rename_i skipped
          exact skipped.resolve_left empty
        · exact List.mem_append_right _ (List.mem_singleton.mpr rfl)
    · exact .inr (later.imp_left (grown other))

theorem converging_move
    (free : ∀ a b, met a → met b → sha256Bytes a = sha256Bytes b → a = b)
    (converging : Converging settings met w) {oldPath newPath : Text} {isDirectory : Bool}
    (next : w.watcher.handed[w.delivered]? = some (.moved oldPath newPath isDirectory))
    (safe : MoveSafe w oldPath newPath) :
    Converging settings met {w with
      delivered := w.delivered + 1,
      index := applyMove settings (unlisted w.files) w.index oldPath newPath} := by
  obtain ⟨short,-⟩ := List.getElem?_eq_some_iff.mp next
  obtain ⟨oldSafe,newSafe⟩ := safe
  have sound := converging.sound
  have dropped := sound.applyDelete oldPath
  have pending : (applyMove settings (unlisted w.files) w.index oldPath newPath).pending =
      w.index.pending :=
    (pending_applyCreate _ _ _ _).trans (pending_applyDelete _ _ _)
  have still : ∀ path, Named w (w.delivered + 1) path → Named {w with
      delivered := w.delivered + 1,
      index := applyMove settings (unlisted w.files) w.index oldPath newPath}
        (w.delivered + 1) path :=
    fun path named => named.imp_left fun found => pending.symm ▸ found
  refine ⟨dropped.applyCreate converging.meets newPath,converging.keyed,short,converging.meets,
    fun path => ?_⟩
  by_cases new : path = newPath
  · subst new
    cases read : w.files path with
    | some data => exact .inl (fresh_applyCreate free dropped converging.meets read)
    | none =>
      rcases newSafe with readable | absent | named
      · simp [read] at readable
      · refine .inl (fresh_of_gone ?_ read)
        rw [applyMove,applyCreate_unread read,rowsOf_applyDelete sound]
        split
        · rfl
        · exact absent
      · exact .inr (still path named)
  · have rows : (applyMove settings (unlisted w.files) w.index oldPath newPath).tables.rowsOf path =
        if path = oldPath then {} else w.index.tables.rowsOf path := by
      rw [applyMove,rowsOf_applyCreate dropped new,rowsOf_applyDelete sound]
    by_cases old : path = oldPath
    · subst old
      rw [if_pos rfl] at rows
      rcases oldSafe with same | unread | plain | named
      · exact absurd same new
      · exact .inl (fresh_of_gone rows unread)
      · exact .inl ((dropped.applyCreate converging.meets newPath).fresh_of_other plain)
      · exact .inr (still path named)
    · rw [if_neg old] at rows
      rcases converging.covered path with fresh | named
      · refine .inl ?_
        rw [Fresh,rows]
        exact fresh
      · rcases named_taken next named with mine | later
        · simp [VaultEvent.paths,old,new] at mine
        · exact .inr (still path later)

/-- What a step that conforms preserves. -/
theorem converging_apply
    (free : ∀ a b, met a → met b → sha256Bytes a = sha256Bytes b → a = b)
    (converging : Converging settings met w) {step : WorldStep}
    (conforms : step.Conforms watch met w) :
    Converging settings met (step.apply settings watch w) := by
  cases step with
  | change path data raw now =>
    obtain ⟨⟨event,reported,single⟩,written⟩ := conforms
    refine converging_files converging now reported (fun other bytes read => ?_)
      fun other missing => ?_
    · rw [unlisted_read,Function.update_apply] at read
      split at read
      · exact written bytes read
      · exact converging.meets other bytes read
    · rw [Function.update_of_ne fun same => missing (by simp [single,same])]
  | rename oldPath newPath raw now =>
    obtain ⟨isDirectory,reported⟩ := conforms
    refine converging_files converging now reported (fun other bytes read => ?_)
      fun other missing => ?_
    · rw [unlisted_read,moved,Function.update_apply,Function.update_apply] at read
      split at read
      · cases read
      · split at read
        · exact converging.meets oldPath bytes read
        · exact converging.meets other bytes read
    · simp only [VaultEvent.paths,List.mem_cons,List.not_mem_nil,or_false,not_or] at missing
      rw [moved,Function.update_of_ne missing.1,Function.update_of_ne missing.2]
  | tick now => exact converging_watcher converging _
  | flushWatcher => exact converging_watcher converging _
  | deliver =>
    rw [WorldStep.apply]
    cases next : w.watcher.handed[w.delivered]? with
    | none => exact converging
    | some event =>
      cases event with
      | created path isDirectory => exact converging_buffer converging next rfl
      | modified path isDirectory => exact converging_buffer converging next rfl
      | deleted path isDirectory => exact converging_buffer converging next rfl
      | moved oldPath newPath isDirectory =>
        exact converging_move free converging next (conforms oldPath newPath isDirectory next)
  | timer path => exact converging_flushEvent free converging path
  | flushIndex => exact converging_flushEvents free converging

theorem converging_run
    (free : ∀ a b, met a → met b → sha256Bytes a = sha256Bytes b → a = b)
    {steps : List WorldStep} (converging : Converging settings met w)
    (conforming : WorldStep.Conforming settings watch met steps w) :
    Converging settings met (WorldStep.run settings watch steps w) := by
  induction steps generalizing w with
  | nil => exact converging
  | cons step rest ih =>
    exact ih (converging_apply free converging conforming.1) conforming.2

end Steps

structure Lists (vault : VaultFiles) (files : Text → Option Bytes) : Prop where
  read : vault.read = files
  listed : ∃ listing, vault.listing = some listing ∧ ∀ path, files path ≠ none → path ∈ listing

/-- Nothing waits any more, neither in the watcher nor in the index. -/
structure Settled (w : IndexWorld) : Prop where
  watcher : w.watcher.pending = []
  delivered : w.delivered = w.watcher.handed.length
  index : w.index.pending = []

def start [Host] (settings : IndexSettings) (vault : VaultFiles) : IndexWorld where
  files := vault.read
  index := rebuild settings vault {}

section Convergence

variable [Host] {settings : IndexSettings} {watch : Watch} {met : Bytes → Prop}
  {vault : VaultFiles} {files : Text → Option Bytes} {d : DerivedIndex}

theorem fresh_rebuild (lists : Lists vault files)
    (derived : Derived settings.ftsAvailable d.tables) (path : Text) :
    Fresh settings files (rebuild settings vault d).tables path := by
  obtain ⟨listing,listed,all⟩ := lists.listed
  have distinct : (scanned listing).Nodup :=
    (List.perm_insertionSort _ _).nodup_iff.mpr (vault.distinct listing listed)
  obtain ⟨t,written,rows⟩ := @rebuildTables_rows _ settings vault
    (Basenames.ofFiles (scanned listing)) _ _ distinct derived
  have member : path ∈ (scanned listing).filter markdownFile ↔
      path ∈ listing ∧ markdownFile path = true := by
    rw [List.mem_filter,scanned,List.mem_insertionSort]
  rw [rebuild,listed]
  dsimp only
  rw [written,Option.getD_some,Fresh,rows,rebuiltRows,targetRows]
  by_cases markdown : markdownFile path = true
  · rw [if_pos markdown,readRows,readRows,unlisted_read,lists.read]
    cases read : files path with
    | none =>
      split
      · rfl
      · rfl
    | some data =>
      rw [if_pos (member.mpr ⟨all path (by simp [read]),markdown⟩)]
      exact content_writtenRows _ _ data
  · rw [if_neg markdown,if_neg fun found => markdown (member.mp found).2]

theorem sound_rebuild (meets : vault.Meets met) :
    Sound settings met (rebuild settings vault {}).tables := by
  have empty : Stored settings (· = settings.noteTextCap) met ({} : Tables) := fun _ => .inl rfl
  refine ⟨@stored_rebuild _ settings (· = settings.noteTextCap) met {} vault settings.noteTextCap
    rfl empty derived_empty meets,derived_rebuild derived_empty,fun path plain => ?_⟩
  rw [rebuild]
  split
  · rfl
  · rename_i listing listed
    have distinct : (scanned listing).Nodup :=
      (List.perm_insertionSort _ _).nodup_iff.mpr (vault.distinct listing listed)
    obtain ⟨t,written,rows⟩ := @rebuildTables_rows _ settings vault
      (Basenames.ofFiles (scanned listing)) _ {} distinct derived_empty
    dsimp only
    rw [written,Option.getD_some,rows,rebuiltRows,
      if_neg fun found => plain (List.mem_filter.mp found).2]

theorem converging_start (lists : Lists vault vault.read) (meets : vault.Meets met) :
    Converging settings met (start settings vault) :=
  ⟨sound_rebuild meets,by simp [start,VaultWatcher.Keyed],by simp [start],meets,
    fun path => .inl (fresh_rebuild lists derived_empty path)⟩

end Convergence

section Runs

open scoped AsciiHost

def plainWatch : Watch := ⟨Vault.plainRoot,200⟩

def noteAtA : VaultFiles where
  listing := some ["a.md".toList]
  read path := if path = "a.md".toList then some (encodeUtf8 "A".toList) else none
  distinct := onlyA_distinct

def aToB (now : Int) : WorldStep :=
  .rename "a.md".toList "b.md".toList
    (.moved "/v/a.md".toList "/v/b.md".toList false) now

def bToA (now : Int) : WorldStep :=
  .rename "b.md".toList "a.md".toList
    (.moved "/v/b.md".toList "/v/a.md".toList false) now

def movedOnce : List WorldStep := [aToB 0,.flushWatcher,.deliver,.flushIndex]

/-- The note is moved there, back and there again before its events are handed on. -/
def movedThrice : List WorldStep :=
  [aToB 0,bToA 1,aToB 2,.flushWatcher,.deliver,.deliver,.flushIndex]

def noteAtB (files : Text → Option Bytes) : VaultFiles where
  listing := some ["b.md".toList]
  read := files
  distinct paths listed := by
    obtain rfl := Option.some.inj listed
    decide

theorem movedOnce_conforming : WorldStep.Conforming oneLinkIndex plainWatch
    (fun data => data = encodeUtf8 "A".toList) movedOnce (start oneLinkIndex noteAtA) := by
  refine ⟨⟨false,by decide +kernel⟩,trivial,fun oldPath newPath isDirectory next => ?_,trivial,
    trivial⟩
  have handed : (WorldStep.run oneLinkIndex plainWatch [aToB 0,.flushWatcher]
      (start oneLinkIndex noteAtA)).watcher.handed[0]? =
        some (.moved "a.md".toList "b.md".toList false) := by decide +kernel
  obtain ⟨rfl,rfl,-⟩ : oldPath = "a.md".toList ∧ newPath = "b.md".toList ∧
      isDirectory = false := by
    have same := Option.some.inj (next.symm.trans handed)
    simpa using same
  exact ⟨.inr (.inl (by decide +kernel)),.inl (by decide +kernel)⟩

end Runs

end LocalBook.Index
