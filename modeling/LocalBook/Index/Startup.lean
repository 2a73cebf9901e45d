import LocalBook.Index.Rows

/-! Reuse at startup. Rows that fit the fingerprints of the files are those of a rebuild
exactly when their links still resolve as stored and their bodies are cut at the present cap. -/
namespace LocalBook.Index

/-- The tables hold the same rows of every path. -/
def SameRows (t t' : Tables) : Prop := ∀ path, t.rowsOf path = t'.rowsOf path

section Entries

variable [Host] {settings settings' : IndexSettings} {names names' : Basenames}
  {fts : Bool} {path text digest : Text}

def IndexSettings.withCap (settings : IndexSettings) (cap : Nat) : IndexSettings :=
  {settings with noteTextCap := cap}

def CutAt (cap : Nat) (row : NoteRow) : Prop :=
  if row.textTruncated then row.text.length = cap else row.text.length ≤ cap

omit [Host] in
theorem cut_iff (body : Text) (cap cap' : Nat) :
    (body.take cap = body.take cap' ∧ decide (cap < body.length) = decide (cap' < body.length)) ↔
      if decide (cap < body.length) then (body.take cap).length = cap'
      else (body.take cap).length ≤ cap' := by
  rw [List.length_take]
  by_cases short : cap < body.length
  · rw [if_pos (decide_eq_true short)]
    constructor
    · rintro ⟨same,long⟩
      have long' : cap' < body.length := by simpa [short] using long
      have lengths := congrArg List.length same
      rw [List.length_take,List.length_take] at lengths
      omega
    · intro same
      have : cap = cap' := by omega
      exact this ▸ ⟨rfl,rfl⟩
  · rw [if_neg (by simpa using short)]
    constructor
    · rintro ⟨-,long⟩
      have long' : ¬ cap' < body.length := by simpa [short] using long
      omega
    · intro fits
      rw [List.take_of_length_le (by omega),List.take_of_length_le (by omega)]
      exact ⟨rfl,by simp only [decide_eq_decide]; omega⟩

/-- Resolving a resolved link again over other names gives it back exactly when the link
resolves alike over both. -/
theorem resolveRef_again (ref : WikilinkRef) :
    resolveRef path names' (resolveRef path names ref) = resolveRef path names ref ↔
      resolveRef path names ref = resolveRef path names' ref := by
  unfold resolveRef
  by_cases web : ref.kind = .web
  · simp [web]
  by_cases anchor : Text.strip ref.target = []
  · by_cases inside : (ref.section_.isSome || ref.block.isSome) = true
    · simp [web,anchor,inside]
    · simp [web,anchor,inside]
  cases then_ : (linkCandidates names (Text.strip ref.target)).insertionSort byCasefold <;>
    cases now : (linkCandidates names' (Text.strip ref.target)).insertionSort byCasefold <;>
    simp [web,anchor,then_,now,eq_comm]

/-- The rows of one text differ only by its resolved links and the cut of its body. -/
theorem writtenRows_text_iff (cap : Nat) :
    writtenRows fts path (entryFromText (settings.withCap cap) names path text digest) =
        writtenRows fts path (entryFromText settings names' path text digest) ↔
      (∀ ref ∈ settings.parser.wikilinks text, resolveRef path names ref =
        resolveRef path names' ref) ∧
      ((settings.parser.body text).take (max 1 cap) =
          (settings.parser.body text).take (max 1 settings.noteTextCap) ∧
        decide (max 1 cap < (settings.parser.body text).length) =
          decide (max 1 settings.noteTextCap < (settings.parser.body text).length)) := by
  constructor
  · intro same
    have links := congrArg (fun rows => rows.links.map LinkRow.ref) same
    have notes := congrArg NoteRows.notes same
    simp only [writtenRows,linkRows,List.map_map,entryFromText] at links
    have refs : (LinkRow.ref ∘ fun row : WikilinkRef × Nat => (⟨path,row.2,row.1⟩ : LinkRow)) =
      Prod.fst := rfl
    rw [refs,List.zipIdx_map_fst,List.zipIdx_map_fst] at links
    simp only [writtenRows,noteRow,entryFromText,List.cons.injEq,NoteRow.mk.injEq] at notes
    exact ⟨List.map_inj_left.mp links,notes.1.2.2.2.2.2.1,notes.1.2.2.2.2.2.2.1⟩
  · rintro ⟨links,cut,long⟩
    have entries : entryFromText (settings.withCap cap) names path text digest =
        entryFromText settings names' path text digest := by
      rw [entryFromText,entryFromText,NoteIndexEntry.mk.injEq]
      refine ⟨rfl,rfl,?_,rfl,cut,long,rfl,rfl,rfl,rfl,rfl,List.map_inj_left.mpr links,?_,rfl⟩
      · exact congrArg (fun body => settings.parser.title body _) cut
      · exact congrArg (fun body => Host.casefold (Text.join [' '] [_,settings.parser.title body _,
          _,body])) cut
    rw [entries]

end Entries

/-- The stored links resolve over these names as they are stored, and the stored bodies are
cut at the cap in use. -/
structure Current [Host] (settings : IndexSettings) (names : Basenames) (t : Tables) : Prop where
  links : ∀ row ∈ t.links, resolveRef row.sourcePath names row.ref = row.ref
  bodies : ∀ row ∈ t.notes, CutAt (max 1 settings.noteTextCap) row

def Stored [Host] (settings : IndexSettings) (caps : Nat → Prop) (met : Bytes → Prop)
    (t : Tables) : Prop :=
  ∀ path, t.rowsOf path = {} ∨ ∃ cap names data, caps cap ∧ met data ∧
    t.rowsOf path = writtenRows settings.ftsAvailable path
      (entryOf (settings.withCap cap) names path data)

section Current

variable [Host] {settings : IndexSettings} {met : Bytes → Prop} {t : Tables} {names : Basenames}
  {path : Text}

theorem sha256_entryOf (data : Bytes) :
    (entryOf settings names path data).sha256 = sha256Bytes data := by
  rw [entryOf]
  split
  · rfl
  · rfl

/-- Rows written from the same bytes are those of the present names and cap exactly when they
are current. -/
theorem current_rows_iff {cap : Nat} {names' : Basenames} {data : Bytes}
    (rows : t.rowsOf path = writtenRows settings.ftsAvailable path
      (entryOf (settings.withCap cap) names' path data)) :
    t.rowsOf path = writtenRows settings.ftsAvailable path (entryOf settings names path data) ↔
      (∀ row ∈ t.links, row.sourcePath = path → resolveRef row.sourcePath names row.ref = row.ref) ∧
      ∀ row ∈ t.notes, row.path = path → CutAt (max 1 settings.noteTextCap) row := by
  have links : ∀ P : LinkRow → Prop, (∀ row ∈ t.links, row.sourcePath = path → P row) ↔
      ∀ row ∈ (t.rowsOf path).links, P row := by
    intro P
    simp only [Tables.rowsOf,List.mem_filter,decide_eq_true_eq]
    exact ⟨fun all row found => all row found.1 found.2,fun all row found mine =>
      all row ⟨found,mine⟩⟩
  have notes : (∀ row ∈ t.notes, row.path = path → CutAt (max 1 settings.noteTextCap) row) ↔
      ∀ row ∈ (t.rowsOf path).notes, CutAt (max 1 settings.noteTextCap) row := by
    simp only [Tables.rowsOf,List.mem_map,List.mem_filter,decide_eq_true_eq]
    constructor
    · rintro all _ ⟨row,⟨found,mine⟩,rfl⟩
      exact all row found mine
    · intro all row found mine
      exact all {row with rowid := 0} ⟨row,⟨found,mine⟩,rfl⟩
  rw [links fun row => resolveRef row.sourcePath names row.ref = row.ref,notes,rows,entryOf,
    entryOf]
  cases decodeUtf8 data with
  | none =>
    refine iff_of_true rfl ⟨fun row found => (by cases found),fun row found => ?_⟩
    obtain rfl := List.mem_singleton.mp found
    exact Nat.zero_le _
  | some text =>
    dsimp only
    rw [writtenRows_text_iff,cut_iff]
    refine and_congr ?_ ?_
    · simp only [writtenRows,linkRows,entryFromText,List.forall_mem_map]
      constructor
      · intro all row found
        obtain ⟨ref,parsed,same⟩ := List.mem_map.mp (List.fst_mem_of_mem_zipIdx found)
        rw [← same]
        exact (resolveRef_again ref).mpr (all ref parsed)
      · intro all ref parsed
        have there : resolveRef path names' ref ∈ List.map Prod.fst (List.zipIdx
            ((settings.parser.wikilinks text).map (resolveRef path names'))) := by
          rw [List.zipIdx_map_fst]
          exact List.mem_map_of_mem parsed
        obtain ⟨row,found,same⟩ := List.mem_map.mp there
        have again := all row found
        rw [same] at again
        exact (resolveRef_again ref).mp again
    · simp [writtenRows,noteRow,entryFromText,CutAt,IndexSettings.withCap]

omit [Host] in
theorem rowsOf_ne {row : NoteRow} (found : row ∈ t.notes) : t.rowsOf row.path ≠ {} := by
  intro empty
  have mine : {row with rowid := 0} ∈ (t.rowsOf row.path).notes :=
    List.mem_map.mpr ⟨row,List.mem_filter.mpr ⟨found,decide_eq_true rfl⟩,rfl⟩
  rw [empty] at mine
  cases mine

/-- The digest of a stored row is that of the bytes it was written from. -/
theorem sha256_rowsOf {row : NoteRow} {fts : Bool} {data : Bytes} (found : row ∈ t.notes)
    (rows : t.rowsOf row.path = writtenRows fts row.path (entryOf settings names row.path data)) :
    row.sha256 = sha256Bytes data := by
  have mine : {row with rowid := 0} ∈ (t.rowsOf row.path).notes :=
    List.mem_map.mpr ⟨row,List.mem_filter.mpr ⟨found,decide_eq_true rfl⟩,rfl⟩
  rw [rows] at mine
  have same := congrArg NoteRow.sha256 (List.mem_singleton.mp mine)
  exact same.trans (sha256_entryOf data)

end Current

/-- The bytes an operation may read. -/
def VaultFiles.Meets (files : VaultFiles) (met : Bytes → Prop) : Prop :=
  ∀ path data, files.read path = some data → met data

namespace IndexStep

def files : IndexStep → Option VaultFiles
  | .rebuild files | .refresh files | .upsert files _ | .move files _ _ => some files
  | .delete _ => none

def Meets (met : Bytes → Prop) (step : IndexStep) : Prop := ∀ files ∈ step.files, files.Meets met

end IndexStep

section Stored

variable [Host] {settings : IndexSettings} {caps : Nat → Prop} {met : Bytes → Prop}
  {d : DerivedIndex} {files : VaultFiles} {cap : Nat}

theorem stored_rebuild (allowed : caps cap) (stored : Stored settings caps met d.tables)
    (derived : Derived settings.ftsAvailable d.tables) (meets : files.Meets met) :
    Stored settings caps met (rebuild (settings.withCap cap) files d).tables := by
  rw [rebuild]
  split
  · exact stored
  · rename_i listing listed
    have distinct : (scanned listing).Nodup :=
      (List.perm_insertionSort _ _).nodup_iff.mpr (files.distinct listing listed)
    obtain ⟨t,written,rows⟩ := @rebuildTables_rows _ (settings.withCap cap) files
      (Basenames.ofFiles (scanned listing)) _ d.tables distinct derived
    dsimp only
    rw [written,Option.getD_some]
    intro path
    rw [rows,rebuiltRows]
    split
    · rw [readRows]
      cases read : files.read path with
      | none => exact .inl rfl
      | some data => exact .inr ⟨cap,_,data,allowed,meets path data read,rfl⟩
    · exact .inl rfl

theorem stored_refresh (allowed : caps cap) (stored : Stored settings caps met d.tables)
    (derived : Derived settings.ftsAvailable d.tables) (meets : files.Meets met) :
    Stored settings caps met (refresh (settings.withCap cap) files d).tables := by
  rw [refresh]
  split
  · exact stored_rebuild allowed stored derived meets
  · split
    · exact stored
    · exact stored_rebuild allowed stored derived meets

theorem stored_applyDelete (stored : Stored settings caps met d.tables)
    (derived : Derived settings.ftsAvailable d.tables) (path : Text) :
    Stored settings caps met (applyDelete (settings.withCap cap) d path).tables := by
  rw [applyDelete]
  split
  · exact stored
  · dsimp only
    split
    · intro other
      have rows := @rowsOf_deleteNoteRows _ _ path other derived.mirrors
      rw [show (settings.withCap cap).ftsAvailable = settings.ftsAvailable from rfl,rows]
      split
      · exact .inl rfl
      · exact stored other
    · exact stored

theorem stored_applyCreate (allowed : caps cap) (stored : Stored settings caps met d.tables)
    (derived : Derived settings.ftsAvailable d.tables) (meets : files.Meets met) (path : Text) :
    Stored settings caps met (applyCreate (settings.withCap cap) files d path).tables := by
  rw [applyCreate]
  split
  · exact stored
  split
  · exact stored
  split
  · exact stored
  rename_i data read
  split
  · exact stored
  obtain ⟨t,upserted⟩ := @upsert_succeeds _ _ path _ derived (settings.withCap cap)
    (d.names.refresh path) data
  dsimp only
  rw [show (settings.withCap cap).ftsAvailable = settings.ftsAvailable from rfl,upserted,
    Option.getD_some]
  intro other
  rw [rowsOf_upsert derived upserted]
  split
  · rename_i same
    exact .inr ⟨cap,d.names.refresh path,data,allowed,meets path data read,by rw [same]⟩
  · exact stored other

theorem stored_apply {step : IndexStep} (allowed : caps cap)
    (stored : Stored settings caps met d.tables)
    (derived : Derived settings.ftsAvailable d.tables) (meets : step.Meets met) :
    Stored settings caps met (step.apply (settings.withCap cap) d).tables := by
  cases step with
  | rebuild files => exact stored_rebuild allowed stored derived (meets files rfl)
  | refresh files => exact stored_refresh allowed stored derived (meets files rfl)
  | upsert files path => exact stored_applyCreate allowed stored derived (meets files rfl) path
  | delete path => exact stored_applyDelete stored derived path
  | move files oldPath newPath =>
    exact stored_applyCreate allowed (stored_applyDelete stored derived oldPath)
      (@derived_applyDelete _ (settings.withCap cap) _ derived oldPath) (meets files rfl) newPath

end Stored

/-- One life of the service: it finds the tables of the last one, and has a cap of its own. -/
structure Session where
  noteTextCap : Nat
  steps : List IndexStep

namespace Session

variable [Host] {settings : IndexSettings} {caps : Nat → Prop} {met : Bytes → Prop}

def run (settings : IndexSettings) (t : Tables) (session : Session) : Tables :=
  (IndexStep.run (settings.withCap session.noteTextCap) session.steps {tables := t}).tables

def runAll (settings : IndexSettings) (sessions : List Session) : Tables :=
  sessions.foldl (run settings) {}

def Meets (met : Bytes → Prop) (sessions : List Session) : Prop :=
  ∀ session ∈ sessions, ∀ step ∈ session.steps, step.Meets met

theorem stored_steps {cap : Nat} {steps : List IndexStep} {d : DerivedIndex}
    (allowed : caps cap) (stored : Stored settings caps met d.tables) (derived : Derived settings.ftsAvailable d.tables)
    (meets : ∀ step ∈ steps, step.Meets met) :
    Stored settings caps met (IndexStep.run (settings.withCap cap) steps d).tables ∧
      Derived settings.ftsAvailable (IndexStep.run (settings.withCap cap) steps d).tables := by
  induction steps generalizing d with
  | nil => exact ⟨stored,derived⟩
  | cons step rest ih =>
    have kept : Derived settings.ftsAvailable (step.apply (settings.withCap cap) d).tables :=
      @IndexStep.derived_apply _ (settings.withCap cap) d derived step
    exact ih (stored_apply allowed stored derived (meets step (List.mem_cons_self ..))) kept
      fun later found => meets later (List.mem_cons_of_mem _ found)

theorem stored_runAll {sessions : List Session} (meets : Meets met sessions) :
    Stored settings (fun _ => True) met (runAll settings sessions) ∧
      Derived settings.ftsAvailable (runAll settings sessions) := by
  have kept : ∀ (sessions : List Session) (t : Tables), Meets met sessions →
      Stored settings (fun _ => True) met t → Derived settings.ftsAvailable t →
        Stored settings (fun _ => True) met (sessions.foldl (run settings) t) ∧
          Derived settings.ftsAvailable (sessions.foldl (run settings) t) := by
    intro sessions
    induction sessions with
    | nil => exact fun t _ stored derived => ⟨stored,derived⟩
    | cons session rest ih =>
      intro t meets stored derived
      obtain ⟨stored',derived'⟩ := @stored_steps _ settings (fun _ => True) met
        session.noteTextCap session.steps {tables := t} trivial stored derived (meets session (List.mem_cons_self ..))
      exact ih _ (fun later found => meets later (List.mem_cons_of_mem _ found)) stored' derived'
  exact kept sessions {} meets (fun _ => .inl rfl) derived_empty

end Session

section Reuse

variable [Host] {settings : IndexSettings} {caps : Nat → Prop} {met : Bytes → Prop} {t : Tables}
  {files : VaultFiles} {listing : List Text}

/-- What matching fingerprints say. -/
theorem fingerprintsMatch_spec (fits : fingerprintsMatch settings files t listing = true) :
    (∀ path, path ∈ t.notes.map NoteRow.path ↔ path ∈ listing ∧ markdownFile path = true) ∧
      ∀ path ∈ t.notes.map NoteRow.path, ∃ row data, t.note path = some row ∧
        files.read path = some data ∧ row.sha256 = sha256Bytes data := by
  simp only [fingerprintsMatch,digestsMatch,Bool.and_eq_true,List.all_eq_true,
    decide_eq_true_eq,List.mem_dedup,List.mem_filter] at fits
  obtain ⟨⟨⟨⟨-,stored⟩,listed⟩,-⟩,digests⟩ := fits
  refine ⟨fun path => ⟨stored path,listed path⟩,fun path found => ?_⟩
  obtain ⟨there,same⟩ := digests path (stored path found)
  obtain ⟨digest,noted⟩ := Option.isSome_iff_exists.mp there
  obtain ⟨row,present,rfl⟩ := Option.map_eq_some_iff.mp noted
  obtain ⟨data,read,equal⟩ := Option.map_eq_some_iff.mp (same.symm.trans noted)
  exact ⟨row,data,present,read,equal.symm⟩

/-- Rows that fit the fingerprints are those of a rebuild exactly when they are current. -/
theorem reused_iff (free : ∀ a b, met a → met b → sha256Bytes a = sha256Bytes b → a = b)
    (stored : Stored settings caps met t) (derived : Derived settings.ftsAvailable t)
    (meets : files.Meets met) (fits : fingerprintsMatch settings files t listing = true)
    (names : Basenames) :
    (∀ path, t.rowsOf path = rebuiltRows settings files names (scanned listing) path) ↔
      Current settings names t := by
  obtain ⟨paths,digests⟩ := fingerprintsMatch_spec fits
  have scanned_iff : ∀ path, path ∈ (scanned listing).filter markdownFile ↔
      path ∈ t.notes.map NoteRow.path := by
    intro path
    rw [paths,List.mem_filter,scanned,List.mem_insertionSort]
  have elsewhere : ∀ path, path ∉ t.notes.map NoteRow.path →
      t.rowsOf path = rebuiltRows settings files names (scanned listing) path := by
    intro path absent
    rw [rowsOf_absent derived.mirrors derived.owned absent,rebuiltRows,
      if_neg (mt (scanned_iff path).mp absent)]
  have each : ∀ path ∈ t.notes.map NoteRow.path,
      (t.rowsOf path = rebuiltRows settings files names (scanned listing) path ↔
        (∀ row ∈ t.links, row.sourcePath = path →
          resolveRef row.sourcePath names row.ref = row.ref) ∧
        ∀ row ∈ t.notes, row.path = path → CutAt (max 1 settings.noteTextCap) row) := by
    intro path found
    obtain ⟨row,data,present,read,digest⟩ := digests path found
    have there := List.mem_of_find?_eq_some present
    obtain rfl : row.path = path := by simpa using List.find?_some present
    obtain ⟨cap,names',data',-,before,rows⟩ := (stored row.path).resolve_left (rowsOf_ne there)
    have same : data' = data := free _ _ before (meets _ _ read)
      ((sha256_rowsOf there rows).symm.trans digest)
    subst same
    rw [rebuiltRows,if_pos ((scanned_iff _).mpr found),readRows,read]
    exact current_rows_iff rows
  constructor
  · intro all
    refine ⟨fun row found => ?_,fun row found => ?_⟩
    · exact ((each _ (derived.owned.links row found)).mp (all _)).1 row found rfl
    · exact ((each _ (List.mem_map_of_mem found)).mp (all _)).2 row found rfl
  · intro current path
    by_cases found : path ∈ t.notes.map NoteRow.path
    · exact (each path found).mpr ⟨fun row there _ => current.links row there,
        fun row there _ => current.bodies row there⟩
    · exact elsewhere path found

/-- After any earlier sessions, a refresh leaves the rows of a rebuild exactly when the
fingerprints do not match or the stored rows are current. -/
theorem refresh_sameRows_iff {sessions : List Session}
    (free : ∀ a b, met a → met b → sha256Bytes a = sha256Bytes b → a = b)
    (earlier : Session.Meets met sessions) (meets : files.Meets met) :
    SameRows (refresh settings files {tables := Session.runAll settings sessions}).tables
        (rebuild settings files {tables := Session.runAll settings sessions}).tables ↔
      ∀ listing ∈ files.listing,
        fingerprintsMatch settings files (Session.runAll settings sessions) listing = true →
        Current settings (Basenames.ofFiles (scanned listing))
          (Session.runAll settings sessions) := by
  obtain ⟨stored,derived⟩ := @Session.stored_runAll _ settings met sessions earlier
  rw [refresh,rebuild]
  cases listed : files.listing with
  | none => exact iff_of_true (fun _ => rfl) fun _ found => by cases found
  | some listing =>
    have distinct : (scanned listing).Nodup :=
      (List.perm_insertionSort _ _).nodup_iff.mpr (files.distinct listing listed)
    obtain ⟨t,written,rows⟩ := @rebuildTables_rows _ settings files
      (Basenames.ofFiles (scanned listing)) _ _ distinct derived
    dsimp only
    rw [written,Option.getD_some]
    by_cases fits : fingerprintsMatch settings files (Session.runAll settings sessions)
        listing = true
    · rw [if_pos fits]
      have reused := reused_iff free stored derived meets fits
        (Basenames.ofFiles (scanned listing))
      constructor
      · intro same other found _
        obtain rfl := Option.some.inj found
        exact reused.mp fun path => (same path).trans (rows path)
      · intro current path
        exact (reused.mpr (current listing rfl fits) path).trans (rows path).symm
    · rw [if_neg fits]
      refine iff_of_true (fun path => ?_) fun other found matched => ?_
      · rfl
      · obtain rfl := Option.some.inj found
        exact absurd matched fits

end Reuse

section Runs

open scoped AsciiHost

theorem onlyA_distinct : ∀ paths ∈ some ["a.md".toList], paths.Nodup := by
  intro paths listed
  obtain rfl := Option.some.inj listed
  decide

def oneNote : VaultFiles where
  listing := some ["a.md".toList]
  read path := if path = "a.md".toList then some (encodeUtf8 "[[b]]".toList) else none
  distinct := onlyA_distinct

/-- A picture that the link names is added while the service does not run. -/
def withPicture : VaultFiles where
  listing := some ["a.md".toList,"b".toList]
  read path :=
    if path = "a.md".toList then some (encodeUtf8 "[[b]]".toList)
    else if path = "b".toList then some ⟨#[255]⟩ else none
  distinct paths listed := by
    obtain rfl := Option.some.inj listed
    decide

def firstSession : List Session := [⟨1000000,[.rebuild oneNote]⟩]

def noteBytes (data : Bytes) : Prop :=
  data = encodeUtf8 "[[b]]".toList ∨ data = ⟨#[255]⟩

theorem noteBytes_free (a b : Bytes) (left : noteBytes a) (right : noteBytes b)
    (same : sha256Bytes a = sha256Bytes b) : a = b := by
  have apart : sha256Bytes (encodeUtf8 "[[b]]".toList) ≠ sha256Bytes ⟨#[255]⟩ := by
    decide +kernel
  rcases left with rfl | rfl <;> rcases right with rfl | rfl
  · rfl
  · exact absurd same apart
  · exact absurd same.symm apart
  · rfl

theorem oneNote_meets : oneNote.Meets noteBytes := by
  intro path data read
  change (if path = "a.md".toList then some (encodeUtf8 "[[b]]".toList) else none) = some data
    at read
  split at read
  · exact .inl (Option.some.inj read).symm
  · cases read

theorem firstSession_meets : Session.Meets noteBytes firstSession := by
  intro session found step there files given
  obtain rfl := List.mem_singleton.mp found
  obtain rfl := List.mem_singleton.mp there
  obtain rfl := Option.some.inj given
  exact oneNote_meets

/-- Nothing changed since the first session, so its rows are reused as they are. -/
theorem oneNote_reused :
    SameRows
      (refresh oneLinkIndex oneNote {tables := Session.runAll oneLinkIndex firstSession}).tables
      (rebuild oneLinkIndex oneNote {tables := Session.runAll oneLinkIndex firstSession}).tables := by
  refine (refresh_sameRows_iff noteBytes_free firstSession_meets oneNote_meets).mpr ?_
  intro listing found _
  obtain rfl := Option.some.inj found
  refine ⟨?_,?_⟩
  · decide +kernel
  · intro row there
    have bodies : ∀ row ∈ (Session.runAll oneLinkIndex firstSession).notes,
        row.textTruncated = false ∧ row.text.length ≤ 1000000 := by decide +kernel
    rw [CutAt,(bodies row there).1]
    exact (bodies row there).2

/-- The picture is not seen: the link stays broken in the reused rows. -/
theorem withPicture_not_rebuilt :
    ¬ SameRows
      (refresh oneLinkIndex withPicture {tables := Session.runAll oneLinkIndex firstSession}).tables
      (rebuild oneLinkIndex withPicture
        {tables := Session.runAll oneLinkIndex firstSession}).tables := by
  intro same
  have links := congrArg NoteRows.links (same "a.md".toList)
  exact absurd links (by decide +kernel)

end Runs

end LocalBook.Index
