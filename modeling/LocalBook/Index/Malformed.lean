import LocalBook.Index.Frontmatter
import LocalBook.Index.Rows

/-! A rebuild whose notes may have any frontmatter. What a note's frontmatter raises ends the
transaction for all notes, so the others are indexed only if nothing is raised. -/
namespace LocalBook.Index

section Raising

variable [Host] (settings : IndexSettings) (runtime : YamlRuntime)

def withFrontmatter (frontmatter : Text → FrontmatterResult) : IndexSettings :=
  {settings with parser := {settings.parser with frontmatter}}

def rebuildNoteOrRaise (files : VaultFiles) (names : Basenames) (t : Tables) (path : Text) :
    Option Tables :=
  match files.read path with
  | none => some t
  | some data =>
    match decodeUtf8 data with
    | none => t.insertNoteRow settings.ftsAvailable path (unreadableEntry path (sha256Bytes data))
    | some text => (parseFrontmatter runtime text).bind fun result =>
        t.insertNoteRow settings.ftsAvailable path
          (entryFromText (withFrontmatter settings fun _ => result) names path text
            (sha256Bytes data))

/-- The transaction of `rebuild`, over the files of a listing. -/
def rebuildOrRaise (files : VaultFiles) (listing : List Text) (t : Tables) : Option Tables :=
  let paths := scanned listing
  (((paths.filter markdownFile).foldlM
    (rebuildNoteOrRaise settings runtime files (Basenames.ofFiles paths))
    (t.cleared settings.ftsAvailable))).map fun written => written.insertBacklinks written.links

def VaultFiles.replaced (files : VaultFiles) (path : Text) (data : Bytes) : VaultFiles :=
  {files with read := fun other => if other = path then some data else files.read other}

def InvalidNote (data : Bytes) : Prop :=
  ∃ text result, decodeUtf8 data = some text ∧ parseFrontmatter runtime text = some result ∧
    result.status = .parseError

/-- A rebuild completes, and whatever note is given an invalid frontmatter instead of its own,
every other note is indexed the same. -/
def IsolatesMalformed (files : VaultFiles) (listing : List Text) (t : Tables) : Prop :=
  ∃ rebuilt, rebuildOrRaise settings runtime files listing t = some rebuilt ∧
    ∀ path data, InvalidNote runtime data →
      ∃ other, rebuildOrRaise settings runtime (files.replaced path data) listing t = some other ∧
        ∀ note ≠ path, other.rowsOf note = rebuilt.rowsOf note

/-- The note can be stored, if it can be read at all. -/
def Accepts (files : VaultFiles) (path : Text) : Prop :=
  ∀ data text, files.read path = some data → decodeUtf8 data = some text →
    StorableNote runtime text

end Raising

section Isolating

variable [Host] {settings : IndexSettings} {runtime : YamlRuntime} {files : VaultFiles}
variable {names : Basenames} {t : Tables} {path : Text} {listing : List Text}

def lenient (settings : IndexSettings) (runtime : YamlRuntime) : IndexSettings :=
  withFrontmatter settings fun text => (parseFrontmatter runtime text).getD noFrontmatter

/-- A note that can be stored is indexed as before, and any other one raises. -/
theorem rebuildNote_of_accepts (accepts : Accepts runtime files path) :
    rebuildNoteOrRaise settings runtime files names t path =
      rebuildNote (lenient settings runtime) files names t path := by
  rw [rebuildNoteOrRaise,rebuildNote]
  cases read : files.read path with
  | none => rfl
  | some data =>
    dsimp only
    rw [entryOf]
    cases decoded : decodeUtf8 data with
    | none => rfl
    | some text =>
      have parses := parseFrontmatter_isSome.mpr (accepts data text read decoded)
      obtain ⟨result,same⟩ := Option.isSome_iff_exists.mp parses
      dsimp only
      rw [same,Option.bind_some]
      have entry : entryFromText (withFrontmatter settings fun _ => result) names path text
          (sha256Bytes data) = entryFromText (lenient settings runtime) names path text
          (sha256Bytes data) := by
        rw [entryFromText,entryFromText]
        simp only [withFrontmatter,lenient,same,Option.getD_some]
        rfl
      rw [entry]
      rfl

theorem raises_of_not_accepts (refused : ¬ Accepts runtime files path) :
    rebuildNoteOrRaise settings runtime files names t path = none := by
  rw [rebuildNoteOrRaise]
  cases read : files.read path with
  | none => exact absurd (fun data text there => by rw [read] at there; cases there) refused
  | some data =>
    dsimp only
    cases decoded : decodeUtf8 data with
    | none =>
      refine absurd (fun other text there decodes => ?_) refused
      rw [← Option.some.inj (read.symm.trans there),decoded] at decodes
      cases decodes
    | some text =>
      have raises : parseFrontmatter runtime text = none := by
        refine Option.not_isSome_iff_eq_none.mp fun parses => refused fun other text' there same => ?_
        rw [← Option.some.inj (read.symm.trans there),decoded] at same
        exact Option.some.inj same ▸ parseFrontmatter_isSome.mp parses
      dsimp only
      rw [raises,Option.bind_none]

/-- The loop of a rebuild ends exactly when every note on its way can be stored. -/
theorem accepts_of_rebuilt {paths : List Text} {written : Tables}
    (rebuilt : paths.foldlM (rebuildNoteOrRaise settings runtime files names) t = some written) :
    ∀ path ∈ paths, Accepts runtime files path := by
  induction paths generalizing t with
  | nil => exact fun path member => by cases member
  | cons first rest ih =>
    rw [List.foldlM_cons] at rebuilt
    obtain ⟨next,here,later⟩ := Option.bind_eq_some_iff.mp rebuilt
    refine List.forall_mem_cons.mpr ⟨?_,ih later⟩
    by_contra refused
    rw [raises_of_not_accepts refused] at here
    cases here

theorem rebuildNotes_of_accepts {paths : List Text}
    (accepts : ∀ path ∈ paths, Accepts runtime files path) :
    paths.foldlM (rebuildNoteOrRaise settings runtime files names) t =
      paths.foldlM (rebuildNote (lenient settings runtime) files names) t := by
  induction paths generalizing t with
  | nil => rfl
  | cons first rest ih =>
    obtain ⟨here,later⟩ := List.forall_mem_cons.mp accepts
    rw [List.foldlM_cons,List.foldlM_cons,rebuildNote_of_accepts here]
    exact congrArg _ (funext fun next => ih later)

/-- When every note can be stored, a rebuild writes each by its own content. -/
theorem rebuilt_of_accepts (distinct : listing.Nodup) (derived : Derived settings.ftsAvailable t)
    (accepts : ∀ path ∈ (scanned listing).filter markdownFile, Accepts runtime files path) :
    ∃ rebuilt, rebuildOrRaise settings runtime files listing t = some rebuilt ∧
      ∀ path, rebuilt.rowsOf path = rebuiltRows (lenient settings runtime) files
        (Basenames.ofFiles (scanned listing)) (scanned listing) path := by
  have order : (scanned listing).Nodup :=
    (List.perm_insertionSort _ _).nodup_iff.mpr distinct
  obtain ⟨rebuilt,written,rows⟩ := @rebuildTables_rows _ (lenient settings runtime) files
    (Basenames.ofFiles (scanned listing)) (scanned listing) t order derived
  refine ⟨rebuilt,?_,rows⟩
  rw [rebuildOrRaise,rebuildNotes_of_accepts accepts]
  exact written

theorem accepts_replaced {data : Bytes} {other : Text} (invalid : InvalidNote runtime data)
    (accepts : Accepts runtime files other) :
    Accepts runtime (files.replaced path data) other := by
  intro content text read decoded
  rw [VaultFiles.replaced] at read
  dsimp only at read
  split at read
  · obtain ⟨text',result,decoded',parsed,-⟩ := invalid
    rw [← Option.some.inj read,decoded'] at decoded
    refine parseFrontmatter_isSome.mp ?_
    rw [← Option.some.inj decoded,parsed]
    rfl
  · exact accepts content text read decoded

/-- Over every Vault content and every value that YAML loads: a rebuild isolates malformed
notes exactly when no note has a frontmatter mapping that cannot be stored. -/
theorem isolatesMalformed_iff (settings : IndexSettings) (runtime : YamlRuntime)
    (files : VaultFiles) (listing : List Text) (t : Tables) (distinct : listing.Nodup)
    (derived : Derived settings.ftsAvailable t) :
    IsolatesMalformed settings runtime files listing t ↔
      ∀ path ∈ listing, markdownFile path = true → Accepts runtime files path := by
  have within (P : Text → Prop) : (∀ path ∈ (scanned listing).filter markdownFile, P path) ↔
      ∀ path ∈ listing, markdownFile path = true → P path := by
    simp only [List.mem_filter,scanned,List.mem_insertionSort,and_imp]
  rw [← within]
  constructor
  · rintro ⟨rebuilt,ran,-⟩
    obtain ⟨written,notes,-⟩ := Option.map_eq_some_iff.mp ran
    exact accepts_of_rebuilt notes
  · intro accepts
    obtain ⟨rebuilt,ran,rows⟩ := rebuilt_of_accepts distinct derived accepts
    refine ⟨rebuilt,ran,fun path data invalid => ?_⟩
    obtain ⟨other,ran',rows'⟩ := @rebuilt_of_accepts _ settings runtime (files.replaced path data)
      t listing distinct derived fun note member => accepts_replaced invalid (accepts note member)
    refine ⟨other,ran',fun note apart => ?_⟩
    rw [rows,rows',rebuiltRows,rebuiltRows,readRows,readRows,VaultFiles.replaced]
    dsimp only
    rw [if_neg apart]

end Isolating

section Aliased

open scoped AsciiHost

def loadsSet : YamlRuntime where
  safeLoad := fun _ => .value (.dict [(.str (PyStr.ofText "x".toList),.set)])
  str := fun _ => []
  depth := 1000

def plainParser : NoteParser where
  frontmatter := fun _ => noFrontmatter
  body := id
  title := fun _ stem => stem
  wikilinks := fun _ => []

def plainSettings : IndexSettings := ⟨plainParser,1000000,true⟩

theorem distinct_setNote : ∀ paths ∈ some ["a.md".toList], paths.Nodup := by
  intro paths member
  rw [Option.mem_some_iff.mp member |>.symm]
  exact List.nodup_singleton _

def setNote : VaultFiles where
  listing := some ["a.md".toList]
  read := fun path => if path = "a.md".toList then some "---\nx: !!set {a}\n---\n".toUTF8 else none
  distinct := distinct_setNote

/-- With one file whose name is no other's, and an index that is still empty. -/
theorem setNote_isolated_iff :
    IsolatesMalformed plainSettings loadsSet setNote ["a.md".toList] {} ↔
      ∀ path ∈ ["a.md".toList], markdownFile path = true → Accepts loadsSet setNote path :=
  isolatesMalformed_iff plainSettings loadsSet setNote ["a.md".toList] {} (by simp) derived_empty

theorem setNote_not_isolated :
    ¬ IsolatesMalformed plainSettings loadsSet setNote ["a.md".toList] {} := by
  rintro ⟨rebuilt,ran,-⟩
  have raised : rebuildOrRaise plainSettings loadsSet setNote ["a.md".toList] {} = none := by
    decide +kernel
  rw [raised] at ran
  cases ran

end Aliased

end LocalBook.Index
