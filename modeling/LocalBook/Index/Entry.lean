import LocalBook.Dict
import LocalBook.Sha256

/-! What the derived index makes of one note: its entry, with every wikilink resolved against
the names of the files. The parsers of the Markdown text are parameters. -/
namespace LocalBook.Index

inductive RefKind where
  | wikilink
  | embed
  | web
deriving Repr,DecidableEq

/-- `WikilinkRef`. -/
structure WikilinkRef where
  target : Text
  raw : Text
  kind : RefKind := .wikilink
  display : Option Text := none
  section_ : Option Text := none
  block : Option Text := none
  context : Option Text := none
  resolvedPath : Option Text := none
  broken : Bool := false
  ambiguous : Bool := false
  candidates : List Text := []
deriving Repr,DecidableEq

inductive FrontmatterStatus where
  | none
  | ok
  | parseError
  | unreadable
deriving Repr,DecidableEq

/-- `FrontmatterResult`. The values of the properties are kept as JSON texts; tags that are
equal up to case are one tag. -/
structure FrontmatterResult [Host] where
  status : FrontmatterStatus := .none
  properties : Dict Text Text := []
  tags : List Text := []
  parseError : Option Text := none
  propertyKeys : (properties.map Prod.fst).Nodup := by decide
  distinctTags : (tags.map Host.casefold).Nodup := by decide

def FrontmatterResult.tagsFolded [Host] (result : FrontmatterResult) : List Text :=
  result.tags.map Host.casefold

/-- The parsers of a note: `parse_frontmatter`, `strip_frontmatter`, `derive_title` and
`parse_wikilinks`. -/
structure NoteParser [Host] where
  frontmatter : Text → FrontmatterResult
  body : Text → Text
  title : Text → Text → Text
  wikilinks : Text → List WikilinkRef

/-- The configuration of the index, and whether SQLite has FTS5. -/
structure IndexSettings [Host] where
  parser : NoteParser
  noteTextCap : Nat
  ftsAvailable : Bool

/-- `NoteIndexEntry`. -/
structure NoteIndexEntry where
  path : Text
  sha256 : Text
  title : Text
  basename : Text
  text : Text
  textTruncated : Bool := false
  tags : List Text := []
  tagsFolded : List Text := []
  properties : Dict Text Text := []
  frontmatterStatus : FrontmatterStatus := .none
  parseError : Option Text := none
  outgoing : List WikilinkRef := []
  searchFolded : Text := []
  diagnostic : Option Text := none

/-- `path.rsplit("/", 1)[-1]`. -/
def leaf (path : Text) : Text := (Text.split '/' path).getLast?.getD path

/-- `_strip_extension`. -/
def stripExtension (name : Text) : Text :=
  let parts := Text.split '.' name
  let stem := Text.join ['.'] parts.dropLast
  if stem ≠ [] ∧ parts.getLast? ≠ some [] then stem else name

section Names

variable [Host]

def byCasefold (a b : Text) : Prop := Host.casefold a ≤ Host.casefold b

instance : DecidableRel byCasefold := fun a b =>
  inferInstanceAs (Decidable (Host.casefold a ≤ Host.casefold b))

/-- `_markdown_file`. -/
def markdownFile (path : Text) : Bool :=
  let folded := Host.casefold path
  Text.endsWith folded ".md".toList || Text.endsWith folded ".markdown".toList

/-- The paths of all files by their folded names, and of the notes by their folded names
without extension. -/
structure Basenames where
  full : Dict Text (List Text) := []
  noext : Dict Text (List Text) := []

def fullKey (path : Text) : Text := Host.casefold (leaf path)

def noextKey (path : Text) : Text := Host.casefold (stripExtension (leaf path))

namespace Basenames

/-- `map.get(key, [])`. -/
def get (names : Dict Text (List Text)) (key : Text) : List Text := (names.find key).getD []

/-- `map.setdefault(key, []).append(path)`. -/
def append (names : Dict Text (List Text)) (key path : Text) : Dict Text (List Text) :=
  names.set key (get names key ++ [path])

def addFile (names : Basenames) (path : Text) : Basenames where
  full := append names.full (fullKey path) path
  noext := if markdownFile path then append names.noext (noextKey path) path else names.noext

/-- The names of a listing. -/
def ofFiles (files : List Text) : Basenames := files.foldl addFile {}

/-- One map of `_refresh_basenames`. -/
def put (names : Dict Text (List Text)) (key path : Text) : Dict Text (List Text) :=
  names.set key (((get names key).filter (· ≠ path) ++ [path]).insertionSort byCasefold)

/-- One map of `_apply_delete`. -/
def drop (names : Dict Text (List Text)) (key path : Text) : Dict Text (List Text) :=
  match names.find key with
  | none => names
  | some paths =>
    let remaining := paths.filter (· ≠ path)
    if remaining = [] then names.pop key else names.set key remaining

/-- `_refresh_basenames`. -/
def refresh (names : Basenames) (path : Text) : Basenames where
  full := put names.full (fullKey path) path
  noext := if markdownFile path then put names.noext (noextKey path) path else names.noext

def remove (names : Basenames) (path : Text) : Basenames where
  full := drop names.full (fullKey path) path
  noext := if markdownFile path then drop names.noext (noextKey path) path else names.noext

end Basenames

def variants (name : Text) : List Text :=
  [Host.casefold name,Host.casefold name ++ ".md".toList,Host.casefold name ++ ".markdown".toList]

def linkCandidates (names : Basenames) (target : Text) : List Text :=
  if '/' ∈ target then
    ((variants (leaf target)).flatMap fun name =>
      (Basenames.get names.full name).filter fun path =>
        Host.casefold path ∈ variants target).dedup
  else
    (Basenames.get names.full (Host.casefold target) ++
      Basenames.get names.noext (Host.casefold (stripExtension target))).dedup

/-- `_resolve_ref`. -/
def resolveRef (sourcePath : Text) (names : Basenames) (ref : WikilinkRef) : WikilinkRef :=
  if ref.kind = .web then ref
  else
    let target := Text.strip ref.target
    if target = [] then
      -- An anchor inside the same note.
      if ref.section_.isSome || ref.block.isSome then
        {ref with resolvedPath := some sourcePath,broken := false,ambiguous := false}
      else {ref with broken := true}
    else
      match (linkCandidates names target).insertionSort byCasefold with
      | [] => {ref with broken := true,candidates := []}
      | first :: rest =>
        {ref with
          resolvedPath := some first,
          broken := false,
          ambiguous := rest ≠ [],
          candidates := if rest = [] then [] else first :: rest}

variable (settings : IndexSettings)

/-- `_entry_from_text`. -/
def entryFromText (names : Basenames) (path text digest : Text) : NoteIndexEntry :=
  let stem := stripExtension (leaf path)
  let frontmatter := settings.parser.frontmatter text
  let stripped := settings.parser.body text
  let cap := max 1 settings.noteTextCap
  let body := stripped.take cap
  let title := settings.parser.title body stem
  let tags := Text.join [' '] frontmatter.tagsFolded
  {path,sha256 := digest,title,basename := stem,text := body,
   textTruncated := cap < stripped.length,
   tags := frontmatter.tags,
   tagsFolded := frontmatter.tagsFolded,
   properties := frontmatter.properties,
   frontmatterStatus := frontmatter.status,
   parseError := frontmatter.parseError,
   outgoing := (settings.parser.wikilinks text).map (resolveRef path names),
   searchFolded := Host.casefold (Text.join [' '] [stem,title,tags,body])}

omit [Host] in
/-- `_empty_entry` of a note that is not UTF-8. -/
def unreadableEntry (path digest : Text) : NoteIndexEntry where
  path := path
  sha256 := digest
  title := stripExtension (leaf path)
  basename := stripExtension (leaf path)
  text := []
  frontmatterStatus := .unreadable
  diagnostic := some "File is not valid UTF-8".toList

def entryOf (names : Basenames) (path : Text) (data : Bytes) : NoteIndexEntry :=
  match decodeUtf8 data with
  | none => unreadableEntry path (sha256Bytes data)
  | some text => entryFromText settings names path text (sha256Bytes data)

end Names

end LocalBook.Index
