import LocalBook.Dict
import LocalBook.ReadFlow.Wedging

/-! What a record of the client becomes on its way to another device: it is encoded for the
outbox, its keys are rewritten for the server, and the other device decodes what the server
has kept. -/
namespace LocalBook.ReadFlow

open Reader (Json Data)

def isNumber : Json → Bool
  | .int _ => true
  | .float _ _ => true
  | _ => false

abbrev Number := {json : Json // isNumber json = true}

/-- What `JSONEncoder` makes of dates and bytes. -/
class JSONEncoder where
  /-- The seconds since 2001. -/
  date : Date → Number
  base64 : List UInt8 → Text

/-- What is documented of the system libraries: a dictionary is listed whole, letters of
ASCII have the cases they have, and a number stays one. -/
class LawfulFoundation [Foundation] : Prop where
  listing_perm : ∀ data, (Foundation.listing data).Perm data
  lowercased_ascii : ∀ t : Text, t.all Text.isAscii → Foundation.lowercased t =
    t.map Text.asciiLower
  capitalized_ascii : ∀ (c : Char) (t : Text), (c :: t).all Text.isAscii →
    Foundation.capitalized (c :: t) = Text.asciiUpper c :: t.map Text.asciiLower
  number_isNumber : ∀ json kept, Foundation.number json = some kept → isNumber kept = true

def SourceType.rawValue : SourceType → String
  | .web => "web"
  | .pdf => "pdf"
  | .document => "document"
  | .markdown => "markdown"
  | .app => "app"

def ItemType.rawValue : ItemType → String
  | .source => "source"
  | .highlight => "highlight"
  | .note => "note"
  | .question => "question"
  | .answer => "answer"

def SyncState.rawValue : SyncState → String
  | .localOnly => "local_only"
  | .pending => "pending"
  | .syncing => "syncing"
  | .synced => "synced"
  | .conflict => "conflict"
  | .failed => "failed"

section Encoder

variable [JSONEncoder]

def writeUUID (id : UUID) : Json := .str id.uuidString

def writeDate (date : Date) : Json := (JSONEncoder.date date).val

def writeBytes (bytes : List UInt8) : Json := .str (JSONEncoder.base64 bytes)

def writeCase (raw : String) : Json := .str raw.toList

/-- `encode(_:forKey:)`. -/
def encode (name : String) (json : Json) : Data := [(name.toList,json)]

/-- `encodeIfPresent(_:forKey:)`. -/
def encodeIfPresent (name : String) (write : α → Json) : Option α → Data
  | none => []
  | some value => encode name (write value)

def encodeMetadata (metadata : SourceMetadata) : Data :=
  encodeIfPresent "author" Json.str metadata.author ++
  encodeIfPresent "publishedDate" writeDate metadata.publishedDate ++
  encodeIfPresent "domain" Json.str metadata.domain ++
  encodeIfPresent "favicon" Json.str metadata.favicon ++
  encodeIfPresent "pageCount" Json.int metadata.pageCount ++
  encodeIfPresent "fileSize" Json.int metadata.fileSize ++
  encodeIfPresent "appBundleID" Json.str metadata.appBundleID ++
  encodeIfPresent "appName" Json.str metadata.appName

def encodeSource (source : Source) : Data :=
  encode "id" (writeUUID source.id) ++
  encode "type" (writeCase source.type.rawValue) ++
  encode "title" (.str source.title) ++
  encodeIfPresent "url" Json.str source.url ++
  encodeIfPresent "canonicalURL" Json.str source.canonicalURL ++
  encodeIfPresent "filePath" Json.str source.filePath ++
  encodeIfPresent "fileHash" Json.str source.fileHash ++
  encode "createdAt" (writeDate source.createdAt) ++
  encodeIfPresent "lastReadAt" writeDate source.lastReadAt ++
  encodeIfPresent "metadata" (fun metadata => .obj (encodeMetadata metadata)) source.metadata

def encodeReaderItem (item : ReaderItem) : Data :=
  encode "id" (writeUUID item.id) ++
  encode "type" (writeCase item.type.rawValue) ++
  encodeIfPresent "sourceID" writeUUID item.sourceID ++
  encodeIfPresent "sessionID" writeUUID item.sessionID ++
  encodeIfPresent "parentID" writeUUID item.parentID ++
  encode "content" (.str item.content) ++
  encodeIfPresent "metadata" writeBytes item.metadata ++
  encode "createdAt" (writeDate item.createdAt) ++
  encode "updatedAt" (writeDate item.updatedAt) ++
  encode "syncState" (writeCase item.syncState.rawValue)

def encodeHighlight (highlight : Highlight) : Data :=
  encode "id" (writeUUID highlight.id) ++
  encode "sourceID" (writeUUID highlight.sourceID) ++
  encodeIfPresent "sessionID" writeUUID highlight.sessionID ++
  encode "selectedText" (.str highlight.selectedText) ++
  encode "contextBefore" (.str highlight.contextBefore) ++
  encode "contextAfter" (.str highlight.contextAfter) ++
  encodeIfPresent "page" Json.int highlight.page ++
  encodeIfPresent "location" Json.str highlight.location ++
  encode "createdAt" (writeDate highlight.createdAt) ++
  encode "syncState" (writeCase highlight.syncState.rawValue)

def encodeNote (note : Note) : Data :=
  encode "id" (writeUUID note.id) ++
  encode "sourceID" (writeUUID note.sourceID) ++
  encodeIfPresent "highlightID" writeUUID note.highlightID ++
  encodeIfPresent "sessionID" writeUUID note.sessionID ++
  encode "content" (.str note.content) ++
  encode "createdAt" (writeDate note.createdAt) ++
  encode "updatedAt" (writeDate note.updatedAt) ++
  encode "revision" (.int note.revision) ++
  encode "syncState" (writeCase note.syncState.rawValue)

/-- `JSONEncoder().encode(entity)`. -/
def encodeEntity : Entity → Data
  | .source source => encodeSource source
  | .readerItem item => encodeReaderItem item
  | .highlight highlight => encodeHighlight highlight
  | .note note => encodeNote note

end Encoder

def isLowerOrDigit (c : Char) : Bool := ('a' ≤ c && c ≤ 'z') || ('0' ≤ c && c ≤ '9')

def isUpper (c : Char) : Bool := 'A' ≤ c && c ≤ 'Z'

/-- `([a-z0-9])([A-Z])` replaced by `$1_$2`. The end of a match begins no other. -/
def underscored : Text → Text
  | a :: b :: rest =>
    if isLowerOrDigit a && isUpper b then a :: '_' :: underscored (b :: rest)
    else a :: underscored (b :: rest)
  | short => short

section Client

variable [Foundation]

def snakeCaseKey (key : Text) : Text := Foundation.lowercased (underscored key)

def returned (key : Text) : Text := convertFromSnakeCase (snakeCaseKey key)

def snakeCaseKeys (fields : Data) : Data :=
  (Foundation.listing fields).foldl
    (fun result entry => Dict.set result (snakeCaseKey entry.1) entry.2) []

mutual

def snakeCaseJSON : Json → Json
  | .obj fields => .obj (snakeCaseKeys (snakeCaseFields fields))
  | .arr items => .arr (snakeCaseItems items)
  | other => other

def snakeCaseItems : List Json → List Json
  | [] => []
  | item :: rest => snakeCaseJSON item :: snakeCaseItems rest

def snakeCaseFields : Data → Data
  | [] => []
  | (key,value) :: rest => (key,snakeCaseJSON value) :: snakeCaseFields rest

end

def decodeEntity : Reader.SyncEntityType → Data → Option Entity
  | .source,data => (decodeSource data).map .source
  | .readerItem,data => (decodeReaderItem data).map .readerItem
  | .highlight,data => (decodeHighlight data).map .highlight
  | .note,data => (decodeNote data).map .note
  | .session,_ => none

def Entity.type : Entity → Reader.SyncEntityType
  | .source _ => .source
  | .readerItem _ => .readerItem
  | .highlight _ => .highlight
  | .note _ => .note

variable [JSONEncoder]

/-- The data of the operation a record is pushed with. -/
def operationData (entity : Entity) : Data :=
  snakeCaseKeys (snakeCaseFields (encodeEntity entity))

def received (entity : Entity) : Option Entity :=
  (jsonFields (operationData entity)).bind (decodeEntity entity.type)

/-- A record arrives as it was sent. -/
def RoundTrips (entity : Entity) : Prop := received entity = some entity

end Client

section Keys

theorem mem_intersperse {separator part : Text} {parts : List Text} (listed : part ∈ parts) :
    part ∈ parts.intersperse separator := by
  induction parts with
  | nil => cases listed
  | cons head rest ih =>
    cases rest with
    | nil => exact listed
    | cons next rest =>
      rw [List.intersperse_cons_cons]
      rcases List.mem_cons.mp listed with rfl | later
      · exact List.mem_cons_self
      · exact List.mem_cons_of_mem _ (List.mem_cons_of_mem _ (ih later))

theorem mem_of_split {separator : Char} {t part : Text} {c : Char}
    (listed : part ∈ Text.split separator t) (found : c ∈ part) : c ∈ t := by
  rw [← Text.join_split separator t,Text.join,List.intercalate]
  exact List.mem_flatten.mpr ⟨part,mem_intersperse listed,found⟩

theorem underscored_ascii (key : Text) (ascii : key.all Text.isAscii) :
    (underscored key).all Text.isAscii := by
  fun_induction underscored key with
  | case1 a b rest pair ih =>
    simp only [List.all_cons,Bool.and_eq_true] at ascii ih ⊢
    exact ⟨ascii.1,by decide,ih ascii.2⟩
  | case2 a b rest pair ih =>
    simp only [List.all_cons,Bool.and_eq_true] at ascii ih ⊢
    exact ⟨ascii.1,ih ascii.2⟩
  | case3 => exact ascii

variable [Foundation] [LawfulFoundation]

theorem snakeCaseKey_ascii (key : Text) (ascii : key.all Text.isAscii) :
    snakeCaseKey key = (underscored key).map Text.asciiLower :=
  LawfulFoundation.lowercased_ascii _ (underscored_ascii key ascii)

open scoped PlainFoundation in
/-- On a key of ASCII every library agrees with the plain one. -/
theorem convertFromSnakeCase_ascii (key : Text) (ascii : key.all Text.isAscii) :
    convertFromSnakeCase key = @convertFromSnakeCase PlainFoundation.foundation key := by
  have chars : ∀ c ∈ key, Text.isAscii c = true := List.all_eq_true.mp ascii
  have plain : ∀ part ∈ (Text.split '_' ((key.dropWhile (· = '_')).reverse.dropWhile
      (· = '_')).reverse).filter (· ≠ []), part.all Text.isAscii = true ∧ part ≠ [] := by
    intro part listed
    obtain ⟨part_,long⟩ := List.mem_filter.mp listed
    refine ⟨List.all_eq_true.mpr fun c found => chars c ?_,by simpa using long⟩
    have middle := List.mem_reverse.mp (mem_of_split part_ found)
    exact (List.dropWhile_sublist _).subset
      (List.mem_reverse.mp ((List.dropWhile_sublist _).subset middle))
  unfold convertFromSnakeCase
  dsimp only
  generalize (Text.split '_' ((key.dropWhile (· = '_')).reverse.dropWhile
    (· = '_')).reverse).filter (· ≠ []) = parts at plain
  match parts,plain with
  | [],_ => rfl
  | [_],_ => rfl
  | first :: second :: others,plain =>
    have head : Foundation.lowercased first = first.map Text.asciiLower :=
      LawfulFoundation.lowercased_ascii _ (plain first List.mem_cons_self).1
    have rest : (second :: others).map Foundation.capitalized = (second :: others).map
        (@Foundation.capitalized PlainFoundation.foundation) := by
      refine List.map_congr_left fun part listed => ?_
      obtain ⟨letters,long⟩ := plain part (List.mem_cons_of_mem _ listed)
      obtain ⟨c,more,rfl⟩ := List.exists_cons_of_ne_nil long
      exact LawfulFoundation.capitalized_ascii c more letters
    show _ ++ Foundation.lowercased first ++
      ((second :: others).map Foundation.capitalized).flatten ++ _ = _
    rw [head,rest]
    rfl

theorem returned_ascii (key : Text) (ascii : key.all Text.isAscii)
    (lower : ((underscored key).map Text.asciiLower).all Text.isAscii) :
    returned key = @returned PlainFoundation.foundation key := by
  have same := snakeCaseKey_ascii key ascii
  rw [returned,convertFromSnakeCase_ascii _ (same ▸ lower),same]
  rfl

/-- A key of ASCII that the plain libraries return under another name. -/
theorem returned_ne {key name : String} (ascii : key.toList.all Text.isAscii)
    (lower : ((underscored key.toList).map Text.asciiLower).all Text.isAscii)
    (other : @returned PlainFoundation.foundation key.toList ≠ name.toList) :
    returned key.toList ≠ name.toList := by
  rwa [returned_ascii _ ascii lower]

def Numeric (keyed : Text → Text) (name : String) (data : Data) : Prop :=
  ∀ entry ∈ data, keyed entry.1 = name.toList → isNumber entry.2 = true

variable {keyed : Text → Text} {name key : String} {data data' : Data}

omit [Foundation] [LawfulFoundation] in
theorem numeric_append : Numeric keyed name (data ++ data') ↔
    Numeric keyed name data ∧ Numeric keyed name data' := List.forall_mem_append

omit [Foundation] [LawfulFoundation] in
theorem numeric_encode {json : Json} (fine : keyed key.toList ≠ name.toList ∨
    isNumber json = true) : Numeric keyed name (encode key json) := by
  intro entry listed same
  obtain rfl := List.mem_singleton.mp listed
  exact fine.resolve_left fun other => other same

omit [Foundation] [LawfulFoundation] in
theorem numeric_encodeIfPresent {write : α → Json} {value : Option α}
    (other : keyed key.toList ≠ name.toList) :
    Numeric keyed name (encodeIfPresent key write value) := by
  cases value with
  | none => exact fun entry listed => absurd listed List.not_mem_nil
  | some value => exact numeric_encode (.inl other)

variable [JSONEncoder]

/-- Of what is encoded, only a date comes back as one of creation. -/
theorem numeric_encodeEntity (entity : Entity) :
    Numeric returned "createdAt" (encodeEntity entity) := by
  cases entity <;> simp only [encodeEntity,encodeSource,encodeReaderItem,encodeHighlight,
    encodeNote,numeric_append,and_assoc]
  case note => refine ⟨?_,?_,?_,?_,?_,?_,?_,?_,?_⟩ <;> first
    | exact numeric_encode (.inr (JSONEncoder.date _).property)
    | exact numeric_encode (.inl (returned_ne (by decide) (by decide) (by decide)))
    | exact numeric_encodeIfPresent (returned_ne (by decide) (by decide) (by decide))
  all_goals refine ⟨?_,?_,?_,?_,?_,?_,?_,?_,?_,?_⟩ <;> first
    | exact numeric_encode (.inr (JSONEncoder.date _).property)
    | exact numeric_encode (.inl (returned_ne (by decide) (by decide) (by decide)))
    | exact numeric_encodeIfPresent (returned_ne (by decide) (by decide) (by decide))

omit [LawfulFoundation] [JSONEncoder] in
theorem isNumber_snakeCaseJSON {json : Json} (number : isNumber json = true) :
    isNumber (snakeCaseJSON json) = true := by
  cases json with
  | int _ => exact number
  | float _ _ => exact number
  | _ => cases number

omit [LawfulFoundation] [JSONEncoder] in
theorem numeric_snakeCaseFields (all : Numeric keyed name data) :
    Numeric keyed name (snakeCaseFields data) := by
  induction data with
  | nil => exact fun entry listed => absurd listed List.not_mem_nil
  | cons entry rest ih =>
    obtain ⟨here,later⟩ := List.forall_mem_cons.mp all
    exact List.forall_mem_cons.mpr ⟨fun same => isNumber_snakeCaseJSON (here same),ih later⟩

omit [JSONEncoder] in
theorem numeric_snakeCaseKeys (all : Numeric returned name data) :
    Numeric convertFromSnakeCase name (snakeCaseKeys data) := by
  have listed : Numeric returned name (Foundation.listing data) := fun entry found =>
    all entry ((LawfulFoundation.listing_perm data).mem_iff.mp found)
  have fold : ∀ (entries result : Data), Numeric returned name entries →
      Numeric convertFromSnakeCase name result →
      Numeric convertFromSnakeCase name (entries.foldl
        (fun result entry => Dict.set result (snakeCaseKey entry.1) entry.2) result) := by
    intro entries
    induction entries with
    | nil => exact fun _ _ fine => fine
    | cons entry rest ih =>
      intro result entries fine
      obtain ⟨here,later⟩ := List.forall_mem_cons.mp entries
      refine ih _ later fun other found same => ?_
      rcases Dict.mem_set found with rfl | old
      · exact here same
      · exact fine other old same
  exact fold _ [] listed fun entry found => absurd found List.not_mem_nil

omit [JSONEncoder] in
theorem numeric_jsonFields (all : Numeric keyed name data) (read : jsonFields data = some data') :
    Numeric keyed name data' := by
  induction data generalizing data' with
  | nil =>
    obtain rfl := Option.some.inj read
    exact all
  | cons entry rest ih =>
    obtain ⟨here,later⟩ := List.forall_mem_cons.mp all
    simp only [jsonFields,bind,pure,Option.bind_eq_some_iff,Option.some.injEq] at read
    obtain ⟨value,kept,others,tail,rfl⟩ := read
    refine List.forall_mem_cons.mpr ⟨fun same => ?_,ih later tail⟩
    have number := here same
    obtain ⟨key,json⟩ := entry
    cases json with
    | int n => exact LawfulFoundation.number_isNumber _ _ kept
    | float text zero => exact LawfulFoundation.number_isNumber _ _ kept
    | _ => cases number

omit [JSONEncoder] in
/-- A number is no date for a decoder that reads texts. -/
theorem not_reads_date {date : Date} (all : Numeric convertFromSnakeCase name data) :
    ¬ Reads readDate data name date := by
  rintro ⟨json,found,read⟩
  obtain ⟨entry,first,rfl⟩ := Option.map_eq_some_iff.mp found
  have listed := (LawfulFoundation.listing_perm data).mem_iff.mp (List.mem_of_find?_eq_some first)
  have number := all entry listed (by simpa using List.find?_some first)
  obtain ⟨key,json⟩ := entry
  cases json with
  | int n => cases read
  | float text zero => cases read
  | _ => cases number

omit [JSONEncoder] in
theorem decodeEntity_none (type : Reader.SyncEntityType)
    (all : Numeric convertFromSnakeCase "createdAt" data) : decodeEntity type data = none := by
  cases type with
  | session => rfl
  | source =>
    refine Option.map_eq_none_iff.mpr (Option.eq_none_iff_forall_ne_some.mpr fun row read => ?_)
    exact not_reads_date all (decodeSource_eq_some.mp read).createdAt
  | readerItem =>
    refine Option.map_eq_none_iff.mpr (Option.eq_none_iff_forall_ne_some.mpr fun row read => ?_)
    exact not_reads_date all (decodeReaderItem_eq_some.mp read).createdAt
  | highlight =>
    refine Option.map_eq_none_iff.mpr (Option.eq_none_iff_forall_ne_some.mpr fun row read => ?_)
    exact not_reads_date all (decodeHighlight_eq_some.mp read).createdAt
  | note =>
    refine Option.map_eq_none_iff.mpr (Option.eq_none_iff_forall_ne_some.mpr fun row read => ?_)
    exact not_reads_date all (decodeNote_eq_some.mp read).createdAt

/-- No record is decoded from the data it was pushed with. -/
theorem received_none (entity : Entity) : received entity = none := by
  have sent : Numeric convertFromSnakeCase "createdAt" (operationData entity) :=
    numeric_snakeCaseKeys (numeric_snakeCaseFields (numeric_encodeEntity entity))
  cases read : jsonFields (operationData entity) with
  | none => rw [received,read,Option.bind_none]
  | some data =>
    rw [received,read,Option.bind_some,decodeEntity_none _ (numeric_jsonFields sent read)]

/-- No record of any table makes the round trip. -/
theorem not_roundTrips (entity : Entity) : ¬ RoundTrips entity := by
  rw [RoundTrips,received_none]
  exact fun lost => by cases lost

end Keys

namespace PlainCodec

scoped instance foundation : Foundation where
  lowercased := List.map Text.asciiLower
  capitalized
    | [] => []
    | c :: rest => Text.asciiUpper c :: rest.map Text.asciiLower
  number json := if isNumber json then some json else none
  integer
    | .int value => some value
    | _ => none
  date _ := none
  base64 _ := none
  listing data := data

scoped instance lawful : LawfulFoundation where
  listing_perm _ := .refl _
  lowercased_ascii _ _ := rfl
  capitalized_ascii _ _ _ := rfl
  number_isNumber json kept read := by
    obtain ⟨number,rfl⟩ := Option.ite_none_right_eq_some.mp read |>.imp_right Option.some.inj
    exact number

scoped instance encoder : JSONEncoder where
  date date := ⟨.int (date / 1000 - 978307200),rfl⟩
  base64 _ := []

end PlainCodec

section Page

open scoped PlainCodec

def nilUUID : UUID := ⟨List.replicate 32 (Fin.last 15).rev,List.length_replicate⟩

def readPage : Source where
  id := nilUUID
  type := .web
  title := "A page".toList
  createdAt := 1726099200000

/-- The date of the page arrives as a number, under the name it was sent with, and is not
read. -/
theorem readPage_lost :
    ((jsonFields (operationData (.source readPage))).bind fun data =>
        (field data "createdAt").map isNumber) = some true ∧
      ¬ RoundTrips (.source readPage) := by
  refine ⟨by decide +kernel,fun arrived => ?_⟩
  have lost : (received (.source readPage)).isNone = true := by decide +kernel
  rw [arrived] at lost
  cases lost

theorem not_roundTrips_readPage : ¬ RoundTrips (.source readPage) :=
  not_roundTrips (.source readPage)

end Page

end LocalBook.ReadFlow
