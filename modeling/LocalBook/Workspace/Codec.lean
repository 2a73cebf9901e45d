import LocalBook.Workspace.Store

/-! The codec of the editor: how the bytes of a file become the text of a session, and how the
text becomes bytes again when it is saved. Base64 fields are the bytes they stand for. -/
namespace LocalBook.Workspace

/-- `\ufeff`. -/
def byteOrderMark : Char := Char.ofNat 0xfeff

/-- `bytes[0] === 0xef && bytes[1] === 0xbb && bytes[2] === 0xbf`. -/
def hasBom (bytes : Bytes) : Bool := bytes.data.toList.take 3 = [0xef,0xbb,0xbf]

/-- `new TextDecoder("utf-8", { fatal: true }).decode(bytes)`, which drops a mark of its own. -/
def textDecode (bytes : Bytes) : Option Text :=
  decodeUtf8 (if hasBom bytes then bytes.extract 3 bytes.size else bytes)

def fromBase64 (bytes : Bytes) : Option Text :=
  (textDecode (if hasBom bytes then bytes.extract 3 bytes.size else bytes)).map fun decoded =>
    if hasBom bytes then byteOrderMark :: decoded else decoded

inductive LineSeparator where
  | crlf
  | lf
  | cr
deriving DecidableEq

namespace LineSeparator

def text : LineSeparator → Text
  | crlf => ['\r','\n']
  | lf => ['\n']
  | cr => ['\r']

end LineSeparator

def detectLineSeparator (content : Text) : LineSeparator :=
  if ['\r','\n'] <:+: content then .crlf
  else if '\r' ∈ content then .cr
  else .lf

/-- `content.replace(/\r\n|\r/g, '\n')`. -/
def normalizeLines : Text → Text
  | '\r' :: '\n' :: rest => '\n' :: normalizeLines rest
  | '\r' :: rest => '\n' :: normalizeLines rest
  | c :: rest => c :: normalizeLines rest
  | [] => []

/-- `content.replace(/\n/g, separator)`. -/
def restoreLines (separator : LineSeparator) (content : Text) : Text :=
  content.flatMap fun c => if c = '\n' then separator.text else [c]

def toBase64 (value : Text) (lineSeparator : LineSeparator) (hasBOM : Bool) : Bytes :=
  let content := restoreLines lineSeparator value
  encodeUtf8 (if hasBOM then byteOrderMark :: content else content)

/-- `WorkspaceError`, as the codec raises it. -/
structure DecodeError where
  kind : Text
  code : Text
  message : Text
  path : Path
deriving DecidableEq

/-- What `decodeFileContent` fills of an `EditorSession`. -/
structure Opened where
  content : Text
  encoding : Encoding
  lineSeparator : LineSeparator
  hasBOM : Bool
  error : Option DecodeError
deriving DecidableEq

def decodeFileContent (contentBase64 : Bytes) (path : Path) : Opened :=
  match fromBase64 contentBase64 with
  | some content =>
    let hasBOM := content.head? = some byteOrderMark
    let cleanContent := if hasBOM then content.drop 1 else content
    ⟨normalizeLines cleanContent,.utf8,detectLineSeparator cleanContent,hasBOM,none⟩
  | none =>
    ⟨[],.invalidUtf8,.lf,false,
      some ⟨"decode".toList,"invalid_utf8".toList,
        "File is not valid UTF-8 and is read-only".toList,path⟩⟩

/-! ### Line ends -/

def lineEnds : Text → List LineSeparator
  | '\r' :: '\n' :: rest => .crlf :: lineEnds rest
  | '\r' :: rest => .cr :: lineEnds rest
  | '\n' :: rest => .lf :: lineEnds rest
  | _ :: rest => lineEnds rest
  | [] => []

def Uniform (text : Text) : Prop := ∀ e ∈ lineEnds text,∀ f ∈ lineEnds text,e = f

theorem crlf_mem_lineEnds (text : Text) : .crlf ∈ lineEnds text ↔ ['\r','\n'] <:+: text := by
  fun_induction lineEnds text with
  | case1 rest ih => simp [List.infix_cons_iff]
  | case2 rest bare ih =>
    have apart : ¬['\n'] <+: rest := fun ⟨tail,begins⟩ => bare tail begins.symm
    simp [ih,List.infix_cons_iff,apart]
  | case3 rest ih => simp [List.infix_cons_iff,ih]
  | case4 c rest bare notReturn notFeed ih => grind [List.infix_cons_iff]
  | case5 => simp

theorem return_mem_of_cr (text : Text) (bare : ¬['\r','\n'] <:+: text) :
    .cr ∈ lineEnds text ↔ '\r' ∈ text := by
  fun_induction lineEnds text with
  | case1 rest ih => simp [List.infix_cons_iff] at bare
  | case2 rest lone ih => simp
  | case3 rest ih => simpa using ih fun found => bare (List.infix_cons found)
  | case4 c rest _ notReturn notFeed ih =>
    have other : c ≠ '\r' := by grind
    simpa [other.symm] using ih fun found => bare (List.infix_cons found)
  | case5 => simp

theorem detect_mem (text : Text) (ended : lineEnds text ≠ []) :
    detectLineSeparator text ∈ lineEnds text := by
  unfold detectLineSeparator
  split
  · next found => exact (crlf_mem_lineEnds text).mpr found
  · next bare =>
    split
    · next found => exact (return_mem_of_cr text bare).mpr found
    · next unfound =>
      obtain ⟨e,member⟩ := List.exists_mem_of_ne_nil _ ended
      cases e with
      | crlf => exact absurd ((crlf_mem_lineEnds text).mp member) bare
      | lf => exact member
      | cr => exact absurd ((return_mem_of_cr text bare).mp member) unfound

theorem uniform_iff (text : Text) :
    Uniform text ↔ ∀ e ∈ lineEnds text,e = detectLineSeparator text := by
  constructor
  · intro uniform e member
    exact uniform e member _ (detect_mem text (List.ne_nil_of_mem member))
  · intro detected e memberE f memberF
    exact (detected e memberE).trans (detected f memberF).symm

/-! ### The round trip -/

section Restoring

variable (separator : LineSeparator)

@[simp] theorem restoreLines_nil : restoreLines separator [] = [] := rfl

@[simp] theorem restoreLines_feed (rest : Text) : restoreLines separator ('\n' :: rest) =
    separator.text ++ restoreLines separator rest := by simp [restoreLines]

theorem restoreLines_cons (rest : Text) {c : Char} (plain : c ≠ '\n') :
    restoreLines separator (c :: rest) = c :: restoreLines separator rest := by
  simp [restoreLines,plain]

@[simp] theorem restoreLines_append (a b : Text) :
    restoreLines separator (a ++ b) = restoreLines separator a ++ restoreLines separator b := by
  simp [restoreLines]

end Restoring

theorem feed_not_mem_restore (text : Text) : '\n' ∉ restoreLines .cr text := by
  intro found
  obtain ⟨c,_,member⟩ := List.mem_flatMap.mp found
  by_cases feed : c = '\n'
  · simp [feed,LineSeparator.text] at member
  · simp [feed,eq_comm] at member

theorem return_not_mem_normalize (text : Text) : '\r' ∉ normalizeLines text := by
  fun_induction normalizeLines text with
  | case1 rest ih => simpa using ih
  | case2 rest _ ih => simpa using ih
  | case3 c rest _ other ih =>
    have ne : '\r' ≠ c := by grind
    simpa [ne] using ih
  | case4 => simp

theorem restore_normalize_iff (separator : LineSeparator) (text : Text) :
    restoreLines separator (normalizeLines text) = text ↔ ∀ e ∈ lineEnds text,e = separator := by
  fun_induction lineEnds text with
  | case1 rest ih =>
    simp only [normalizeLines,restoreLines_feed]
    cases separator with
    | crlf => simpa [LineSeparator.text] using ih
    | lf => simp [LineSeparator.text]
    | cr =>
      have feedless := feed_not_mem_restore (normalizeLines rest)
      have unlike : restoreLines .cr (normalizeLines rest) ≠ '\n' :: rest := by
        intro same
        simp [same] at feedless
      simpa [LineSeparator.text] using unlike
  | case2 rest bare ih =>
    simp only [normalizeLines,restoreLines_feed]
    cases separator with
    | crlf =>
      have unlike : '\n' :: restoreLines .crlf (normalizeLines rest) ≠ rest :=
        fun same => bare _ same.symm
      simpa [LineSeparator.text] using unlike
    | lf => simp [LineSeparator.text]
    | cr => simpa [LineSeparator.text] using ih
  | case3 rest ih =>
    have kept : normalizeLines ('\n' :: rest) = '\n' :: normalizeLines rest := by
      simp [normalizeLines]
    cases separator <;> simp [kept,LineSeparator.text,ih]
  | case4 c rest bare notReturn notFeed ih =>
    have kept : normalizeLines (c :: rest) = c :: normalizeLines rest := by
      simp [normalizeLines]
    have plain : c ≠ '\n' := by grind
    simpa [kept,restoreLines_cons separator _ plain] using ih
  | case5 => simp [normalizeLines]

theorem normalize_return (rest : Text) (bare : '\n' ∉ rest) :
    normalizeLines ('\r' :: rest) = '\n' :: normalizeLines rest := by
  cases rest with
  | nil => rfl
  | cons c rest =>
    have ne : c ≠ '\n' := fun same => bare (same ▸ List.mem_cons_self)
    simp [normalizeLines,ne]

theorem normalize_restore (separator : LineSeparator) (text : Text) (plain : '\r' ∉ text) :
    normalizeLines (restoreLines separator text) = text := by
  induction text with
  | nil => simp [normalizeLines]
  | cons c rest ih =>
    have ih := ih fun found => plain (List.mem_cons_of_mem c found)
    by_cases feed : c = '\n'
    · subst feed
      cases separator with
      | crlf => simp [LineSeparator.text,normalizeLines,ih]
      | lf => simp [LineSeparator.text,normalizeLines,ih]
      | cr =>
        have step := normalize_return _ (feed_not_mem_restore rest)
        simpa [LineSeparator.text,ih] using step
    · have ne : c ≠ '\r' := fun same => plain (same ▸ List.mem_cons_self)
      simp [restoreLines_cons separator _ feed,normalizeLines,ne,ih]

/-! ### The byte-order mark -/

@[simp] theorem encodeUtf8_append (a b : Text) :
    encodeUtf8 (a ++ b) = encodeUtf8 a ++ encodeUtf8 b := by
  simp [encodeUtf8,String.toByteArray_ofList]

theorem encodeUtf8_injective {a b : Text} (same : encodeUtf8 a = encodeUtf8 b) : a = b := by
  have decoded := congrArg decodeUtf8 same
  simpa using decoded

theorem encodeUtf8_mark : encodeUtf8 [byteOrderMark] = ⟨#[0xef,0xbb,0xbf]⟩ := by decide +kernel

@[simp] theorem hasBom_marked (text : Text) :
    hasBom (encodeUtf8 (byteOrderMark :: text)) = true := by
  have apart : encodeUtf8 (byteOrderMark :: text) = ⟨#[0xef,0xbb,0xbf]⟩ ++ encodeUtf8 text := by
    simpa [encodeUtf8_mark] using encodeUtf8_append [byteOrderMark] text
  simp [hasBom,apart]

theorem marked_of_hasBom (text : Text) (found : hasBom (encodeUtf8 text) = true) :
    ∃ rest,text = byteOrderMark :: rest := by
  have split : encodeUtf8 text =
      encodeUtf8 [byteOrderMark] ++ (encodeUtf8 text).extract 3 (encodeUtf8 text).size := by
    simp only [hasBom,decide_eq_true_eq] at found
    rw [encodeUtf8_mark]
    have full : List.take ((encodeUtf8 text).size - 3) ((encodeUtf8 text).data.toList.drop 3) =
        (encodeUtf8 text).data.toList.drop 3 :=
      List.take_of_length_le (by simp)
    have whole : (encodeUtf8 text).data.toList = [0xef,0xbb,0xbf] ++
        List.take ((encodeUtf8 text).size - 3) ((encodeUtf8 text).data.toList.drop 3) := by
      rw [full,← found]
      exact (List.take_append_drop 3 _).symm
    apply ByteArray.ext
    apply Array.ext'
    simpa using whole
  have valid : ([byteOrderMark].utf8Encode ++
      (encodeUtf8 text).extract 3 (encodeUtf8 text).size).IsValidUTF8 := by
    refine ⟨text,?_⟩
    simpa [encodeUtf8,String.toByteArray_ofList] using split.symm
  obtain ⟨rest,spelt⟩ := ByteArray.isValidUTF8_utf8Encode_singleton_append_iff.mp valid
  refine ⟨rest,encodeUtf8_injective ?_⟩
  rw [split,spelt,show byteOrderMark :: rest = [byteOrderMark] ++ rest from rfl,encodeUtf8_append]
  simp [encodeUtf8,String.toByteArray_ofList]

theorem drop_mark (text : Text) : (encodeUtf8 (byteOrderMark :: text)).extract 3
    (encodeUtf8 (byteOrderMark :: text)).size = encodeUtf8 text := by
  have apart := encodeUtf8_append [byteOrderMark] text
  rw [encodeUtf8_mark,List.singleton_append] at apart
  rw [apart]
  exact ByteArray.extract_append_eq_right rfl (by simp)

theorem textDecode_marked (text : Text) :
    textDecode (encodeUtf8 (byteOrderMark :: text)) = some text := by
  simp [textDecode,drop_mark]

theorem hasBom_unmarked (text : Text) (plain : text.head? ≠ some byteOrderMark) :
    hasBom (encodeUtf8 text) = false := by
  apply Bool.eq_false_iff.mpr
  intro found
  obtain ⟨rest,rfl⟩ := marked_of_hasBom text found
  simp at plain

theorem textDecode_unmarked (text : Text) (plain : text.head? ≠ some byteOrderMark) :
    textDecode (encodeUtf8 text) = some text := by
  simp [textDecode,hasBom_unmarked text plain]

/-! ### What is kept of a file -/

namespace Opened

/-- What a save of the session sends when its text is `content`. -/
def encoded (opened : Opened) (content : Text) : Bytes :=
  toBase64 content opened.lineSeparator opened.hasBOM

def mark (opened : Opened) : Bytes :=
  if opened.hasBOM then encodeUtf8 [byteOrderMark] else ByteArray.empty

theorem encoded_eq (opened : Opened) (content : Text) : opened.encoded content =
    opened.mark ++ encodeUtf8 (restoreLines opened.lineSeparator content) := by
  cases marked : opened.hasBOM with
  | true =>
    have apart := encodeUtf8_append [byteOrderMark] (restoreLines opened.lineSeparator content)
    simpa [encoded,toBase64,mark,marked] using apart
  | false => simp [encoded,toBase64,mark,marked]

end Opened

/-- The file comes back from the editor as it was, and the replacement of a part of the text
leaves alone the bytes that stand for what is before and after the part. -/
structure Preserved (file : Bytes) (opened : Opened) : Prop where
  roundTrip : opened.encoded opened.content = file
  edits : ∀ before span after,opened.content = before ++ span ++ after →
    ∃ head middle tail,
      file = opened.mark ++ encodeUtf8 head ++ encodeUtf8 middle ++ encodeUtf8 tail ∧
      normalizeLines head = before ∧ normalizeLines middle = span ∧ normalizeLines tail = after ∧
      ∀ replacement,∃ new,opened.encoded (before ++ replacement ++ after) =
        opened.mark ++ encodeUtf8 head ++ new ++ encodeUtf8 tail

/-- At most one mark stands at the start, and the line ends are of one kind. -/
def Codable (text : Text) : Prop := ¬[byteOrderMark,byteOrderMark] <+: text ∧ Uniform text

@[simp] theorem lineEnds_marked (text : Text) :
    lineEnds (byteOrderMark :: text) = lineEnds text := by
  simp [lineEnds,byteOrderMark]

theorem normalize_cons (text : Text) {c : Char} (plain : c ≠ '\r') :
    normalizeLines (c :: text) = c :: normalizeLines text := by
  simp [normalizeLines,plain]

theorem normalize_ended (rest : Text) {c : Char} (ended : c = '\r' ∨ c = '\n') :
    ∃ behind,normalizeLines (c :: rest) = '\n' :: behind := by
  rcases ended with rfl | rfl
  · unfold normalizeLines
    split <;> grind
  · simp [normalizeLines]

/-- A lost mark is not made up for: the text behind it would have to begin with the same mark,
and so would what is behind that. -/
theorem restore_ne_marked (separator : LineSeparator) (text : Text) :
    restoreLines separator (normalizeLines text) ≠ byteOrderMark :: text := by
  intro same
  induction text with
  | nil => simp [normalizeLines] at same
  | cons c rest ih =>
    by_cases marked : c = byteOrderMark
    · subst marked
      have plain : byteOrderMark ≠ '\n' := by decide
      rw [normalize_cons _ (by decide),restoreLines_cons separator _ plain] at same
      exact ih (List.cons.inj same).2
    · by_cases ended : c = '\r' ∨ c = '\n'
      · obtain ⟨behind,begins⟩ := normalize_ended rest ended
        rw [begins,restoreLines_feed] at same
        have first := congrArg List.head? same
        revert first
        cases separator <;> simp [LineSeparator.text] <;> decide
      · push Not at ended
        rw [normalize_cons _ ended.1,restoreLines_cons separator _ ended.2] at same
        exact marked (List.cons.inj same).1

/-- What is opened of a file whose text, without its mark, is `clean`. -/
def openedAs (clean : Text) (hasBOM : Bool) : Opened :=
  ⟨normalizeLines clean,.utf8,detectLineSeparator clean,hasBOM,none⟩

section Decoding

variable (text : Text) (path : Path)

theorem decode_twiceMarked :
    decodeFileContent (encodeUtf8 (byteOrderMark :: byteOrderMark :: text)) path =
      openedAs text true := by
  simp [decodeFileContent,fromBase64,drop_mark,textDecode_marked,openedAs]

theorem decode_marked (plain : text.head? ≠ some byteOrderMark) :
    decodeFileContent (encodeUtf8 (byteOrderMark :: text)) path = openedAs text true := by
  simp [decodeFileContent,fromBase64,drop_mark,textDecode_unmarked text plain,openedAs]

theorem decode_unmarked (plain : text.head? ≠ some byteOrderMark) :
    decodeFileContent (encodeUtf8 text) path = openedAs text false := by
  simp [decodeFileContent,fromBase64,hasBom_unmarked text plain,textDecode_unmarked text plain,
    openedAs,plain]

end Decoding

theorem encoded_iff (clean : Text) (hasBOM : Bool) :
    (openedAs clean hasBOM).encoded (openedAs clean hasBOM).content =
      (openedAs clean hasBOM).mark ++ encodeUtf8 clean ↔ Uniform clean := by
  rw [Opened.encoded_eq,ByteArray.append_right_inj,uniform_iff,← restore_normalize_iff]
  exact ⟨encodeUtf8_injective,congrArg encodeUtf8⟩

theorem preserved_of_uniform (clean : Text) (hasBOM : Bool) (uniform : Uniform clean) :
    Preserved ((openedAs clean hasBOM).mark ++ encodeUtf8 clean) (openedAs clean hasBOM) where
  roundTrip := (encoded_iff clean hasBOM).mpr uniform
  edits before span after split := by
    have kept := (restore_normalize_iff _ _).mpr ((uniform_iff clean).mp uniform)
    have plain := return_not_mem_normalize clean
    change normalizeLines clean = before ++ span ++ after at split
    simp only [split,List.mem_append,not_or] at plain
    let restored := restoreLines (detectLineSeparator clean)
    have spelt : ∀ part,'\r' ∉ part → normalizeLines (restored part) = part :=
      normalize_restore _
    refine ⟨restored before,restored span,restored after,?_,spelt _ plain.1.1,spelt _ plain.1.2,
      spelt _ plain.2,fun replacement => ⟨encodeUtf8 (restored replacement),?_⟩⟩
    · have whole : restored before ++ restored span ++ restored after = clean := by
        simpa [split] using kept
      simp [← whole,ByteArray.append_assoc]
    · simp [Opened.encoded_eq,openedAs,ByteArray.append_assoc,restored]

theorem mark_append (clean : Text) (hasBOM : Bool) :
    (openedAs clean hasBOM).mark ++ encodeUtf8 clean =
      encodeUtf8 (if hasBOM then byteOrderMark :: clean else clean) := by
  cases hasBOM with
  | true => exact (encodeUtf8_append [byteOrderMark] clean).symm
  | false => simp [Opened.mark,openedAs]

theorem preserved_iff_uniform (clean : Text) (hasBOM : Bool) :
    Preserved (encodeUtf8 (if hasBOM then byteOrderMark :: clean else clean))
      (openedAs clean hasBOM) ↔ Uniform clean := by
  rw [← mark_append]
  constructor
  · intro preserved
    exact (encoded_iff clean hasBOM).mp preserved.roundTrip
  · exact preserved_of_uniform clean hasBOM

theorem not_preserved_twiceMarked (text : Text) :
    ¬Preserved (encodeUtf8 (byteOrderMark :: byteOrderMark :: text)) (openedAs text true) := by
  intro preserved
  have back := preserved.roundTrip
  rw [Opened.encoded_eq,show byteOrderMark :: byteOrderMark :: text =
    [byteOrderMark] ++ byteOrderMark :: text from rfl,encodeUtf8_append] at back
  have same := encodeUtf8_injective (ByteArray.append_right_inj _ |>.mp back)
  exact restore_ne_marked _ text same

/-- A file in UTF-8 is preserved if and only if it has at most one mark at its start and line
ends of one kind. -/
theorem preserved_iff (file : Bytes) (text : Text) (path : Path)
    (valid : decodeUtf8 file = some text) :
    Preserved file (decodeFileContent file path) ↔ Codable text := by
  rw [← encodeUtf8_of_decodeUtf8 valid]
  by_cases marked : text.head? = some byteOrderMark
  · obtain ⟨clean,rfl⟩ := List.head?_eq_some_iff.mp marked
    by_cases twice : clean.head? = some byteOrderMark
    · obtain ⟨rest,rfl⟩ := List.head?_eq_some_iff.mp twice
      rw [decode_twiceMarked]
      simpa [Codable] using not_preserved_twiceMarked rest
    · have once : ¬[byteOrderMark,byteOrderMark] <+: byteOrderMark :: clean := by
        rintro ⟨rest,spelt⟩
        exact twice (congrArg List.head? (List.cons.inj spelt).2).symm
      rw [decode_marked clean path twice]
      simpa [Codable,once,Uniform] using preserved_iff_uniform clean true
  · have unmarked : ¬[byteOrderMark,byteOrderMark] <+: text := by
      rintro ⟨rest,spelt⟩
      exact marked (congrArg List.head? spelt).symm
    rw [decode_unmarked text path marked]
    simpa [Codable,unmarked] using preserved_iff_uniform text false

def markedFile : Text := byteOrderMark :: "a\r\nb\r\n".toList

theorem markedFile_preserved :
    Preserved (encodeUtf8 markedFile) (decodeFileContent (encodeUtf8 markedFile) []) :=
  (preserved_iff _ markedFile [] (decodeUtf8_encodeUtf8 _)).mpr (by
    constructor
    · decide
    · unfold Uniform
      decide)

def mixedFile : Text := "a\r\nb\nc".toList

theorem mixedFile_altered : ¬∀ (file : Bytes) (text : Text) (path : Path),
    decodeUtf8 file = some text → Preserved file (decodeFileContent file path) := by
  intro every
  have back := (every _ mixedFile [] (decodeUtf8_encodeUtf8 _)).roundTrip
  rw [decode_unmarked mixedFile [] (by decide),Opened.encoded_eq] at back
  have same := congrArg ByteArray.size back
  revert same
  decide +kernel

end LocalBook.Workspace
