import LocalBook.Markdown.Wikilinks
import LocalBook.Rag.Chunks
import LocalBook.Spans

/-! The Markdown chunker. Blocks are found line by line, packed up to an estimate of their tokens,
and cut at sentences where one of them is too large. -/
namespace LocalBook.Rag.Chunking

open Patches (splitLines isBlank lf cr slice)

/-! Estimates -/

def isCjk (c : Char) : Bool :=
  let n := c.val
  (0x3040 ≤ n && n ≤ 0x30FF) || (0x3400 ≤ n && n ≤ 0x4DBF) || (0x4E00 ≤ n && n ≤ 0x9FFF) ||
    (0xAC00 ≤ n && n ≤ 0xD7AF) || (0xF900 ≤ n && n ≤ 0xFAFF) || (0x20000 ≤ n && n ≤ 0x2FA1F)

/-- A character of a latin run. -/
def runs (c : Char) : Bool := c.isAlphanum || c = '_' || c = '-' || c = Char.ofNat 39

def weight (c : Char) : Nat := if isCjk c then 1 else if Text.isSpace c then 0 else 1

def pendingRun (run : Bool) : Nat := if run then 1 else 0

/-- The loop of `estimate_tokens`. -/
def estimateFrom (run : Bool) : Text → Nat
  | [] => pendingRun run
  | c :: rest =>
    if Text.isAscii c then
      if runs c then estimateFrom true rest else pendingRun run + estimateFrom false rest
    else pendingRun run + weight c + estimateFrom false rest

def estimateTokens (text : Text) : Nat := estimateFrom false text

/-! Lines -/

def withoutLf (line : Text) : Text := if line.getLast? = some lf then line.dropLast else line

def unindented (line : Text) : Option Text :=
  if (line.takeWhile isBlank).length ≤ 3 then some (line.dropWhile isBlank) else none

/-- The groups of `_FENCE_RE`. -/
structure Fence where
  marker : Char
  depth : Nat
  info : Text

/-- `_FENCE_RE.match`. -/
def fenceOf (line : Text) : Option Fence :=
  (unindented line).bind fun rest => rest.head?.bind fun c =>
    let depth := (rest.takeWhile (· = c)).length
    if (c = Wikilinks.tick ∨ c = '~') ∧ 3 ≤ depth then
      some ⟨c,depth,withoutLf (rest.drop depth)⟩
    else none

/-- `_HEADING_RE.match`: the level and the title. -/
def headingOf (line : Text) : Option (Nat × Text) :=
  (unindented line).bind fun rest =>
    let level := (rest.takeWhile (· = '#')).length
    let title := withoutLf (rest.drop level)
    if 1 ≤ level ∧ level ≤ 6 ∧ title.head?.all isBlank then some (level,Text.strip title) else none

/-- `_TABLE_ROW_RE.match`. -/
def isTableRow (line : Text) : Bool :=
  match unindented (withoutLf line) with
  | some ('|' :: rest) => (Text.rstripBy isBlank rest).getLast? = some '|'
  | _ => false

/-- `_QUOTE_RE.match`. -/
def isQuote (line : Text) : Bool := (unindented line).bind List.head? = some '>'

/-- `_body_offset`. -/
def bodyOffset (text : Text) : Nat :=
  if Text.startsWith text "---".toList then
    match splitLines text with
    | [] => 0
    | first :: rest =>
      if Text.strip first ≠ "---".toList then 0
      else
        match rest.findIdx? fun line => Text.strip line = "---".toList with
        | none => 0
        | some n => first.length + (rest.take (n + 1)).flatten.length
  else 0

/-! Blocks -/

inductive Kind where
  | heading
  | code
  | table
  | text
deriving DecidableEq

def Kind.whole (kind : Kind) : Bool := kind = .code || kind = .table

/-- A `_Segment`. -/
structure Segment where
  kind : Kind
  text : Text
  start : Nat
  stop : Nat
  heading : Option Text := none
  headingPath : Text := []
  headingLevel : Nat := 0
deriving DecidableEq

def Segment.span (segment : Segment) : Span := ⟨segment.start,segment.stop⟩

/-- `_breadcrumb`. -/
def breadcrumb (stack : List (Nat × Text)) : Text :=
  Text.join " > ".toList ((stack.map Prod.snd).filter (· ≠ []))

/-- The block of a stretch of the text under the headings of the stack. -/
def segment (text : Text) (stack : List (Nat × Text)) (kind : Kind) (start stop : Nat) :
    Segment where
  kind := kind
  text := slice text start stop
  start := start
  stop := stop
  heading := stack.getLast?.map Prod.snd
  headingPath := breadcrumb stack
  headingLevel := (stack.getLast?.map Prod.fst).getD 0

/-- The lines of a paragraph so far. Of their kinds only the quotes are told apart. -/
structure Pending where
  quote : Bool
  start : Nat
  stop : Nat

/-- `flush_text`. -/
def flushText (text : Text) (stack : List (Nat × Text)) : Option Pending → List Segment
  | none => []
  | some pending =>
    if Text.strip (slice text pending.start pending.stop) = [] then []
    else [segment text stack .text pending.start pending.stop]

def fenced (opening : Fence) : List Text → List Text × List Text
  | [] => ([],[])
  | line :: rest =>
    let closes := (fenceOf line).any fun closing =>
      closing.marker = opening.marker && opening.depth ≤ closing.depth &&
        Text.strip closing.info = []
    if closes then ([line],rest)
    else (line :: (fenced opening rest).1,(fenced opening rest).2)

/-- The rows of a table, with the blank lines between them, and the other lines. -/
def rows : List Text → List Text × List Text
  | [] => ([],[])
  | line :: rest =>
    if isTableRow line ∨ (Text.strip line = [] ∧ rest.head?.any isTableRow) then
      (line :: (rows rest).1,(rows rest).2)
    else ([],line :: rest)

/-- The loop of `_segments`, at a line that stands at the offset. -/
def scan (text : Text) : Nat → List Text → Nat → List (Nat × Text) → Option Pending → List Segment
  | 0,_,_,stack,pending | _ + 1,[],_,stack,pending => flushText text stack pending
  | fuel + 1,line :: rest,offset,stack,pending =>
    let next := offset + line.length
    match (fenceOf line).filter fun _ => ¬ Text.startsWith (Text.strip line) "    ".toList with
    | some fence =>
      let stop := next + (fenced fence rest).1.flatten.length
      flushText text stack pending ++ segment text stack .code offset stop ::
        scan text fuel (fenced fence rest).2 stop stack none
    | none =>
      match headingOf line with
      | some (level,title) =>
        let nested := stack.rdropWhile (fun outer => level ≤ outer.1) ++ [(level,title)]
        flushText text stack pending ++
          {kind := .heading
           text := line
           start := offset
           stop := next
           heading := if title = [] then none else some title
           headingPath := breadcrumb nested
           headingLevel := level} :: scan text fuel rest next nested none
      | none =>
        if isTableRow line then
          let stop := offset + (rows (line :: rest)).1.flatten.length
          flushText text stack pending ++ segment text stack .table offset stop ::
            scan text fuel (rows (line :: rest)).2 stop stack none
        else if Text.strip line = [] then
          flushText text stack pending ++ scan text fuel rest next stack none
        else
          let quote := isQuote line
          match pending.filter fun before => before.quote || !quote with
          | some before => scan text fuel rest next stack (some ⟨quote,before.start,next⟩)
          | none => flushText text stack pending ++
              scan text fuel rest next stack (some ⟨quote,offset,next⟩)

def bodyLines (start : Nat) : List Text → Nat → List Text × Nat
  | [],offset => ([],offset)
  | line :: rest,offset =>
    if offset < start then bodyLines start rest (offset + line.length) else (line :: rest,offset)

/-- `_segments`. -/
def segments (text : Text) : List Segment :=
  let body := bodyLines (bodyOffset text) (splitLines text) 0
  scan text body.1.length body.1 body.2 [] none

/-! Packing -/

structure Limits where
  targetTokens : Nat
  maxTokens : Nat
  positive : 1 ≤ targetTokens
  ordered : targetTokens ≤ maxTokens

/-- `MarkdownChunker.__init__`. -/
def Limits.of (target max' : Int) : Limits where
  targetTokens := max 1 target.toNat
  maxTokens := max (max 1 target.toNat) max'.toNat
  positive := le_max_left _ _
  ordered := le_max_left _ _

structure Groups where
  done : List (List Segment) := []
  current : List Segment := []
  tokens : Nat := 0

namespace Groups

def close (groups : Groups) : Groups :=
  if groups.current = [] then groups else {done := groups.done ++ [groups.current]}

def push (groups : Groups) (segment : Segment) (tokens : Nat) : Groups :=
  {groups with current := groups.current ++ [segment],tokens := groups.tokens + tokens}

def closeIf (groups : Groups) (closes : Prop) [Decidable closes] : Groups :=
  if closes then groups.close else groups

end Groups

def endsSentence (c : Char) : Bool := c ∈ "。！？；!?;\n".toList

/-- `_SENTENCE_RE.split`, without the empty pieces. -/
def sentences : Text → List Text
  | [] => []
  | c :: rest =>
    if endsSentence c ∨ (c = '.' ∧ rest.head?.any Text.isSpace) then [c] :: sentences rest
    else
      match sentences rest with
      | piece :: others => (c :: piece) :: others
      | [] => [[c]]

/-- `text[i:i + 400]` at every 400th place. -/
def hardPieces (text : Text) : List Text :=
  (List.range ((text.length + 399) / 400)).map fun n => slice text (400 * n) (400 * n + 400)

/-- `_sentence_pieces`. -/
def sentencePieces (text : Text) : List Text :=
  if (sentences text).length ≤ 1 ∧ 1 < text.length then hardPieces text else sentences text

def Segment.part (segment : Segment) (piece : Text) (offset : Nat) : Segment :=
  {segment with text := piece,start := offset,stop := offset + piece.length}

/-- The loop of `_split_segment`, at a piece that stands at the offset. -/
def splitPieces (limits : Limits) (segment : Segment) :
    List Text → Nat → Groups → List (List Segment)
  | [],_,groups => groups.close.done
  | piece :: rest,offset,groups =>
    let tokens := estimateTokens piece
    let room := groups.closeIf (limits.targetTokens < groups.tokens + tokens)
    let filled := room.push (segment.part piece offset) tokens
    splitPieces limits segment rest (offset + piece.length)
      (filled.closeIf (limits.maxTokens ≤ filled.tokens))

/-- `_split_segment`. -/
def splitSegment (limits : Limits) (segment : Segment) : List (List Segment) :=
  if segment.kind.whole then [[segment]]
  else splitPieces limits segment (sentencePieces segment.text) segment.start {}

/-- `_starts_new_section`. -/
def startsNewSection (group : List Segment) (level : Nat) : Bool :=
  !group.any fun segment =>
    segment.kind = .heading && 0 < segment.headingLevel && segment.headingLevel ≤ level

/-- One round of `_group`. -/
def place (limits : Limits) (groups : Groups) (segment : Segment) : Groups :=
  let tokens := estimateTokens segment.text
  if limits.maxTokens < tokens then
    {done := groups.close.done ++ splitSegment limits segment}
  else
    let section' := groups.closeIf (segment.kind = .heading ∧
      startsNewSection groups.current segment.headingLevel ∧ limits.targetTokens ≤ groups.tokens)
    let room := section'.closeIf (limits.maxTokens < section'.tokens + tokens)
    let filled := room.push segment tokens
    filled.closeIf (limits.targetTokens ≤ filled.tokens ∧ segment.kind.whole)

/-- `_group`. -/
def group (limits : Limits) (segments : List Segment) : List (List Segment) :=
  (segments.foldl (place limits) {}).close.done

/-! Chunks -/

/-- `_line_of`. -/
def lineOf (text : Text) (offset : Nat) : Nat := (text.take offset).count lf + 1

/-- `_last_line_offset`. -/
def lastLineOffset (text : Text) : Nat → Nat
  | 0 => 0
  | index + 1 =>
    if 0 < index ∧ (text[index]? = some lf ∨ text[index]? = some cr) then lastLineOffset text index
    else index

/-- `_owner_heading`. -/
def ownerHeading (group : List Segment) (last : Segment) : Segment :=
  ((group.filter fun segment => segment.kind = .heading).argmin Segment.headingLevel).getD last

def pathOf (segment : Segment) : Option Text :=
  if segment.headingPath = [] then none else some segment.headingPath

/-- `RAGChunk.embedding_text`. -/
def embeddingText (path : Text) (sectionPath headingPath : Option Text) (tags : List Text)
    (content : Text) : Text :=
  Text.join ['\n'] (["文件：".toList ++ path] ++
    ((sectionPath.or headingPath).map fun path => "章节：".toList ++ path).toList ++
    (if tags = [] then [] else ["标签：".toList ++ Text.join [' '] tags]) ++
    ["正文：".toList,content])

structure Metadata where
  tags : List Text
  aliases : List Text

/-- What `chunk_document` makes of a group. -/
def pieceOf (path : Text) (metadata : Metadata) (text : Text) (group : List Segment)
    (first last : Segment) : Piece where
  content := slice text first.start last.stop
  heading := (ownerHeading group last).heading
  headingPath := pathOf (ownerHeading group last)
  sectionPath := pathOf last
  startOffset := first.start
  endOffset := last.stop
  startLine := lineOf text first.start
  endLine := lineOf text (lastLineOffset text last.stop)
  tags := metadata.tags
  aliases := metadata.aliases
  tokenEstimate := estimateTokens (slice text first.start last.stop)
  embeddingText := embeddingText path (pathOf last) (pathOf (ownerHeading group last))
    metadata.tags (slice text first.start last.stop)

def groupPiece (path : Text) (metadata : Metadata) (text : Text) (group : List Segment) :
    Option Piece :=
  group.head?.bind fun first => group.getLast?.bind fun last =>
    if Text.strip (slice text first.start last.stop) = [] then none
    else some (pieceOf path metadata text group first last)

/-- The pieces of `chunk_document`. -/
def pieces (limits : Limits) (path : Text) (metadata : Metadata) (text : Text) : List Piece :=
  if Text.strip text = [] then []
  else (group limits (segments text)).filterMap (groupPiece path metadata text)

/-- `MarkdownChunker.chunk_document`. -/
def document (limits : Limits) (path : Text) (metadata : Metadata) (text : Text) : List Chunk :=
  chunkDocument path (pieces limits path metadata text)

end LocalBook.Rag.Chunking
