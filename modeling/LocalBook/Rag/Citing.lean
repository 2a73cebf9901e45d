import LocalBook.Rag.Tiling

/-! Where the chunks of a text stand in it: they partition the body, and their lines are those of
their spans. -/
namespace LocalBook.Rag.Chunking

open Patches (lf cr slice)

def lineCount (text : Text) : Nat :=
  text.count lf + if text.getLast?.all (· = lf) then 0 else 1

/-- The stretch has a character on the line. -/
def CoversLine (text : Text) (start stop line : Nat) : Prop :=
  ∃ i,start ≤ i ∧ i < stop ∧ lineOf text i = line

def EndsAt (text : Text) (i : Nat) : Prop := text[i]? = some lf ∨ text[i]? = some cr

/-- The lines of a chunk are those that its span covers, without the line ends it closes with. -/
structure Lined (text : Text) (piece : Piece) : Prop where
  first : 1 ≤ piece.startLine
  order : piece.startLine ≤ piece.endLine
  last : piece.endLine ≤ lineCount text
  covered : ∃ last,piece.startOffset ≤ last ∧ last < piece.endOffset ∧ ¬EndsAt text last ∧
    (∀ i,last < i → i < piece.endOffset → EndsAt text i) ∧
    ∀ line,(piece.startLine ≤ line ∧ line ≤ piece.endLine) ↔
      CoversLine text piece.startOffset (last + 1) line

def spanOf (piece : Piece) : Span := ⟨piece.startOffset,piece.endOffset⟩

/-- The chunks are slices of the body that stand apart and in order; each of its characters that is
no whitespace lies in one of them. -/
structure Partition (text : Text) (pieces : List Piece) : Prop where
  ordered : pieces.Pairwise fun p q => p.endOffset ≤ q.startOffset
  slices : ∀ p ∈ pieces,p.content = slice text p.startOffset p.endOffset ∧
    bodyOffset text ≤ p.startOffset ∧ p.startOffset < p.endOffset ∧ p.endOffset ≤ text.length
  once : ∀ i c,bodyOffset text ≤ i → text[i]? = some c → Text.isSpace c = false →
    ∃ p,pieces.filter (fun p => (spanOf p).Holds i) = [p]
  lines : ∀ p ∈ pieces,Lined text p

section Lines

variable {text : Text} {start stop : Nat}

theorem lineOf_succ (text : Text) (i : Nat) :
    lineOf text (i + 1) = lineOf text i + if text[i]? = some lf then 1 else 0 := by
  rw [lineOf,lineOf,List.take_add_one,List.count_append]
  cases found : text[i]? with
  | none => simp
  | some c =>
    by_cases same : c = lf
    · simp [same]
    · simp [same,List.count_singleton]

theorem lineOf_mono (text : Text) : Monotone (lineOf text) := by
  apply monotone_nat_of_le_succ
  intro i
  rw [lineOf_succ]
  omega

/-- A stretch covers all the lines from its first character to its last one. -/
theorem coversLine_iff {last : Nat} (order : start ≤ last) (line : Nat) :
    CoversLine text start (last + 1) line ↔
      lineOf text start ≤ line ∧ line ≤ lineOf text last := by
  constructor
  · rintro ⟨i,low,high,rfl⟩
    exact ⟨lineOf_mono text low,lineOf_mono text (Nat.le_of_lt_succ high)⟩
  · rintro ⟨above,below⟩
    induction last,order using Nat.le_induction with
    | base => exact ⟨start,le_rfl,Nat.lt_succ_self _,le_antisymm above below⟩
    | succ last order ih =>
      rcases Nat.lt_or_ge (lineOf text last) line with beyond | within
      · have step := lineOf_succ text last
        refine ⟨last + 1,by omega,by omega,?_⟩
        split at step <;> omega
      · obtain ⟨i,low,high,same⟩ := ih within
        exact ⟨i,low,by omega,same⟩

theorem lastLineOffset_spec (text : Text) (stop : Nat) (some' : 0 < stop) :
    lastLineOffset text stop < stop ∧
      (∀ i,lastLineOffset text stop < i → i < stop → EndsAt text i) ∧
      (lastLineOffset text stop = 0 ∨ ¬EndsAt text (lastLineOffset text stop)) := by
  induction stop with
  | zero => omega
  | succ index ih =>
    rw [lastLineOffset]
    split
    · next ends =>
      obtain ⟨below,behind,stands⟩ := ih ends.1
      refine ⟨by omega,?_,stands⟩
      intro i low high
      rcases Nat.lt_succ_iff_lt_or_eq.mp high with less | rfl
      · exact behind i low less
      · exact ends.2
    · next stays =>
      refine ⟨Nat.lt_succ_self _,fun i low high => by omega,?_⟩
      by_cases zero : index = 0
      · exact .inl zero
      · exact .inr fun ends => stays ⟨Nat.pos_of_ne_zero zero,ends⟩

/-- A line with a character that does not end it is among the lines of the text. -/
theorem lineOf_le_lineCount {i : Nat} {c : Char} (found : text[i]? = some c) (inner : c ≠ lf) :
    lineOf text i ≤ lineCount text := by
  obtain ⟨within,same⟩ := List.getElem?_eq_some_iff.mp found
  have parts : text = text.take i ++ c :: text.drop (i + 1) := by
    rw [← same,← List.drop_eq_getElem_cons within,List.take_append_drop]
  have counts : text.count lf = (text.take i).count lf + (text.drop (i + 1)).count lf := by
    conv_lhs => rw [parts]
    rw [List.count_append,List.count_cons_of_ne inner]
  rw [lineOf,lineCount,counts]
  split
  · next ends =>
    have last : (text.drop (i + 1)).getLast? = some lf := by
      have whole : text.getLast? = (c :: text.drop (i + 1)).getLast? := by
        conv_lhs => rw [parts]
        rw [List.getLast?_append,List.getLast?_cons]
        rfl
      rw [whole] at ends
      cases behind : (text.drop (i + 1)).getLast? with
      | none =>
        rw [List.getLast?_cons,behind] at ends
        exact absurd (by simpa using ends) inner
      | some d =>
        rw [List.getLast?_cons,behind] at ends
        exact congrArg some (by simpa using ends)
    have least := List.count_pos_iff.mpr (List.mem_of_getLast? last)
    omega
  · omega

theorem not_endsAt {i : Nat} {c : Char} (found : text[i]? = some c)
    (counts : Text.isSpace c = false) : ¬EndsAt text i := by
  rintro (ends | ends)
  · rw [found] at ends
    rw [Option.some.inj ends] at counts
    exact absurd counts (by decide)
  · rw [found] at ends
    rw [Option.some.inj ends] at counts
    exact absurd counts (by decide)

theorem exists_of_strip (some' : Text.strip (slice text start stop) ≠ []) :
    ∃ i c,start ≤ i ∧ i < stop ∧ text[i]? = some c ∧ Text.isSpace c = false := by
  by_contra none'
  apply some'
  apply List.eq_nil_of_length_eq_zero
  have blank : ∀ c ∈ slice text start stop,Text.isSpace c = true := by
    intro c member
    by_contra counts
    obtain ⟨i,found⟩ := List.mem_iff_getElem?.mp member
    have within : i < stop - start := by
      have inside := (List.getElem?_eq_some_iff.mp found).1
      rw [slice,List.length_take] at inside
      omega
    rw [slice,List.getElem?_take_of_lt within,List.getElem?_drop] at found
    exact none' ⟨start + i,c,by omega,by omega,found,by simpa using counts⟩
  rw [Text.strip,Text.stripBy,Text.lstripBy,List.dropWhile_eq_nil_iff.mpr blank]
  rfl

end Lines

section Pieces

variable {text path : Text} {metadata : Metadata} {limits : Limits}

/-- What a group gives, by the span it takes. -/
theorem groupPiece_eq {group : List Segment} (some' : group ≠ []) :
    ∃ first last,first.start = (Span.hull (group.map Segment.span)).start ∧
      last.stop = (Span.hull (group.map Segment.span)).stop ∧
      groupPiece path metadata text group =
        if Text.strip (slice text first.start last.stop) = [] then none
        else some (pieceOf path metadata text group first last) := by
  obtain ⟨first,rest,rfl⟩ := List.exists_cons_of_ne_nil some'
  have last : (first :: rest).getLast? = some ((first :: rest).getLast some') :=
    List.getLast?_eq_getLast_of_ne_nil some'
  refine ⟨first,(first :: rest).getLast some',rfl,?_,?_⟩
  · rw [Span.hull,List.getLast?_map,last]
    rfl
  · rw [groupPiece,last]
    rfl

/-- The spans of the chunks are the hulls of the groups that are not blank. -/
theorem spans_filterMap (groups : List (List Segment)) (some' : ∀ group ∈ groups,group ≠ []) :
    (groups.filterMap (groupPiece path metadata text)).map spanOf =
      ((groups.map (List.map Segment.span)).map Span.hull).filter
        fun span => Text.strip (slice text span.start span.stop) ≠ [] := by
  induction groups with
  | nil => rfl
  | cons group rest ih =>
    have later := ih fun g member => some' g (List.mem_cons_of_mem _ member)
    obtain ⟨first,last,starts,stops,found⟩ :=
      groupPiece_eq (some' group (by simp))
    rw [starts,stops] at found
    rw [List.filterMap_cons,found,List.map_cons,List.map_cons,List.filter_cons]
    split
    · next blank =>
      split at blank
      · next same => rw [if_neg (by simpa using same),later]
      · cases blank
    · next piece made =>
      split at made
      · cases made
      · next counts =>
        rw [if_pos (by simpa using counts),List.map_cons,later]
        obtain rfl := Option.some.inj made
        rw [spanOf,pieceOf,starts,stops]

/-- Each chunk is the piece of a group that is not blank. -/
theorem mem_pieces {p : Piece} (member : p ∈ pieces limits path metadata text) :
    ∃ group ∈ Chunking.group limits (segments text),∃ first last,
      group.head? = some first ∧ group.getLast? = some last ∧
      Text.strip (slice text first.start last.stop) ≠ [] ∧
      p = pieceOf path metadata text group first last := by
  rw [pieces] at member
  split at member
  · cases member
  · obtain ⟨group,there,made⟩ := List.mem_filterMap.mp member
    rw [groupPiece] at made
    obtain ⟨first,start,rest⟩ := Option.bind_eq_some_iff.mp made
    obtain ⟨last,ends,made⟩ := Option.bind_eq_some_iff.mp rest
    split at made
    · cases made
    · next counts =>
      exact ⟨group,there,first,last,start,ends,counts,(Option.some.inj made).symm⟩

/-- The chunks cover the body. -/
theorem covers_pieces (limits : Limits) (path : Text) (metadata : Metadata) (text : Text) :
    Covers text (bodyOffset text) ((pieces limits path metadata text).map spanOf) text.length := by
  rw [pieces]
  split
  · next blank =>
    refine ⟨bodyOffset_le text,?_⟩
    intro i _ _ c found
    exact Wikilinks.spaces_of_strip blank c (List.mem_of_getElem? found)
  · obtain ⟨covers,verbatim⟩ := covers_segments text
    have sound := sound_group limits covers verbatim
    rw [spans_filterMap _ sound.some']
    apply Span.Tiles.filter
    · apply Span.Tiles.hulls
      · have whole := sound.covers
        rw [Groups.all,List.append_nil,List.map_flatten] at whole
        exact whole
      · intro group member
        obtain ⟨own,there,rfl⟩ := List.mem_map.mp member
        exact fun none' => sound.some' own there (List.map_eq_nil_iff.mp none')
    · intro span _ dropped
      apply blank_of_strip
      simpa using dropped

theorem lined_piece {p : Piece} (member : p ∈ pieces limits path metadata text) :
    Lined text p := by
  obtain ⟨group,_,first,last,_,_,counts,rfl⟩ := mem_pieces member
  obtain ⟨i,c,low,high,found,inner⟩ := exists_of_strip counts
  obtain ⟨below,behind,stands⟩ := lastLineOffset_spec text last.stop (by omega)
  have reaches : i ≤ lastLineOffset text last.stop := by
    by_contra beyond
    exact not_endsAt found inner (behind i (by omega) high)
  have notEnd : ¬EndsAt text (lastLineOffset text last.stop) := by
    rcases stands with zero | stands
    · rw [zero] at reaches ⊢
      rw [Nat.le_zero.mp reaches] at found
      exact not_endsAt found inner
    · exact stands
  have order : first.start ≤ lastLineOffset text last.stop := low.trans reaches
  refine ⟨Nat.le_add_left 1 _,lineOf_mono text order,?_,_,order,below,notEnd,behind,?_⟩
  · rw [pieceOf]
    rcases Nat.lt_or_ge (lastLineOffset text last.stop) text.length with inside | outside
    · apply lineOf_le_lineCount (List.getElem?_eq_getElem inside)
      intro same
      exact notEnd (.inl (by rw [List.getElem?_eq_getElem inside,same]))
    · have within := (List.getElem?_eq_some_iff.mp found).1
      have inside := (covers_pieces limits path metadata text).bounds
        (List.mem_map_of_mem (f := spanOf) member)
      have high' : last.stop ≤ text.length := inside.2.2
      omega
  · intro line
    exact (coversLine_iff order line).symm

theorem map_piece_document (limits : Limits) (path : Text) (metadata : Metadata) (text : Text) :
    (document limits path metadata text).map Chunk.piece = pieces limits path metadata text := by
  have whole (n : Nat) (l : List Piece) : (chunksFrom path n l).map Chunk.piece = l := by
    induction l generalizing n with
    | nil => rfl
    | cons p rest ih => rw [chunksFrom,List.map_cons,ih,chunkAt]
  rw [document,chunkDocument,whole]

end Pieces

end LocalBook.Rag.Chunking
