import LocalBook.Rag.Citing

/-! The size of the chunks. Blocks are packed by the sum of their estimates, which bounds the
estimate of what is packed; only a sentence that is too large itself breaks the limit. -/
namespace LocalBook.Rag.Chunking

open Patches (slice)

section Estimates

theorem runs_of_space {c : Char} (space : Text.isSpace c = true) : runs c = false := by
  simp only [Text.isSpace,Bool.or_eq_true,Bool.and_eq_true,decide_eq_true_eq,beq_iff_eq,
    UInt32.le_iff_toNat_le,← UInt32.toNat_inj] at space
  simp only [runs,Char.isAlphanum,Char.isAlpha,Char.isUpper,Char.isLower,Char.isDigit,
    Bool.or_eq_false_iff,Bool.and_eq_false_iff,decide_eq_false_iff_not,ge_iff_le,
    UInt32.le_iff_toNat_le,Char.ext_iff,← UInt32.toNat_inj]
  simp only [UInt32.reduceToNat,Char.toNat_val,Char.reduceVal,not_and,not_le] at space ⊢
  omega

theorem isCjk_of_space {c : Char} (space : Text.isSpace c = true) : isCjk c = false := by
  simp only [Text.isSpace,Bool.or_eq_true,Bool.and_eq_true,decide_eq_true_eq,beq_iff_eq,
    UInt32.le_iff_toNat_le,← UInt32.toNat_inj] at space
  simp only [isCjk,Bool.or_eq_false_iff,Bool.and_eq_false_iff,decide_eq_false_iff_not,
    UInt32.le_iff_toNat_le]
  simp only [UInt32.reduceToNat,Char.toNat_val,not_le] at space ⊢
  omega

theorem estimateFrom_le (run : Bool) (text : Text) :
    estimateFrom run text ≤ pendingRun run + estimateFrom false text := by
  cases text with
  | nil => simp [estimateFrom]
  | cons c rest =>
    simp only [estimateFrom]
    split
    · split
      · exact Nat.le_add_left _ _
      · have none' : pendingRun false = 0 := rfl
        omega
    · have none' : pendingRun false = 0 := rfl
      omega

/-- Texts that are put together count no more than they do apart. -/
theorem estimateFrom_append (run : Bool) (front rest : Text) :
    estimateFrom run (front ++ rest) ≤ estimateFrom run front + estimateFrom false rest := by
  induction front generalizing run with
  | nil => exact estimateFrom_le run rest
  | cons c front ih =>
    have inRun := ih true
    have outside := ih false
    simp only [List.cons_append,estimateFrom]
    split
    · split
      · exact inRun
      · omega
    · omega

theorem estimateFrom_blank (run : Bool) {text : Text} (blank : ∀ c ∈ text,Text.isSpace c = true) :
    estimateFrom run text = pendingRun run := by
  induction text generalizing run with
  | nil => rfl
  | cons c rest ih =>
    have space := blank c (by simp)
    have later := ih false fun d member => blank d (List.mem_cons_of_mem _ member)
    simp only [estimateFrom,weight,runs_of_space space,isCjk_of_space space,space,later]
    simp [pendingRun]

def tokensOf (group : List Segment) : Nat :=
  (group.map fun segment => estimateTokens segment.text).sum

theorem slice_blank {text : Text} {a b : Nat} (gap : Blank text a b) :
    ∀ c ∈ slice text a b,Text.isSpace c = true := by
  intro c member
  obtain ⟨i,found⟩ := List.mem_iff_getElem?.mp member
  have within : i < b - a := by
    have inside := (List.getElem?_eq_some_iff.mp found).1
    rw [slice,List.length_take] at inside
    omega
  rw [slice,List.getElem?_take_of_lt within,List.getElem?_drop] at found
  exact gap (a + i) (by omega) (by omega) c found

/-- A stretch that the blocks cover counts no more than they do. -/
theorem estimate_covered {text : Text} {group : List Segment} {a b : Nat}
    (covers : Covers text a (group.map Segment.span) b) (verbatim : ∀ s ∈ group,Verbatim text s) :
    estimateTokens (slice text a b) ≤ tokensOf group := by
  induction group generalizing a with
  | nil =>
    rw [estimateTokens,estimateFrom_blank _ (slice_blank covers.2)]
    exact Nat.zero_le _
  | cons segment rest ih =>
    obtain ⟨low,gap,within,later⟩ := covers
    have tail := ih later fun s member => verbatim s (List.mem_cons_of_mem _ member)
    have own : segment.text = slice text segment.span.start segment.span.stop :=
      verbatim segment (by simp)
    have first := estimateFrom_append false (slice text a segment.span.start)
      (slice text segment.span.start b)
    have second := estimateFrom_append false segment.text (slice text segment.span.stop b)
    rw [estimateFrom_blank _ (slice_blank gap),← slice_append low (within.trans later.le)] at first
    rw [own,← slice_append within later.le,← own] at second
    have none' : pendingRun false = 0 := rfl
    have sum : tokensOf (segment :: rest) = estimateFrom false segment.text + tokensOf rest := by
      rw [tokensOf,List.map_cons,List.sum_cons]
      rfl
    rw [estimateTokens] at tail ⊢
    omega

end Estimates

section Packing

variable {limits : Limits} {blocks : List Segment} {groups : Groups}

/-- The group is within the limit, or a block that is not split. -/
def Fits (limits : Limits) (blocks : List Segment) (group : List Segment) : Prop :=
  tokensOf group ≤ limits.maxTokens ∨ ∃ s ∈ blocks,s.kind.whole = true ∧ group = [s]

/-- The open group is within the limit and measured right, and the closed ones fit. -/
structure Groups.Measured (limits : Limits) (blocks : List Segment) (groups : Groups) : Prop where
  tokens : groups.tokens = tokensOf groups.current
  bounded : groups.tokens ≤ limits.maxTokens
  fits : ∀ group ∈ groups.done,Fits limits blocks group

namespace Groups

theorem Measured.close (measured : groups.Measured limits blocks) :
    groups.close.Measured limits blocks := by
  rw [Groups.close]
  split
  · exact measured
  · refine ⟨rfl,Nat.zero_le _,?_⟩
    intro group member
    rcases List.mem_append.mp member with front | back
    · exact measured.fits group front
    · rw [List.mem_singleton.mp back]
      exact .inl (measured.tokens ▸ measured.bounded)

theorem Measured.closeIf (measured : groups.Measured limits blocks) (closes : Prop)
    [Decidable closes] : (groups.closeIf closes).Measured limits blocks := by
  rw [Groups.closeIf]
  split
  · exact measured.close
  · exact measured

/-- A closed group counts nothing. -/
theorem Measured.tokens_close (measured : groups.Measured limits blocks) :
    groups.close.tokens = 0 := by
  rw [measured.close.tokens,current_close]
  rfl

/-- There is room behind a group that is closed when there is none in it. -/
theorem Measured.room (measured : groups.Measured limits blocks) {bound tokens : Nat}
    (most : tokens ≤ limits.maxTokens) (limit : bound ≤ limits.maxTokens) :
    (groups.closeIf (bound < groups.tokens + tokens)).tokens + tokens ≤ limits.maxTokens := by
  rw [Groups.closeIf]
  split
  · rw [measured.tokens_close]
    omega
  · omega

theorem Measured.push (measured : groups.Measured limits blocks) {segment : Segment} {tokens : Nat}
    (counted : tokens = estimateTokens segment.text)
    (room : groups.tokens + tokens ≤ limits.maxTokens) :
    (groups.push segment tokens).Measured limits blocks := by
  refine ⟨?_,room,measured.fits⟩
  have before := measured.tokens
  simp only [Groups.push,tokensOf,List.map_append,List.sum_append] at before ⊢
  simp [before,counted]

theorem done_closeIf (groups : Groups) (closes : Prop) [Decidable closes] :
    groups.done ⊆ (groups.closeIf closes).done := by
  rw [closeIf,close]
  split
  · split
    · exact List.Subset.refl _
    · exact List.subset_append_left _ _
  · exact List.Subset.refl _

theorem done_close (groups : Groups) : groups.done ⊆ groups.close.done := by
  rw [close]
  split
  · exact List.Subset.refl _
  · exact List.subset_append_left _ _

end Groups

theorem fits_splitPieces (segment : Segment) (pieces : List Text) (offset : Nat)
    (measured : groups.Measured limits blocks)
    (most : ∀ piece ∈ pieces,estimateTokens piece ≤ limits.maxTokens) :
    ∀ group ∈ splitPieces limits segment pieces offset groups,Fits limits blocks group := by
  induction pieces generalizing offset groups with
  | nil => exact measured.close.fits
  | cons piece rest ih =>
    rw [splitPieces]
    apply ih _ _ fun p member => most p (List.mem_cons_of_mem _ member)
    apply Groups.Measured.closeIf
    exact (measured.closeIf _).push rfl (measured.room (most piece (by simp)) limits.ordered)

/-- The sentences of the blocks that are split are within the limit. -/
def SentencesFit (limits : Limits) (blocks : List Segment) : Prop :=
  ∀ s ∈ blocks,s.kind.whole = false → limits.maxTokens < estimateTokens s.text →
    ∀ piece ∈ sentencePieces s.text,estimateTokens piece ≤ limits.maxTokens

theorem measured_place {segment : Segment} (measured : groups.Measured limits blocks)
    (member : segment ∈ blocks) (fit : SentencesFit limits blocks) :
    (place limits groups segment).Measured limits blocks := by
  rw [place]
  dsimp only
  split
  · next large =>
    refine ⟨rfl,Nat.zero_le _,?_⟩
    intro group there
    rcases List.mem_append.mp there with front | back
    · exact measured.close.fits group front
    · rw [splitSegment] at back
      split at back
      · next whole =>
        exact .inr ⟨segment,member,whole,List.mem_singleton.mp back⟩
      · next splits =>
        exact fits_splitPieces segment _ _ ⟨rfl,Nat.zero_le _,fun _ impossible => by cases impossible⟩
          (fit segment member (by simpa using splits) large) group back
  · next within =>
    apply Groups.Measured.closeIf
    exact ((measured.closeIf _).closeIf _).push rfl
      ((measured.closeIf _).room (Nat.le_of_not_lt within) le_rfl)

theorem fits_group (fit : SentencesFit limits blocks) :
    ∀ packed ∈ group limits blocks,Fits limits blocks packed := by
  have run (segments : List Segment) (groups : Groups) (part : segments ⊆ blocks)
      (measured : groups.Measured limits blocks) :
      (segments.foldl (place limits) groups).Measured limits blocks := by
    induction segments generalizing groups with
    | nil => exact measured
    | cons segment rest ih =>
      exact ih _ (fun s member => part (List.mem_cons_of_mem _ member))
        (measured_place measured (part (by simp)) fit)
  exact (run blocks {} (List.Subset.refl _)
    ⟨rfl,Nat.zero_le _,fun _ impossible => by cases impossible⟩).close.fits

theorem done_splitPieces (segment : Segment) (pieces : List Text) (offset : Nat)
    (groups : Groups) : groups.done ⊆ splitPieces limits segment pieces offset groups := by
  induction pieces generalizing offset groups with
  | nil => exact groups.done_close
  | cons piece rest ih =>
    rw [splitPieces]
    apply List.Subset.trans _ (ih _ _)
    exact List.Subset.trans (Groups.done_closeIf _ _) (Groups.done_closeIf (Groups.push _ _ _) _)

/-- A piece above the limit is a group of its own. -/
theorem mem_splitPieces (segment : Segment) {pieces : List Text} (offset : Nat) (groups : Groups)
    {piece : Text} (member : piece ∈ pieces) (large : limits.maxTokens < estimateTokens piece) :
    ∃ part : Segment,part.text = piece ∧ offset ≤ part.start ∧
      part.stop ≤ offset + pieces.flatten.length ∧
      [part] ∈ splitPieces limits segment pieces offset groups := by
  induction pieces generalizing offset groups with
  | nil => cases member
  | cons first rest ih =>
    rw [splitPieces,List.flatten_cons,List.length_append]
    rcases List.mem_cons.mp member with rfl | later
    · refine ⟨segment.part piece offset,rfl,le_rfl,?_,done_splitPieces segment rest _ _ ?_⟩
      · simp only [Segment.part]
        omega
      · have closes : limits.targetTokens < groups.tokens + estimateTokens piece := by
          have order := limits.ordered
          omega
        have full : limits.maxTokens ≤
            (groups.close.push (segment.part piece offset) (estimateTokens piece)).tokens := by
          rw [Groups.push]
          dsimp only
          omega
        rw [Groups.closeIf,Groups.closeIf,if_pos closes,if_pos full,Groups.close,Groups.push]
        dsimp only
        rw [Groups.current_close,List.nil_append,if_neg (List.cons_ne_nil _ _)]
        exact List.mem_append_right _ (List.mem_singleton_self _)
    · obtain ⟨part,same,low,high,there⟩ := ih (offset + first.length) _ later
      exact ⟨part,same,by omega,by omega,there⟩

theorem done_place (groups : Groups) (segment : Segment) :
    groups.done ⊆ (place limits groups segment).done := by
  rw [place]
  dsimp only
  split
  · exact List.Subset.trans groups.done_close (List.subset_append_left _ _)
  · exact List.Subset.trans (Groups.done_closeIf _ _) (List.Subset.trans
      (Groups.done_closeIf _ _) (Groups.done_closeIf (Groups.push _ _ _) _))

theorem done_run (segments : List Segment) (groups : Groups) :
    groups.done ⊆ (segments.foldl (place limits) groups).close.done := by
  induction segments generalizing groups with
  | nil => exact groups.done_close
  | cons segment rest ih => exact List.Subset.trans (done_place groups segment) (ih _)

/-- A sentence above the limit of a block that is split is a group of its own. -/
theorem mem_group {segment : Segment} {piece : Text} (member : segment ∈ blocks)
    (splits : segment.kind.whole = false)
    (oversized : limits.maxTokens < estimateTokens segment.text)
    (there : piece ∈ sentencePieces segment.text)
    (large : limits.maxTokens < estimateTokens piece) :
    ∃ part : Segment,part.text = piece ∧ segment.start ≤ part.start ∧
      part.stop ≤ segment.start + segment.text.length ∧ [part] ∈ group limits blocks := by
  obtain ⟨part,same,low,high,split'⟩ :=
    mem_splitPieces segment segment.start {} there large
  rw [flatten_sentencePieces] at high
  refine ⟨part,same,low,high,?_⟩
  obtain ⟨front,behind,rfl⟩ := List.append_of_mem member
  rw [group,List.foldl_append,List.foldl_cons]
  apply done_run
  rw [place]
  dsimp only
  rw [if_pos oversized,splitSegment,if_neg (by simp [splits])]
  exact List.mem_append_right _ split'

end Packing

section Bound

variable {limits : Limits} {path text : Text} {metadata : Metadata}

/-- The chunk is a single code block or table. -/
def IsWhole (text : Text) (piece : Piece) : Prop :=
  ∃ s ∈ segments text,s.kind.whole = true ∧ s.span = spanOf piece

theorem hull_of_ends {group : List Segment} {first last : Segment}
    (starts : group.head? = some first) (ends : group.getLast? = some last) :
    Span.hull (group.map Segment.span) = ⟨first.start,last.stop⟩ := by
  rw [Span.hull,List.head?_map,List.getLast?_map,starts,ends]
  rfl

/-- What a group makes a chunk of is covered by its blocks. -/
theorem covers_group {group : List Segment} {first last : Segment}
    (member : group ∈ Chunking.group limits (segments text))
    (starts : group.head? = some first) (ends : group.getLast? = some last) :
    Covers text first.start (group.map Segment.span) last.stop ∧
      ∀ s ∈ group,Verbatim text s := by
  obtain ⟨covers,verbatim⟩ := covers_segments text
  have sound := sound_group limits covers verbatim
  have some' : group.map Segment.span ≠ [] := by
    rintro none'
    rw [List.map_eq_nil_iff.mp none'] at starts
    cases starts
  have whole := sound.covers
  rw [Groups.all,List.append_nil] at whole
  obtain ⟨front,behind,same⟩ := List.append_of_mem member
  rw [same,List.flatten_append,List.flatten_cons,List.map_append,List.map_append] at whole
  obtain ⟨_,_,rest⟩ := whole.split
  obtain ⟨_,own,_⟩ := rest.split
  have inner := (own.inner some').2.2.1
  rw [hull_of_ends starts ends] at inner
  refine ⟨inner,fun s there => sound.verbatim s ?_⟩
  rw [Groups.all,List.append_nil]
  exact List.mem_flatten.mpr ⟨group,member,there⟩

/-- Two blocks that share a character that counts are one. -/
theorem segment_unique {s t : Segment} (left : s ∈ segments text) (right : t ∈ segments text)
    {i : Nat} {c : Char} (found : text[i]? = some c) (counts : Text.isSpace c = false)
    (inLeft : s.span.Holds i) (inRight : t.span.Holds i) : s = t := by
  obtain ⟨covers,_⟩ := covers_segments text
  have low := (covers.bounds (List.mem_map_of_mem left)).1.trans inLeft.1
  obtain ⟨span,only⟩ := covers.once low (List.getElem?_eq_some_iff.mp found).1 found
    (by simp [counts])
  rw [List.filter_map] at only
  obtain ⟨u,filtered,_⟩ := List.map_eq_singleton_iff.mp only
  have first : s ∈ [u] := by
    rw [← filtered]
    exact List.mem_filter.mpr ⟨left,by simpa using inLeft⟩
  have second : t ∈ [u] := by
    rw [← filtered]
    exact List.mem_filter.mpr ⟨right,by simpa using inRight⟩
  rw [List.mem_singleton.mp first,List.mem_singleton.mp second]

/-- Every chunk that is no single code block or table is within the limit if and only if every
sentence of a block that is split is. -/
theorem document_bounded_iff (limits : Limits) (path : Text) (metadata : Metadata) (text : Text) :
    (∀ chunk ∈ document limits path metadata text,¬IsWhole text chunk.piece →
      estimateTokens chunk.piece.content ≤ limits.maxTokens) ↔
      SentencesFit limits (segments text) := by
  have pieces_iff : (∀ chunk ∈ document limits path metadata text,¬IsWhole text chunk.piece →
      estimateTokens chunk.piece.content ≤ limits.maxTokens) ↔
      ∀ piece ∈ pieces limits path metadata text,¬IsWhole text piece →
        estimateTokens piece.content ≤ limits.maxTokens := by
    rw [← map_piece_document,List.forall_mem_map]
  rw [pieces_iff]
  constructor
  · intro bounded s member splits oversized piece there
    by_contra large
    obtain ⟨part,rfl,low,high,packed⟩ :=
      mem_group member splits oversized there (Nat.lt_of_not_le large)
    obtain ⟨_,verbatim⟩ := covers_group packed rfl rfl
    have own : part.text = slice text part.start part.stop := verbatim part (by simp)
    have counts : Text.strip (slice text part.start part.stop) ≠ [] := by
      intro blank
      rw [own,estimateTokens,estimateFrom_blank _ (Wikilinks.spaces_of_strip blank)] at large
      exact large (Nat.zero_le _)
    have made : pieceOf path metadata text [part] part part ∈
        pieces limits path metadata text := by
      rw [pieces,if_neg]
      · apply List.mem_filterMap.mpr
        exact ⟨[part],packed,if_neg counts⟩
      · intro blank
        obtain ⟨i,c,_,_,found,inner⟩ := exists_of_strip counts
        have space := Wikilinks.spaces_of_strip blank c (List.mem_of_getElem? found)
        rw [inner] at space
        cases space
    apply large
    have small := bounded _ made
    rw [pieceOf,← own] at small
    apply small
    rintro ⟨t,found,whole,same⟩
    obtain ⟨i,c,above,below,stands,inner⟩ := exists_of_strip counts
    obtain ⟨outer,verbatim'⟩ := covers_segments text
    have bounds := outer.bounds (List.mem_map_of_mem (f := Segment.span) member)
    have lengths : s.text.length = s.stop - s.start := by
      rw [verbatim' s member]
      exact length_slice bounds.2.2
    have within : s.start ≤ s.stop := bounds.2.1
    have inOuter : s.span.Holds i := ⟨low.trans above,show i < s.stop by omega⟩
    have inInner : t.span.Holds i := same ▸ ⟨above,below⟩
    rw [segment_unique member found stands inner inOuter inInner,whole] at splits
    cases splits
  · intro fit piece member notWhole
    obtain ⟨packed,there,first,last,starts,ends,_,rfl⟩ := mem_pieces member
    obtain ⟨covers,verbatim⟩ := covers_group there starts ends
    rcases fits_group fit packed there with within | ⟨s,found,whole,rfl⟩
    · exact (estimate_covered covers verbatim).trans within
    · obtain rfl := Option.some.inj starts
      obtain rfl := Option.some.inj ends
      exact absurd ⟨_,found,whole,rfl⟩ notWhole

/-- A sentence of fifty-one ideographs and the stop behind it are above a limit of fifty, and are
not split because another sentence follows. -/
theorem not_bounded : ¬ ∀ (limits : Limits) (path : Text) (metadata : Metadata) (text : Text),
    ∀ chunk ∈ document limits path metadata text,¬IsWhole text chunk.piece →
      estimateTokens chunk.piece.content ≤ limits.maxTokens := by
  intro always
  have here := always (Limits.of 50 50) [] ⟨[],[]⟩ (List.replicate 51 '字' ++ ['。','字'])
  have sizes : (document (Limits.of 50 50) [] ⟨[],[]⟩ (List.replicate 51 '字' ++ ['。','字'])).map
      (fun chunk => estimateTokens chunk.piece.content) = [52,1] := by decide +kernel
  have split' : ∀ s ∈ segments (List.replicate 51 '字' ++ ['。','字']),s.kind.whole = false := by
    decide +kernel
  obtain ⟨chunk,member,large⟩ : ∃ chunk ∈ document (Limits.of 50 50) [] ⟨[],[]⟩
      (List.replicate 51 '字' ++ ['。','字']),estimateTokens chunk.piece.content = 52 := by
    apply List.mem_map.mp
    rw [sizes]
    exact List.mem_cons_self
  have small := here chunk member fun ⟨s,found,whole,_⟩ => by
    rw [split' s found] at whole
    cases whole
  rw [large] at small
  exact absurd small (by decide)

end Bound

end LocalBook.Rag.Chunking
