import LocalBook.Rag.Chunking

/-! The blocks and the groups of a text tile its body: no stage loses or doubles a character
other than whitespace. -/
namespace LocalBook.Rag.Chunking

open Patches (splitLines isBlank lf cr slice endsLine)

/-- Only whitespace is left out. -/
abbrev Covers (text : Text) : Nat → List Span → Nat → Prop :=
  Span.Tiles (fun c => Text.isSpace c = true) text

abbrev Blank (text : Text) : Nat → Nat → Prop := Span.Gap (fun c => Text.isSpace c = true) text

section Slices

variable {text : Text} {a b c : Nat}

theorem slice_append (first : a ≤ b) (second : b ≤ c) :
    slice text a c = slice text a b ++ slice text b c := by
  rw [slice,slice,slice,show c - a = (b - a) + (c - b) by omega,List.take_add,List.drop_drop,
    show a + (b - a) = b by omega]

theorem length_slice (within : b ≤ text.length) : (slice text a b).length = b - a := by
  rw [slice,List.length_take,List.length_drop]
  omega

theorem slice_start {front rest : Text} (there : text.drop a = front ++ rest) :
    slice text a (a + front.length) = front := by
  rw [slice,there,Nat.add_sub_cancel_left,List.take_left]

theorem drop_next {front rest : Text} (there : text.drop a = front ++ rest) :
    text.drop (a + front.length) = rest := by
  rw [← List.drop_drop,there,List.drop_left]

theorem next_le {front rest : Text} (there : text.drop a = front ++ rest) (low : a ≤ text.length) :
    a + front.length ≤ text.length := by
  have lengths := congrArg List.length there
  rw [List.length_drop,List.length_append] at lengths
  omega

theorem blank_of_slice (blank : ∀ c ∈ slice text a b,Text.isSpace c = true) : Blank text a b := by
  intro i low high c found
  apply blank
  rw [slice]
  apply List.mem_of_getElem? (i := i - a)
  rw [List.getElem?_take_of_lt (by omega),List.getElem?_drop,show a + (i - a) = i by omega]
  exact found

theorem blank_of_strip (blank : Text.strip (slice text a b) = []) : Blank text a b :=
  blank_of_slice (Wikilinks.spaces_of_strip blank)

end Slices

section Blocks

variable {text : Text} {a offset : Nat} {stack : List (Nat × Text)} {pending : Option Pending}

def Verbatim (text : Text) (segment : Segment) : Prop :=
  segment.text = slice text segment.start segment.stop

def Opened (text : Text) (a offset : Nat) : Option Pending → Prop
  | none => a ≤ offset ∧ Blank text a offset
  | some pending =>
    a ≤ pending.start ∧ Blank text a pending.start ∧ pending.start ≤ pending.stop ∧
      pending.stop = offset

theorem covers_flush (opened : Opened text a offset pending) :
    Covers text a ((flushText text stack pending).map Segment.span) offset := by
  cases pending with
  | none => exact opened
  | some pending =>
    obtain ⟨low,before,within,rfl⟩ := opened
    rw [flushText]
    split
    · next blank =>
      exact ⟨low.trans within,before.trans (blank_of_strip blank)⟩
    · exact ⟨low,before,within,le_rfl,Span.Gap.refl _⟩

theorem verbatim_flush : ∀ s ∈ flushText text stack pending,Verbatim text s := by
  cases pending with
  | none => exact fun _ impossible => by cases impossible
  | some pending =>
    rw [flushText]
    split
    · exact fun _ impossible => by cases impossible
    · intro s member
      rw [List.mem_singleton.mp member]
      rfl

theorem fenced_append (opening : Fence) (lines : List Text) :
    (fenced opening lines).1 ++ (fenced opening lines).2 = lines := by
  induction lines with
  | nil => rfl
  | cons line rest ih =>
    rw [fenced]
    split
    · rfl
    · exact congrArg (line :: ·) ih

theorem rows_append (lines : List Text) : (rows lines).1 ++ (rows lines).2 = lines := by
  induction lines with
  | nil => rfl
  | cons line rest ih =>
    rw [rows]
    split
    · exact congrArg (line :: ·) ih
    · rfl

theorem rows_length {line : Text} {rest : List Text} (row : isTableRow line = true) :
    (rows (line :: rest)).2.length ≤ rest.length := by
  rw [rows,if_pos (.inl row)]
  have lengths := congrArg List.length (rows_append rest)
  rw [List.length_append] at lengths
  dsimp only
  omega

theorem fenced_length (opening : Fence) (rest : List Text) :
    (fenced opening rest).2.length ≤ rest.length := by
  have lengths := congrArg List.length (fenced_append opening rest)
  rw [List.length_append] at lengths
  omega

/-- A paragraph is ended, and a block follows it. -/
theorem covers_block {blocks : List Segment} {block : Segment} {stop : Nat}
    (opened : Opened text a offset pending) (start : block.start = offset)
    (stops : block.stop = stop) (within : offset ≤ stop)
    (later : Covers text stop (blocks.map Segment.span) text.length) :
    Covers text a ((flushText text stack pending ++ block :: blocks).map Segment.span)
      text.length := by
  rw [List.map_append,List.map_cons]
  apply (covers_flush opened).append
  subst start stops
  exact ⟨le_rfl,Span.Gap.refl _,within,later⟩

theorem verbatim_block {blocks : List Segment} {block : Segment} (own : Verbatim text block)
    (later : ∀ s ∈ blocks,Verbatim text s) :
    ∀ s ∈ flushText text stack pending ++ block :: blocks,Verbatim text s := by
  intro s member
  rcases List.mem_append.mp member with front | back
  · exact verbatim_flush s front
  · rcases List.mem_cons.mp back with rfl | behind
    · exact own
    · exact later s behind

/-- The blocks from a line on cover what is left of the text, and are verbatim. -/
theorem covers_scan (fuel : Nat) (lines : List Text) (offset : Nat) (stack : List (Nat × Text))
    (pending : Option Pending) (a : Nat) (enough : lines.length ≤ fuel)
    (there : text.drop offset = lines.flatten) (low : offset ≤ text.length)
    (opened : Opened text a offset pending) :
    Covers text a ((scan text fuel lines offset stack pending).map Segment.span) text.length ∧
      ∀ s ∈ scan text fuel lines offset stack pending,Verbatim text s := by
  induction fuel generalizing lines offset stack pending a with
  | zero =>
    rw [List.eq_nil_of_length_eq_zero (Nat.le_zero.mp enough)] at there ⊢
    have ends : offset = text.length := le_antisymm low (List.drop_eq_nil_iff.mp there)
    rw [scan]
    exact ⟨ends ▸ covers_flush opened,verbatim_flush⟩
  | succ fuel ih =>
    cases lines with
    | nil =>
      have ends : offset = text.length := le_antisymm low (List.drop_eq_nil_iff.mp there)
      rw [scan]
      exact ⟨ends ▸ covers_flush opened,verbatim_flush⟩
    | cons line rest =>
      have fuelled : rest.length ≤ fuel := Nat.le_of_succ_le_succ enough
      rw [List.flatten_cons] at there
      have behind := drop_next there
      have next := next_le there low
      rw [scan]
      dsimp only
      split
      · next fence _ =>
        have inner : text.drop (offset + line.length) =
            (fenced fence rest).1.flatten ++ (fenced fence rest).2.flatten := by
          rw [behind,← List.flatten_append,fenced_append]
        obtain ⟨covers,verbatim⟩ := ih (fenced fence rest).2 _ stack none _
          ((fenced_length fence rest).trans fuelled) (drop_next inner) (next_le inner next)
          ⟨le_rfl,Span.Gap.refl _⟩
        exact ⟨covers_block opened rfl rfl ((Nat.le_add_right _ _).trans (Nat.le_add_right _ _))
          covers,verbatim_block rfl verbatim⟩
      · split
        · next level title _ =>
          obtain ⟨covers,verbatim⟩ := ih rest _
            (stack.rdropWhile (fun outer => level ≤ outer.1) ++ [(level,title)]) none _ fuelled
            behind next ⟨le_rfl,Span.Gap.refl _⟩
          exact ⟨covers_block opened rfl rfl (Nat.le_add_right _ _) covers,
            verbatim_block (slice_start there).symm verbatim⟩
        · split
          · next row =>
            have inner : text.drop offset =
                (rows (line :: rest)).1.flatten ++ (rows (line :: rest)).2.flatten := by
              rw [there,← List.flatten_append,rows_append,List.flatten_cons]
            obtain ⟨covers,verbatim⟩ := ih (rows (line :: rest)).2 _ stack none _
              ((rows_length row).trans fuelled) (drop_next inner) (next_le inner low)
              ⟨le_rfl,Span.Gap.refl _⟩
            exact ⟨covers_block opened rfl rfl (Nat.le_add_right _ _) covers,verbatim_block rfl verbatim⟩
          · split
            · next blank =>
              have gap : Blank text offset (offset + line.length) := by
                apply blank_of_strip
                rw [slice_start there]
                exact blank
              obtain ⟨covers,verbatim⟩ := ih rest _ stack none offset fuelled behind next
                ⟨by omega,gap⟩
              rw [List.map_append]
              refine ⟨(covers_flush opened).append covers,?_⟩
              intro s member
              exact (List.mem_append.mp member).elim (verbatim_flush s) (verbatim s)
            · split
              · next before kept =>
                obtain ⟨rfl,_⟩ := Option.filter_eq_some_iff.mp kept
                obtain ⟨low',gap,within,stops⟩ := opened
                exact ih rest _ stack _ a fuelled behind next
                  ⟨low',gap,by dsimp only; omega,rfl⟩
              · obtain ⟨covers,verbatim⟩ := ih rest _ stack (some ⟨isQuote line,offset,_⟩) offset
                  fuelled behind next ⟨le_rfl,Span.Gap.refl _,by dsimp only; omega,rfl⟩
                rw [List.map_append]
                refine ⟨(covers_flush opened).append covers,?_⟩
                intro s member
                exact (List.mem_append.mp member).elim (verbatim_flush s) (verbatim s)

theorem line_ne_nil (text : Text) : ∀ line ∈ splitLines text,line ≠ [] := by
  induction text with
  | nil => exact fun _ impossible => by cases impossible
  | cons c rest ih =>
    intro line member
    unfold splitLines at member
    split at member
    · rcases List.mem_cons.mp member with rfl | later
      · exact List.cons_ne_nil _ _
      · exact ih line later
    · split at member
      · next first others same =>
        rcases List.mem_cons.mp member with rfl | later
        · exact List.cons_ne_nil _ _
        · exact ih line (same ▸ List.mem_cons_of_mem _ later)
      · rw [List.mem_singleton.mp member]
        exact List.cons_ne_nil _ _

theorem bodyLines_eq (lines : List Text) (k offset : Nat) (some' : ∀ line ∈ lines,line ≠ []) :
    bodyLines (offset + (lines.take k).flatten.length) lines offset =
      (lines.drop k,offset + (lines.take k).flatten.length) := by
  induction lines generalizing k offset with
  | nil => simp [bodyLines]
  | cons line rest ih =>
    cases k with
    | zero => simp [bodyLines]
    | succ k =>
      have least := List.length_pos_of_ne_nil (some' line (by simp))
      have later := ih k (offset + line.length) fun l member => some' l (List.mem_cons_of_mem _ member)
      rw [List.take_succ_cons,List.flatten_cons,List.length_append,← Nat.add_assoc,bodyLines,
        if_pos (by omega),later,List.drop_succ_cons]

/-- The body starts with a line. -/
theorem bodyOffset_eq (text : Text) :
    ∃ k,bodyOffset text = ((splitLines text).take k).flatten.length := by
  rw [bodyOffset]
  split
  · split
    · exact ⟨0,rfl⟩
    · next first rest lines =>
      split
      · exact ⟨0,rfl⟩
      · split
        · exact ⟨0,rfl⟩
        · next n _ =>
          refine ⟨n + 2,?_⟩
          rw [lines,List.take_succ_cons,List.flatten_cons,List.length_append]
  · exact ⟨0,rfl⟩

theorem bodyOffset_le (text : Text) : bodyOffset text ≤ text.length := by
  obtain ⟨k,same⟩ := bodyOffset_eq text
  have whole := congrArg List.length (Wikilinks.flatten_splitLines text)
  rw [← List.take_append_drop k (splitLines text),List.flatten_append,List.length_append] at whole
  omega

/-- The blocks are those of the lines behind the front matter, which stand at its end. -/
theorem segments_eq (text : Text) :
    ∃ k,bodyOffset text = ((splitLines text).take k).flatten.length ∧
      segments text = scan text ((splitLines text).drop k).length ((splitLines text).drop k)
        (bodyOffset text) [] none ∧
      text.drop (bodyOffset text) = ((splitLines text).drop k).flatten := by
  obtain ⟨k,same⟩ := bodyOffset_eq text
  have body := bodyLines_eq (splitLines text) k 0 (line_ne_nil text)
  rw [Nat.zero_add,← same] at body
  refine ⟨k,same,by rw [segments,body],?_⟩
  have whole := Wikilinks.flatten_splitLines text
  rw [← List.take_append_drop k (splitLines text),List.flatten_append] at whole
  have there : text.drop 0 = ((splitLines text).take k).flatten ++
      ((splitLines text).drop k).flatten := whole.symm
  have behind := drop_next there
  rwa [Nat.zero_add,← same] at behind

/-- The blocks cover the body. -/
theorem covers_segments (text : Text) :
    Covers text (bodyOffset text) ((segments text).map Segment.span) text.length ∧
      ∀ s ∈ segments text,Verbatim text s := by
  obtain ⟨k,_,blocks,behind⟩ := segments_eq text
  rw [blocks]
  apply covers_scan
  · exact le_rfl
  · exact behind
  · exact bodyOffset_le text
  · exact ⟨le_rfl,Span.Gap.refl _⟩

end Blocks

section Packing

variable {text : Text} {a b c : Nat} {groups : Groups} {limits : Limits}

namespace Groups

def all (groups : Groups) : List Segment := groups.done.flatten ++ groups.current

structure Sound (text : Text) (a b : Nat) (groups : Groups) : Prop where
  covers : Covers text a (groups.all.map Segment.span) b
  verbatim : ∀ s ∈ groups.all,Verbatim text s
  some' : ∀ group ∈ groups.done,group ≠ []

@[simp] theorem all_close (groups : Groups) : groups.close.all = groups.all := by
  rw [close]
  split
  · rfl
  · simp [all]

theorem current_close (groups : Groups) : groups.close.current = [] := by
  rw [close]
  split
  · assumption
  · rfl

@[simp] theorem all_push (groups : Groups) (segment : Segment) (tokens : Nat) :
    (groups.push segment tokens).all = groups.all ++ [segment] := by
  simp [push,all]

theorem Sound.close (sound : groups.Sound text a b) : groups.close.Sound text a b := by
  refine ⟨by simpa using sound.covers,by simpa using sound.verbatim,?_⟩
  rw [Groups.close]
  split
  · exact sound.some'
  · next some' =>
    intro group member
    rcases List.mem_append.mp member with front | back
    · exact sound.some' group front
    · rw [List.mem_singleton.mp back]
      exact some'

theorem Sound.closeIf (sound : groups.Sound text a b) (closes : Prop) [Decidable closes] :
    (groups.closeIf closes).Sound text a b := by
  rw [Groups.closeIf]
  split
  · exact sound.close
  · exact sound

theorem Sound.push (sound : groups.Sound text a b) {segment : Segment} (tokens : Nat)
    (next : Covers text b [segment.span] c) (own : Verbatim text segment) :
    (groups.push segment tokens).Sound text a c := by
  refine ⟨?_,?_,sound.some'⟩
  · rw [all_push,List.map_append]
    exact sound.covers.append next
  · rw [all_push]
    intro s member
    rcases List.mem_append.mp member with front | back
    · exact sound.verbatim s front
    · rw [List.mem_singleton.mp back]
      exact own

/-- Closed groups cover what all of them did. -/
theorem Sound.done (sound : groups.Sound text a b) :
    ({done := groups.close.done} : Groups).Sound text a b := by
  have closed := sound.close
  have same : ({done := groups.close.done} : Groups).all = groups.close.all := by
    simp [all,current_close]
  exact ⟨same ▸ closed.covers,same ▸ closed.verbatim,closed.some'⟩

end Groups

theorem flatten_sentences (text : Text) : (sentences text).flatten = text := by
  induction text with
  | nil => rfl
  | cons c rest ih =>
    rw [sentences]
    split
    · simp [ih]
    · split
      · next piece others same =>
        rw [same] at ih
        simpa using ih
      · next same =>
        rw [same] at ih
        simpa using ih

theorem flatten_hardPieces (text : Text) : (hardPieces text).flatten = text := by
  have upTo (count : Nat) :
      ((List.range count).map fun n => slice text (400 * n) (400 * n + 400)).flatten =
        slice text 0 (400 * count) := by
    induction count with
    | zero => simp [slice]
    | succ count ih =>
      rw [List.range_succ,List.map_append,List.flatten_append,ih,
        slice_append (Nat.zero_le _) (show 400 * count ≤ 400 * (count + 1) by omega)]
      simp [Nat.mul_succ]
  rw [hardPieces,upTo,slice,List.drop_zero,List.take_of_length_le]
  omega

theorem flatten_sentencePieces (text : Text) : (sentencePieces text).flatten = text := by
  rw [sentencePieces]
  split
  · exact flatten_hardPieces text
  · exact flatten_sentences text

/-- The pieces of a block cover it. -/
theorem sound_splitPieces (segment : Segment) (pieces : List Text) (offset : Nat)
    (sound : groups.Sound text a offset) (there : slice text offset c = pieces.flatten)
    (low : offset ≤ c) (high : c ≤ text.length) :
    ({done := splitPieces limits segment pieces offset groups} : Groups).Sound text a c := by
  induction pieces generalizing offset groups with
  | nil =>
    have ends : offset = c := by
      have lengths := length_slice (a := offset) high
      rw [there] at lengths
      simp only [List.flatten_nil,List.length_nil] at lengths
      omega
    rw [splitPieces]
    exact ends ▸ sound.done
  | cons piece rest ih =>
    rw [List.flatten_cons] at there
    have lengths := congrArg List.length there
    rw [length_slice high,List.length_append] at lengths
    have parts := @slice_append text offset (offset + piece.length) c (by omega) (by omega)
    rw [there] at parts
    have same := List.append_inj parts (by rw [length_slice (by omega)]; omega)
    rw [splitPieces]
    apply ih _ _ same.2.symm (by omega)
    apply Groups.Sound.closeIf
    apply (sound.closeIf _).push
    · exact ⟨le_rfl,Span.Gap.refl _,Nat.le_add_right _ _,le_rfl,Span.Gap.refl _⟩
    · exact same.1

theorem sound_splitSegment {segment : Segment} (next : Covers text b [segment.span] c)
    (high : c ≤ text.length) (own : Verbatim text segment) :
    ({done := splitSegment limits segment} : Groups).Sound text b c := by
  obtain ⟨low,before,within,behind⟩ := next
  rw [splitSegment]
  split
  · refine ⟨⟨low,before,within,behind⟩,?_,?_⟩
    · intro s member
      rw [show s = segment by simpa [Groups.all] using member]
      exact own
    · simp
  · have start : ({} : Groups).Sound text b segment.start :=
      ⟨⟨low,before⟩,fun _ impossible => by simp [Groups.all] at impossible,
        fun _ impossible => by cases impossible⟩
    have pieces := @sound_splitPieces _ _ segment.stop _ limits segment
      (sentencePieces segment.text) segment.start start (by rw [flatten_sentencePieces]; exact own.symm) within (behind.1.trans high)
    refine ⟨?_,pieces.verbatim,pieces.some'⟩
    have covers := pieces.covers.append (c := c) behind
    rwa [List.append_nil] at covers

theorem sound_place {segment : Segment} (sound : groups.Sound text a b)
    (next : Covers text b [segment.span] c) (high : c ≤ text.length)
    (own : Verbatim text segment) : (place limits groups segment).Sound text a c := by
  rw [place]
  dsimp only
  split
  · have closed := sound.done
    have pieces := @sound_splitSegment _ _ _ limits _ next high own
    constructor
    · have covers := closed.covers.append pieces.covers
      simpa [Groups.all] using covers
    · intro s member
      rw [Groups.all,List.flatten_append,List.append_nil] at member
      rcases List.mem_append.mp member with front | back
      · exact closed.verbatim s (by simpa [Groups.all] using front)
      · exact pieces.verbatim s (by simpa [Groups.all] using back)
    · intro group member
      exact (List.mem_append.mp member).elim (closed.some' group) (pieces.some' group)
  · apply Groups.Sound.closeIf
    exact ((sound.closeIf _).closeIf _).push _ next own

/-- The groups cover what the blocks cover. -/
theorem sound_blocks (limits : Limits) {segments : List Segment} {high : Nat}
    (covers : Covers text a (segments.map Segment.span) high) (inside : high ≤ text.length)
    (verbatim : ∀ s ∈ segments,Verbatim text s) :
    ({done := group limits segments} : Groups).Sound text a high := by
  have run (segments : List Segment) (groups : Groups) (b : Nat)
      (sound : groups.Sound text a b)
      (covers : Covers text b (segments.map Segment.span) high)
      (verbatim : ∀ s ∈ segments,Verbatim text s) :
      (segments.foldl (place limits) groups).Sound text a high := by
    induction segments generalizing groups b with
    | nil =>
      have all := sound.covers.append covers
      rw [List.map_nil,List.append_nil] at all
      exact ⟨all,sound.verbatim,sound.some'⟩
    | cons segment rest ih =>
      obtain ⟨low,before,within,later⟩ := covers
      exact ih _ _ (sound_place sound ⟨low,before,within,le_rfl,Span.Gap.refl _⟩
        (later.le.trans inside) (verbatim segment (by simp))) later fun s member =>
          verbatim s (List.mem_cons_of_mem _ member)
  have start : ({} : Groups).Sound text a a :=
    ⟨⟨le_rfl,Span.Gap.refl _⟩,fun _ impossible => by simp [Groups.all] at impossible,
      fun _ impossible => by cases impossible⟩
  exact (run segments {} a start covers verbatim).done

/-- The groups cover the body. -/
theorem sound_group (limits : Limits) {segments : List Segment}
    (covers : Covers text a (segments.map Segment.span) text.length)
    (verbatim : ∀ s ∈ segments,Verbatim text s) :
    ({done := group limits segments} : Groups).Sound text a text.length :=
  sound_blocks limits covers le_rfl verbatim

end Packing

end LocalBook.Rag.Chunking
