import LocalBook.Rag.Sizing

/-! What the chunker keeps together: a code block or a table is in one chunk, and so is a heading
with the block behind it as long as there is room for both. -/
namespace LocalBook.Rag.Chunking

open Patches (splitLines lf cr slice)

section Runs

variable {limits : Limits} {blocks l : List Segment} {groups : Groups} {s h b : Segment}

namespace Groups

/-- The blocks stand one behind the other in a group. -/
def Keeps (groups : Groups) (l : List Segment) : Prop :=
  (∃ g ∈ groups.done,l <:+: g) ∨ l <:+: groups.current

theorem Keeps.close (keeps : groups.Keeps l) : groups.close.Keeps l := by
  rw [Groups.close]
  split
  · exact keeps
  · rcases keeps with ⟨g,member,inside⟩ | open'
    · exact .inl ⟨g,List.mem_append_left _ member,inside⟩
    · exact .inl ⟨_,List.mem_append_right _ (List.mem_singleton_self _),open'⟩

theorem Keeps.closeIf (keeps : groups.Keeps l) (closes : Prop) [Decidable closes] :
    (groups.closeIf closes).Keeps l := by
  rw [Groups.closeIf]
  split
  · exact keeps.close
  · exact keeps

theorem Keeps.push (keeps : groups.Keeps l) (segment : Segment) (tokens : Nat) :
    (groups.push segment tokens).Keeps l :=
  keeps.imp_right fun open' => open'.trans (List.prefix_append _ _).isInfix

theorem Keeps.place (keeps : groups.Keeps l) (some' : l ≠ []) (segment : Segment) :
    (place limits groups segment).Keeps l := by
  rw [Chunking.place]
  dsimp only
  split
  · rcases keeps.close with ⟨g,member,inside⟩ | open'
    · exact .inl ⟨g,List.mem_append_left _ member,inside⟩
    · rw [current_close] at open'
      exact absurd (List.infix_nil.mp open') some'
  · exact (((keeps.closeIf _).closeIf _).push segment _).closeIf _

theorem Keeps.run (keeps : groups.Keeps l) (some' : l ≠ []) (segments : List Segment) :
    ∃ g ∈ (segments.foldl (Chunking.place limits) groups).close.done,l <:+: g := by
  induction segments generalizing groups with
  | nil =>
    rcases keeps.close with closed | open'
    · exact closed
    · rw [current_close] at open'
      exact absurd (List.infix_nil.mp open') some'
  | cons segment rest ih => exact ih (keeps.place some' segment)

end Groups

theorem keeps_place (unsplit : s.kind.whole = true ∨ estimateTokens s.text ≤ limits.maxTokens) :
    (place limits groups s).Keeps [s] := by
  rw [place]
  dsimp only
  split
  · next large =>
    have whole := unsplit.resolve_right (Nat.not_le_of_lt large)
    rw [splitSegment,if_pos whole]
    exact .inl ⟨[s],List.mem_append_right _ (List.mem_singleton_self _),List.infix_refl _⟩
  · apply Groups.Keeps.closeIf
    exact .inr (List.suffix_append _ _).isInfix

theorem kept_group (member : s ∈ blocks)
    (unsplit : s.kind.whole = true ∨ estimateTokens s.text ≤ limits.maxTokens) :
    ∃ g ∈ group limits blocks,s ∈ g := by
  obtain ⟨front,behind,rfl⟩ := List.append_of_mem member
  rw [group,List.foldl_append,List.foldl_cons]
  obtain ⟨g,there,inside⟩ := (keeps_place unsplit).run (List.cons_ne_nil _ _) behind
  exact ⟨g,there,inside.subset (List.mem_singleton_self s)⟩

theorem current_place (heading : h.kind = .heading)
    (within : estimateTokens h.text ≤ limits.maxTokens) :
    ∃ front,(place limits groups h).current = front ++ [h] := by
  rw [place]
  dsimp only
  rw [if_neg (Nat.not_lt_of_le within),Groups.closeIf,if_neg (by simp [heading,Kind.whole])]
  exact ⟨_,rfl⟩

theorem place_text (text : b.kind ≠ .heading)
    (within : estimateTokens b.text ≤ limits.maxTokens) :
    place limits groups b =
      let room := groups.closeIf (limits.maxTokens < groups.tokens + estimateTokens b.text)
      let filled := room.push b (estimateTokens b.text)
      filled.closeIf (limits.targetTokens ≤ filled.tokens ∧ b.kind.whole) := by
  have same : groups.closeIf (b.kind = .heading ∧
      startsNewSection groups.current b.headingLevel ∧ limits.targetTokens ≤ groups.tokens) =
        groups := if_neg fun opens => text opens.1
  rw [place]
  dsimp only
  rw [if_neg (Nat.not_lt_of_le within),same]

theorem keeps_room {front : List Segment} (open' : groups.current = front ++ [h])
    (text : b.kind ≠ .heading)
    (room : groups.tokens + estimateTokens b.text ≤ limits.maxTokens) :
    (place limits groups b).Keeps [h,b] := by
  rw [place_text text (by omega)]
  apply Groups.Keeps.closeIf
  right
  rw [Groups.closeIf,if_neg (by omega),Groups.push]
  dsimp only
  rw [open',List.append_assoc]
  exact (List.suffix_append _ _).isInfix

theorem place_full (text : b.kind ≠ .heading) (open' : groups.current ≠ [])
    (full : limits.maxTokens < groups.tokens + estimateTokens b.text) :
    place limits groups b = place limits {done := groups.close.done} b := by
  have shut : groups.close = {done := groups.close.done} := by
    rw [Groups.close,if_neg open']
  by_cases large : limits.maxTokens < estimateTokens b.text
  · rw [place,place]
    dsimp only
    rw [if_pos large,if_pos large]
    rfl
  · have within := Nat.le_of_not_lt large
    have ends : groups.closeIf (limits.maxTokens < groups.tokens + estimateTokens b.text) =
        {done := groups.close.done} := (if_pos full).trans shut
    have stays : ({done := groups.close.done} : Groups).closeIf
        (limits.maxTokens < 0 + estimateTokens b.text) = {done := groups.close.done} :=
      if_neg (by simpa using within)
    rw [place_text text within,place_text text within]
    dsimp only
    rw [ends,stays]

namespace Groups

def behind (done : List (List Segment)) (groups : Groups) : Groups :=
  {groups with done := done ++ groups.done}

theorem behind_close (done : List (List Segment)) (groups : Groups) :
    (groups.behind done).close = groups.close.behind done := by
  rw [Groups.close,Groups.close,behind,behind]
  split
  · rfl
  · rw [List.append_assoc]

theorem behind_closeIf (done : List (List Segment)) (groups : Groups) (closes : Prop)
    [Decidable closes] :
    (groups.behind done).closeIf closes = (groups.closeIf closes).behind done := by
  rw [Groups.closeIf,Groups.closeIf]
  split
  · exact behind_close done groups
  · rfl

theorem behind_push (done : List (List Segment)) (groups : Groups) (segment : Segment)
    (tokens : Nat) : (groups.behind done).push segment tokens =
      (groups.push segment tokens).behind done := rfl

theorem behind_place (done : List (List Segment)) (groups : Groups) (segment : Segment) :
    Chunking.place limits (groups.behind done) segment =
      (Chunking.place limits groups segment).behind done := by
  rw [Chunking.place,Chunking.place]
  dsimp only
  split
  · rw [behind_close,behind,behind,List.append_assoc]
  · rw [show (groups.behind done).current = groups.current from rfl,
      show (groups.behind done).tokens = groups.tokens from rfl,behind_closeIf,behind_closeIf,
      behind_push,behind_closeIf]
    rfl

theorem behind_run (done : List (List Segment)) (groups : Groups) (segments : List Segment) :
    segments.foldl (Chunking.place limits) (groups.behind done) =
      (segments.foldl (Chunking.place limits) groups).behind done := by
  induction segments generalizing groups with
  | nil => rfl
  | cons segment rest ih => rw [List.foldl_cons,List.foldl_cons,behind_place,ih]

end Groups

theorem group_behind (done : List (List Segment)) (segments : List Segment) :
    (segments.foldl (place limits) {done}).close.done = done ++ group limits segments := by
  have start : ({done} : Groups) = Groups.behind done {} := by
    rw [Groups.behind,List.append_nil]
  rw [start,Groups.behind_run,Groups.behind_close,Groups.behind,group]

/-- The blocks up to the heading are packed, with room left for the block behind it. -/
def Room (limits : Limits) (front : List Segment) (h b : Segment) : Prop :=
  estimateTokens h.text ≤ limits.maxTokens ∧
    ((front ++ [h]).foldl (place limits) {}).tokens + estimateTokens b.text ≤ limits.maxTokens

theorem group_of_room {front rest : List Segment} (heading : h.kind = .heading)
    (text : b.kind ≠ .heading) (room : Room limits front h b) :
    ∃ g ∈ group limits (front ++ h :: b :: rest),[h,b] <:+: g := by
  obtain ⟨within,fits⟩ := room
  rw [List.foldl_append,List.foldl_cons,List.foldl_nil] at fits
  rw [group,List.foldl_append,List.foldl_cons,List.foldl_cons]
  obtain ⟨before,open'⟩ := @current_place _ (front.foldl (place limits) {}) _ heading within
  exact (keeps_room open' text fits).run (List.cons_ne_nil _ _) rest

theorem group_of_no_room {front rest : List Segment} (heading : h.kind = .heading)
    (text : b.kind ≠ .heading) (full : ¬ Room limits front h b) :
    group limits (front ++ h :: b :: rest) =
      group limits (front ++ [h]) ++ group limits (b :: rest) := by
  change _ = ((front ++ [h]).foldl (place limits) {}).close.done ++ group limits (b :: rest)
  rw [group,List.foldl_append,List.foldl_cons,List.foldl_cons]
  rw [Room,List.foldl_append,List.foldl_cons,List.foldl_nil] at full
  rw [List.foldl_append,List.foldl_cons,List.foldl_nil]
  generalize front.foldl (place limits) {} = groups at full ⊢
  have cut : place limits (place limits groups h) b =
      place limits {done := (place limits groups h).close.done} b := by
    by_cases large : limits.maxTokens < estimateTokens h.text
    · have shut : place limits groups h = {done := (place limits groups h).close.done} := by
        rw [place]
        dsimp only
        rw [if_pos large]
        rfl
      rw [← shut]
    · obtain ⟨before,open'⟩ :=
        @current_place _ groups _ heading (Nat.le_of_not_lt large)
      apply place_full text (by simp [open'])
      by_contra fits
      exact full ⟨Nat.le_of_not_lt large,Nat.le_of_not_lt fits⟩
  rw [cut,← List.foldl_cons,group_behind]

end Runs

section Counting

variable {text line rest : Text} {a stop : Nat}

def Counts (text : Text) : Prop := ∃ c ∈ text,Text.isSpace c = false

theorem Counts.mono {other : Text} (counts : Counts text) (part : text ⊆ other) : Counts other := by
  obtain ⟨c,member,inner⟩ := counts
  exact ⟨c,part member,inner⟩

theorem counts_of_strip (some' : Text.strip text ≠ []) : Counts text := by
  have whole : slice text 0 text.length = text := by simp [slice]
  obtain ⟨i,c,_,_,found,inner⟩ := @exists_of_strip text 0 text.length (by rwa [whole])
  exact ⟨c,List.mem_of_getElem? found,inner⟩

theorem strip_of_counts (counts : Counts text) : Text.strip text ≠ [] := by
  intro blank
  obtain ⟨c,member,inner⟩ := counts
  rw [Wikilinks.spaces_of_strip blank c member] at inner
  cases inner

theorem unindented_subset (found : unindented line = some rest) : rest ⊆ line := by
  rw [unindented] at found
  split at found
  · obtain rfl := Option.some.inj found
    exact (List.dropWhile_suffix _).subset
  · cases found

theorem counts_fence {fence : Fence} (found : fenceOf line = some fence) : Counts line := by
  obtain ⟨rest,starts,found⟩ := Option.bind_eq_some_iff.mp found
  obtain ⟨c,head,found⟩ := Option.bind_eq_some_iff.mp found
  dsimp only at found
  split at found
  · next marks =>
    refine ⟨c,unindented_subset starts (List.mem_of_head? head),?_⟩
    rcases marks.1 with rfl | rfl <;> decide
  · cases found

theorem counts_heading {level : Nat} {title : Text} (found : headingOf line = some (level,title)) :
    Counts line := by
  obtain ⟨rest,starts,found⟩ := Option.bind_eq_some_iff.mp found
  dsimp only at found
  split at found
  · next marks =>
    refine ⟨'#',unindented_subset starts ?_,by decide⟩
    cases rest with
    | nil => simp at marks
    | cons c others =>
      by_cases same : c = '#'
      · exact same ▸ List.mem_cons_self
      · simp [same] at marks
  · cases found

theorem counts_row (row : isTableRow line = true) : Counts line := by
  rw [isTableRow] at row
  split at row
  · next rest starts =>
    refine ⟨'|',?_,by decide⟩
    have inside := unindented_subset starts List.mem_cons_self
    rw [withoutLf] at inside
    split at inside
    · exact List.mem_of_mem_dropLast inside
    · exact inside
  · cases row

theorem line_subset (there : text.drop a = line ++ rest) (long : a + line.length ≤ stop) :
    line ⊆ slice text a stop := by
  rw [slice_append (Nat.le_add_right a line.length) long,slice_start there]
  exact List.subset_append_left _ _

theorem counts_flush {stack : List (Nat × Text)} {pending : Option Pending} :
    ∀ s ∈ flushText text stack pending,Counts s.text := by
  cases pending with
  | none => exact fun _ impossible => by cases impossible
  | some pending =>
    rw [flushText]
    split
    · exact fun _ impossible => by cases impossible
    · next some' =>
      intro s member
      rw [List.mem_singleton.mp member]
      exact counts_of_strip some'

theorem counts_scan (fuel : Nat) (lines : List Text) (offset : Nat) (stack : List (Nat × Text))
    (pending : Option Pending) (there : text.drop offset = lines.flatten) :
    ∀ s ∈ scan text fuel lines offset stack pending,Counts s.text := by
  induction fuel generalizing lines offset stack pending with
  | zero => exact counts_flush
  | succ fuel ih =>
    cases lines with
    | nil => exact counts_flush
    | cons line rest =>
      rw [List.flatten_cons] at there
      have behind := drop_next there
      have joined {before : List Segment} {block : Segment} {blocks : List Segment}
          (first : ∀ s ∈ before,Counts s.text) (own : Counts block.text)
          (later : ∀ s ∈ blocks,Counts s.text) :
          ∀ s ∈ before ++ block :: blocks,Counts s.text := by
        intro s member
        rcases List.mem_append.mp member with front | back
        · exact first s front
        · rcases List.mem_cons.mp back with rfl | after
          · exact own
          · exact later s after
      rw [scan]
      dsimp only
      split
      · next fence found =>
        have inner : text.drop (offset + line.length) =
            (fenced fence rest).1.flatten ++ (fenced fence rest).2.flatten := by
          rw [behind,← List.flatten_append,fenced_append]
        apply joined counts_flush
        · have opens := (Option.filter_eq_some_iff.mp found).1
          exact (counts_fence opens).mono (line_subset there (Nat.le_add_right _ _))
        · exact ih _ _ _ _ (drop_next inner)
      · split
        · next level title found =>
          exact joined counts_flush (counts_heading found) (ih _ _ _ _ behind)
        · split
          · next row =>
            have inner : text.drop offset =
                (rows (line :: rest)).1.flatten ++ (rows (line :: rest)).2.flatten := by
              rw [there,← List.flatten_append,rows_append,List.flatten_cons]
            apply joined counts_flush
            · apply (counts_row row).mono
              apply line_subset there
              rw [rows,if_pos (.inl row)]
              simp
            · exact ih _ _ _ _ (drop_next inner)
          · split
            · intro s member
              exact (List.mem_append.mp member).elim (counts_flush s) (ih _ _ _ _ behind s)
            · split
              · exact ih _ _ _ _ behind
              · intro s member
                exact (List.mem_append.mp member).elim (counts_flush s) (ih _ _ _ _ behind s)

theorem counts_segments (text : Text) : ∀ s ∈ segments text,Counts s.text := by
  obtain ⟨k,_,blocks,behind⟩ := segments_eq text
  rw [blocks]
  apply counts_scan
  exact behind

end Counting

section Tables

variable {text line : Text} {pre post lines front back : List Text} {x y : Text}

theorem unindented_row (row : isTableRow line = true) : ∃ rest,unindented line = some ('|' :: rest) := by
  rw [isTableRow] at row
  split at row
  · next rest starts =>
    rw [withoutLf] at starts
    split at starts
    · next ended =>
      obtain ⟨some',last⟩ := List.getLast?_eq_some_iff.mp ended
      rw [last,List.dropLast_concat,unindented] at starts
      split at starts
      · next short =>
        have behind := Option.some.inj starts
        refine ⟨rest ++ [lf],?_⟩
        have inner : (some'.takeWhile Patches.isBlank).length ≠ some'.length := by
          intro whole
          have lengths := congrArg List.length
            (List.takeWhile_append_dropWhile (p := Patches.isBlank) (l := some'))
          rw [List.length_append,behind,whole] at lengths
          simp at lengths
        rw [last,unindented,List.takeWhile_append,if_neg inner,if_pos short,
          List.dropWhile_append,behind]
        rfl
      · cases starts
    · exact ⟨rest,starts⟩
  · cases row

theorem fenceOf_row (row : isTableRow line = true) : fenceOf line = none := by
  obtain ⟨rest,starts⟩ := unindented_row row
  rw [fenceOf,starts]
  simp [Wikilinks.tick]

theorem headingOf_row (row : isTableRow line = true) : headingOf line = none := by
  obtain ⟨rest,starts⟩ := unindented_row row
  rw [headingOf,starts]
  simp

theorem rows_length_ne (there : lines = pre ++ x :: y :: post) (row : isTableRow y = true) :
    (rows lines).1.length ≠ pre.length + 1 := by
  have stops (lines : List Text) : ∀ line ∈ (rows lines).2.head?,isTableRow line = false := by
    induction lines with
    | nil => simp [rows]
    | cons line rest ih =>
      rw [rows]
      split
      · exact ih
      · next ends => simpa using fun row => ends (.inl row)
  intro cut
  have parts : (rows lines).1 ++ (rows lines).2 = (pre ++ [x]) ++ y :: post := by
    rw [rows_append,there,List.append_assoc]
    rfl
  have behind := List.append_inj_right parts (by rw [List.length_append,cut]; rfl)
  have ended := stops lines y (by rw [behind]; rfl)
  rw [row] at ended
  cases ended

theorem fenced_length_ne (opening : Fence) (there : lines = pre ++ x :: y :: post)
    (none' : fenceOf x = none) : (fenced opening lines).1.length ≠ pre.length + 1 := by
  induction pre generalizing lines with
  | nil =>
    rw [there,List.nil_append,fenced,none']
    simp only [Option.any_none,Bool.false_eq_true,if_false,List.length_cons,List.length_nil]
    have least : 1 ≤ (fenced opening (y :: post)).1.length := by
      rw [fenced]
      split <;> simp
    omega
  | cons first rest ih =>
    have later := ih rfl
    rw [there,List.cons_append,fenced]
    split
    · simp
    · simpa using later

theorem both_of_append (parts : front ++ back = pre ++ x :: y :: post)
    (apart : front.length ≠ pre.length + 1) :
    (∃ between,pre = front ++ between ∧ back = between ++ x :: y :: post) ∨
      ∃ after,front = pre ++ x :: y :: after := by
  rcases List.append_eq_append_iff.mp parts with ⟨between,same,rest⟩ | ⟨after,same,rest⟩
  · exact .inl ⟨between,same,rest⟩
  · match after,rest with
    | [],rest => exact .inl ⟨[],by simpa using same.symm,by simpa using rest.symm⟩
    | [z],rest => simp [same] at apart
    | z :: w :: others,rest =>
      obtain ⟨first,rest⟩ := List.cons.inj rest
      obtain ⟨second,_⟩ := List.cons.inj rest
      exact .inr ⟨others,by rw [same,first,second]⟩

/-- Two rows that follow each other stand in one block that is never cut. -/
theorem rows_scan (fuel : Nat) (lines : List Text) (offset : Nat) (stack : List (Nat × Text))
    (pending : Option Pending) (enough : lines.length ≤ fuel)
    (there : lines = pre ++ x :: y :: post) (first : isTableRow x = true)
    (second : isTableRow y = true) :
    ∃ s ∈ scan text fuel lines offset stack pending,s.kind.whole = true ∧
      s.start ≤ offset + pre.flatten.length ∧
        offset + pre.flatten.length + x.length + y.length ≤ s.stop := by
  induction fuel generalizing lines offset stack pending pre with
  | zero =>
    rw [there] at enough
    simp at enough
  | succ fuel ih =>
    cases lines with
    | nil => simp at there
    | cons line rest =>
      have fuelled : rest.length ≤ fuel := Nat.le_of_succ_le_succ enough
      rw [scan]
      dsimp only
      split
      · next fence found =>
        have opens := (Option.filter_eq_some_iff.mp found).1
        cases pre with
        | nil =>
          rw [(List.cons.inj there).1,fenceOf_row first] at opens
          cases opens
        | cons line' inner =>
          obtain ⟨rfl,rest'⟩ := List.cons.inj there
          rcases both_of_append ((fenced_append fence rest).trans rest')
            (fenced_length_ne fence rest' (fenceOf_row first)) with ⟨between,front,behind⟩ | ⟨after,front⟩
          · obtain ⟨s,member,whole,low,high⟩ := ih (fenced fence rest).2
              (offset + line.length + (fenced fence rest).1.flatten.length) stack none
              ((fenced_length fence rest).trans fuelled) behind
            refine ⟨s,List.mem_append_right _ (List.mem_cons_of_mem _ member),whole,?_⟩
            rw [front,List.flatten_cons,List.flatten_append,List.length_append,List.length_append]
            omega
          · refine ⟨_,List.mem_append_right _ List.mem_cons_self,rfl,?_⟩
            rw [front]
            simp only [segment,List.flatten_cons,List.flatten_append,List.length_append]
            omega
      · -- behind a line that starts no fence, the rows are found in what is left
        have later (stack : List (Nat × Text)) (pending : Option Pending) {inner : List Text}
            (same : pre = line :: inner) :
            ∃ s ∈ scan text fuel rest (offset + line.length) stack pending,s.kind.whole = true ∧
              s.start ≤ offset + pre.flatten.length ∧
                offset + pre.flatten.length + x.length + y.length ≤ s.stop := by
          subst same
          obtain ⟨s,member,whole,low,high⟩ := ih rest (offset + line.length) stack pending fuelled
            (List.cons.inj there).2
          refine ⟨s,member,whole,?_⟩
          rw [List.flatten_cons,List.length_append]
          omega
        have shape : isTableRow line = true ∨ ∃ inner,pre = line :: inner := by
          cases pre with
          | nil => exact .inl ((List.cons.inj there).1 ▸ first)
          | cons line' inner => exact .inr ⟨inner,by rw [(List.cons.inj there).1]⟩
        split
        · next level title found =>
          rcases shape with row | ⟨inner,same⟩
          · rw [headingOf_row row] at found
            cases found
          · obtain ⟨s,member,held⟩ := later _ none same
            exact ⟨s,List.mem_append_right _ (List.mem_cons_of_mem _ member),held⟩
        · split
          · next row =>
            rcases both_of_append ((rows_append (line :: rest)).trans there)
              (rows_length_ne there second) with ⟨between,front,behind⟩ | ⟨after,front⟩
            · obtain ⟨s,member,whole,low,high⟩ := ih (rows (line :: rest)).2
                (offset + (rows (line :: rest)).1.flatten.length) stack none
                ((rows_length row).trans fuelled) behind
              refine ⟨s,List.mem_append_right _ (List.mem_cons_of_mem _ member),whole,?_⟩
              rw [front,List.flatten_append,List.length_append]
              omega
            · refine ⟨_,List.mem_append_right _ List.mem_cons_self,rfl,?_⟩
              rw [front]
              simp only [segment,List.flatten_cons,List.flatten_append,List.length_append]
              omega
          · next plain =>
            obtain ⟨inner,same⟩ := shape.resolve_left plain
            split
            · obtain ⟨s,member,held⟩ := later stack none same
              exact ⟨s,List.mem_append_right _ member,held⟩
            · split
              · exact later stack _ same
              · obtain ⟨s,member,held⟩ := later stack _ same
                exact ⟨s,List.mem_append_right _ member,held⟩

end Tables

section Keeping

variable {limits : Limits} {path text : Text} {metadata : Metadata}

def Together (chunks : List Chunk) (start stop : Nat) : Prop :=
  ∃ chunk ∈ chunks,chunk.piece.startOffset ≤ start ∧ stop ≤ chunk.piece.endOffset

def isRow (line : Text) : Bool := isTableRow (line.filter fun c => c ≠ cr)

def RowsAt (text : Text) (start stop : Nat) : Prop :=
  ∃ front first second rest,splitLines text = front ++ first :: second :: rest ∧
    start = front.flatten.length ∧ stop = start + first.length + second.length ∧
    bodyOffset text ≤ start ∧ isRow first = true ∧ isRow second = true

/-- No code block or table is cut, nor a heading off the block behind it. -/
structure Kept (text : Text) (chunks : List Chunk) : Prop where
  blocks : ∀ s ∈ segments text,s.kind.whole = true → Together chunks s.start s.stop
  rows : ∀ start stop,RowsAt text start stop → Together chunks start stop
  headings : ∀ front h b rest,segments text = front ++ h :: b :: rest → h.kind = .heading →
    b.kind ≠ .heading → Together chunks h.start (b.start + 1)

/-- Rows that follow each other stand in one block that is not cut. -/
def RowsFit (limits : Limits) (text : Text) : Prop :=
  ∀ start stop,RowsAt text start stop → ∃ s ∈ segments text,s.start ≤ start ∧ stop ≤ s.stop ∧
    (s.kind.whole = true ∨ estimateTokens s.text ≤ limits.maxTokens)

/-- There is room for every heading and the block behind it. -/
def HeadingsFit (limits : Limits) (text : Text) : Prop :=
  ∀ front h b rest,segments text = front ++ h :: b :: rest → h.kind = .heading →
    b.kind ≠ .heading → Room limits front h b

theorem slice_subset {a b c d : Nat} (low : a ≤ b) (within : b ≤ c) (high : c ≤ d) :
    slice text b c ⊆ slice text a d := by
  rw [slice_append low (within.trans high),slice_append within high]
  exact List.Subset.trans (List.subset_append_left _ _) (List.subset_append_right _ _)

theorem together_group {g : List Segment} (member : g ∈ group limits (segments text))
    {s t : Segment} (first : s ∈ g) (second : t ∈ g) (own : s ∈ segments text) :
    ∃ chunk ∈ document limits path metadata text,
      chunk.piece.startOffset ≤ s.start ∧ t.stop ≤ chunk.piece.endOffset := by
  have some' : g ≠ [] := List.ne_nil_of_mem first
  have starts := List.head?_eq_some_head some'
  have ends := List.getLast?_eq_getLast_of_ne_nil some'
  obtain ⟨covers,verbatim⟩ := covers_group member starts ends
  have inFirst := covers.bounds (List.mem_map_of_mem (f := Segment.span) first)
  have inSecond := covers.bounds (List.mem_map_of_mem (f := Segment.span) second)
  have counts := (counts_segments text s own).mono
    (verbatim s first ▸ slice_subset inFirst.1 inFirst.2.1 inFirst.2.2)
  have made : pieceOf path metadata text g (g.head some') (g.getLast some') ∈
      pieces limits path metadata text := by
    rw [pieces,if_neg]
    · apply List.mem_filterMap.mpr
      refine ⟨g,member,?_⟩
      rw [groupPiece,starts,ends]
      exact if_neg (strip_of_counts counts)
    · apply strip_of_counts
      apply counts.mono
      exact List.Subset.trans (List.take_subset _ _) (List.drop_subset _ _)
  rw [← map_piece_document] at made
  obtain ⟨chunk,there,same⟩ := List.mem_map.mp made
  refine ⟨chunk,there,?_⟩
  rw [same]
  exact ⟨inFirst.1,inSecond.2.2⟩

theorem start_lt_stop {s : Segment} (member : s ∈ segments text) : s.start < s.stop := by
  obtain ⟨c,there,_⟩ := counts_segments text s member
  rw [(covers_segments text).2 s member,slice] at there
  have some' := List.length_pos_of_mem there
  rw [List.length_take] at some'
  omega

theorem together_unsplit {s : Segment} (member : s ∈ segments text)
    (unsplit : s.kind.whole = true ∨ estimateTokens s.text ≤ limits.maxTokens) :
    Together (document limits path metadata text) s.start s.stop := by
  obtain ⟨g,there,inside⟩ := kept_group member unsplit
  exact together_group there inside inside member

theorem together_heading_iff {front rest : List Segment} {h b : Segment}
    (blocks : segments text = front ++ h :: b :: rest) (heading : h.kind = .heading)
    (other : b.kind ≠ .heading) :
    Together (document limits path metadata text) h.start (b.start + 1) ↔
      Room limits front h b := by
  have first : h ∈ segments text := by simp [blocks]
  have second : b ∈ segments text := by simp [blocks]
  have long := start_lt_stop first
  have long' := start_lt_stop second
  constructor
  · rintro ⟨chunk,member,low,high⟩
    by_contra full
    have listed : chunk.piece ∈ pieces limits path metadata text := by
      rw [← map_piece_document]
      exact List.mem_map_of_mem member
    obtain ⟨g,there,head,last,starts,ends,_,same⟩ := mem_pieces listed
    rw [same,pieceOf] at low high
    dsimp only at low high
    have hull := hull_of_ends starts ends
    obtain ⟨covers,verbatim⟩ := covers_segments text
    have parts : segments text = (front ++ [h]) ++ b :: rest := by simp [blocks]
    rw [blocks,group_of_no_room heading other full] at there
    rw [parts,List.map_append] at covers
    rw [parts] at verbatim
    obtain ⟨c,left,right⟩ := covers.split
    have behind : c ≤ b.start := right.1
    have before := (left.bounds (List.mem_map_of_mem (f := Segment.span)
      (List.mem_append_right front (List.mem_singleton_self h)))).2.2
    change h.stop ≤ c at before
    rcases List.mem_append.mp there with early | late
    · have sound := sound_blocks limits left right.le fun s listed =>
        verbatim s (List.mem_append_left _ listed)
      have inside := sound.covers.bounds (List.mem_map_of_mem (f := Segment.span) (by
        rw [Groups.all,List.append_nil]
        exact List.mem_flatten.mpr ⟨g,early,List.mem_of_getLast? ends⟩))
      have stops : last.stop ≤ c := inside.2.2
      omega
    · have sound := sound_blocks limits right le_rfl fun s listed =>
        verbatim s (List.mem_append_right _ listed)
      have inside := sound.covers.bounds (List.mem_map_of_mem (f := Segment.span) (by
        rw [Groups.all,List.append_nil]
        exact List.mem_flatten.mpr ⟨g,late,List.mem_of_head? starts⟩))
      have begins : c ≤ head.start := inside.1
      omega
  · intro room
    obtain ⟨g,there,inside⟩ := @group_of_room limits h b front rest heading other room
    rw [← blocks] at there
    obtain ⟨chunk,member,low,high⟩ := @together_group limits path text metadata g there h b
      (inside.subset (by simp)) (inside.subset (by simp)) first
    exact ⟨chunk,member,low,by omega⟩

theorem rowsFit_of_lf (limits : Limits) (plain : cr ∉ text) : RowsFit limits text := by
  rintro start stop ⟨front,x,y,rest,lines,rfl,rfl,inside,first,second⟩
  have row {line : Text} (member : line ∈ splitLines text) (found : isRow line = true) :
      isTableRow line = true := by
    have whole : line.filter (fun c => c ≠ cr) = line := by
      apply List.filter_eq_self.mpr
      intro c there
      have listed : c ∈ (splitLines text).flatten := List.mem_flatten.mpr ⟨line,member,there⟩
      rw [Wikilinks.flatten_splitLines] at listed
      exact decide_eq_true fun same => plain (same ▸ listed)
    rwa [isRow,whole] at found
  obtain ⟨k,same,blocks,_⟩ := segments_eq text
  have reached : k ≤ front.length := by
    by_contra short
    have parts : (splitLines text).take k = front ++ x :: (y :: rest).take (k - front.length - 1) := by
      rw [lines,List.take_append,List.take_of_length_le (by omega),
        show k - front.length = k - front.length - 1 + 1 by omega,List.take_succ_cons]
      rfl
    have some' := List.length_pos_of_ne_nil (line_ne_nil text x (by simp [lines]))
    rw [same,parts,List.flatten_append,List.flatten_cons,List.length_append,List.length_append]
      at inside
    omega
  have taken : (splitLines text).take k = front.take k := by
    rw [lines,List.take_append_of_le_length reached]
  have behind : (splitLines text).drop k = front.drop k ++ x :: y :: rest := by
    rw [lines,List.drop_append_of_le_length reached]
  have total : bodyOffset text + (front.drop k).flatten.length = front.flatten.length := by
    rw [same,taken,← List.length_append,← List.flatten_append,List.take_append_drop]
  obtain ⟨s,member,whole,low,high⟩ := @rows_scan text _ rest x y _ ((splitLines text).drop k)
    (bodyOffset text) [] none le_rfl behind (row (by simp [lines]) first)
    (row (by simp [lines]) second)
  refine ⟨s,?_,by omega,by omega,.inl whole⟩
  rw [blocks]
  exact member

def longParagraph : Text := "# h\n".toList ++ List.replicate 51 '字'

end Keeping

end LocalBook.Rag.Chunking
