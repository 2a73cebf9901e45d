import LocalBook.Actions.Schemas

/-! The patches of notes that keep their format: lines are put into the tags block of the
frontmatter or taken out of it, a link is appended, or spans of text are replaced. A note of
another shape is refused. -/
namespace LocalBook.Patches

/-- The message of an `UnsupportedPatch`. -/
abbrev Unsupported := String

def bom : Char := Char.ofNat 0xFEFF

def cr : Char := Char.ofNat 13

def lf : Char := Char.ofNat 10

/-- `_strip_bom`. -/
def stripBom (text : Text) : Text × Bool :=
  if text.head? = some bom then (text.drop 1,true) else (text,false)

def bomPrefix (marked : Bool) : Text := if marked then [bom] else []

/-- `text[start:stop]`. -/
def slice (text : Text) (start stop : Nat) : Text := (text.drop start).take (stop - start)

/-- The index behind `index` skipped characters at which the pattern stands. -/
def search (pattern : Text) : Nat → Text → Option Nat
  | index, [] => if pattern = [] then some index else none
  | index, c :: rest =>
    if Text.startsWith (c :: rest) pattern then some index else search pattern (index + 1) rest

/-- `text.find(pattern, start)`. -/
def find (text pattern : Text) (start : Nat) : Option Nat := search pattern start (text.drop start)

/-- `_frontmatter_span`. -/
def frontmatterSpan (text : Text) : Option (Nat × Nat) :=
  let cleaned := (stripBom text).1
  if !Text.startsWith cleaned "---".toList then none
  else match find cleaned [lf] 0 with
    | none => none
    | some firstEnd =>
      if Text.strip (cleaned.take firstEnd) ≠ "---".toList then none
      else (find cleaned (lf :: "---".toList) (firstEnd + 1)).map fun marker =>
        (firstEnd + 1,marker + 1)

/-- A boundary of `str.splitlines`. -/
def endsLine (c : Char) : Bool :=
  let n := c.val
  (10 ≤ n && n ≤ 13) || (28 ≤ n && n ≤ 30) || n == 0x85 || n == 0x2028 || n == 0x2029

/-- `text.splitlines(keepends=True)`. -/
def splitLines : Text → List Text
  | [] => []
  | c :: rest =>
    if endsLine c ∧ ¬ (c = cr ∧ rest.head? = some lf) then [c] :: splitLines rest
    else match splitLines rest with
      | line :: others => (c :: line) :: others
      | [] => [[c]]

def isBlank (c : Char) : Bool := c = ' ' || c = Char.ofNat 9

/-- `raw.rstrip("\r\n")`. -/
def withoutEnd (raw : Text) : Text := Text.rstripBy (fun c => c = cr || c = lf) raw

/-- `_TAG_HEADER_RE.match`, of a line without its end. -/
def isTagHeader (line : Text) : Bool :=
  Text.startsWith line "tags:".toList &&
    match (line.drop 5).dropWhile isBlank with
    | [] => true
    | c :: _ => c = '#'

/-- `_TAG_ITEM_RE.match`, of a line without its end: the text of its group. -/
def tagItem (line : Text) : Option Text :=
  if 4 < (line.takeWhile isBlank).length then none
  else match line.dropWhile isBlank with
    | mark :: gap :: rest =>
      if (mark = '-' ∨ mark = '*') ∧ isBlank gap then some (Text.stripBy isBlank rest) else none
    | _ => none

abbrev Span := Text × Nat × Nat

def tagItems (cursor : Nat) : List Text → List Span × Option Nat
  | [] => ([],none)
  | raw :: rest =>
    let (items,blockEnd) := tagItems (cursor + raw.length) rest
    if (tagItem (withoutEnd raw)).isSome then
      ((raw,cursor,cursor + raw.length) :: items,blockEnd)
    else if Text.strip (withoutEnd raw) = [] then (items,blockEnd)
    else ([],some cursor)

def tagLines (cursor : Nat) : List Text → Option (List Span × Option Nat)
  | [] => none
  | raw :: rest =>
    if isTagHeader (withoutEnd raw) then
      let (items,blockEnd) := tagItems (cursor + raw.length) rest
      some ((raw,cursor,cursor + raw.length) :: items,blockEnd)
    else tagLines (cursor + raw.length) rest

/-- `_tag_block_lines`. -/
def tagBlockLines (frontmatter : Text) (base : Nat) : Option (List Span × Nat) :=
  (tagLines base (splitLines frontmatter)).map fun (lines,blockEnd) =>
    (lines,blockEnd.getD (base + frontmatter.length))

/-- `_tag_block_abs`. -/
def tagBlockAbs (frontmatter : Text) (base : Nat) : Option (Nat × Nat) :=
  (tagBlockLines frontmatter base).bind fun (lines,blockEnd) =>
    lines.head?.map fun first => (first.2.1,blockEnd)

/-- A line that opens with a `tags` key in any of its spellings. -/
def namesTags (line : Text) : Bool :=
  ["tags","'tags'","\"tags\""].any fun key =>
    Text.startsWith line key.toList &&
      ((line.drop key.length).dropWhile isBlank).head? = some ':'

def newlineOf (text : Text) : Text := if (find text [cr,lf] 0).isSome then [cr,lf] else [lf]

def addition (newline : Text) (tags : List Text) : Text :=
  tags.flatMap fun tag => "  - ".toList ++ tag ++ newline

def addTags (source : Text) (tags : List Text) : Except Unsupported Text :=
  let (text,marked) := stripBom source
  let newline := newlineOf text
  match frontmatterSpan text with
  | none => .ok (bomPrefix marked ++ "---".toList ++ newline ++ "tags:".toList ++ newline ++
      addition newline tags ++ "---".toList ++ newline ++ text)
  | some (start,stop) =>
    match tagBlockAbs (slice text start stop) start with
    | some (_,blockEnd) =>
      .ok (bomPrefix marked ++ text.take blockEnd ++ addition newline tags ++ text.drop blockEnd)
    | none =>
      if ((slice text start stop).splitOn lf).any namesTags then
        .error "existing tags format cannot be safely extended"
      else .ok (bomPrefix marked ++ text.take stop ++ "tags:".toList ++ newline ++
        addition newline tags ++ text.drop stop)

def holdsTag [Host] (wanted : List Text) (raw : Text) : Bool :=
  match tagItem (withoutEnd raw) with
  | none => false
  | some item => Host.casefold (Text.strip item) ∈ wanted

def removeTags [Host] (source : Text) (tags : List Text) : Except Unsupported Text :=
  let (text,marked) := stripBom source
  match frontmatterSpan text with
  | none => .error "note has no frontmatter; nothing to remove"
  | some (start,stop) =>
    match tagBlockLines (slice text start stop) start with
    | none => .error "note has no tags block; nothing to remove"
    | some (lines,_) =>
      let kept := lines.filter fun line => !holdsTag (tags.map Host.casefold) line.1
      let blockStart := (lines.head?.map (·.2.1)).getD 0
      let blockEnd := (lines.getLast?.map (·.2.2)).getD 0
      if kept.length = lines.length then .error "requested tags were not present in the note"
      else if (kept.filter fun line => (tagItem (withoutEnd line.1)).isSome) = [] then
        .ok (bomPrefix marked ++ text.take blockStart ++ text.drop blockEnd)
      else .ok (bomPrefix marked ++ text.take blockStart ++ kept.flatMap (·.1) ++
        text.drop blockEnd)

/-- `_inside_fence_at_end`. -/
def insideFenceAtEnd (source : Text) : Bool :=
  ((source.splitOn lf).filter fun line =>
    Text.startsWith (line.dropWhile isBlank) (List.replicate 3 (Char.ofNat 96))).length % 2 = 1

def addLink (source target : Text) : Except Unsupported Text :=
  if insideFenceAtEnd source then .error "cannot append a link inside an open code fence"
  else
    let body := Text.rstripBy (· = cr) (Text.rstripBy (· = lf) source)
    .ok (body ++ [lf,lf] ++ "[[".toList ++ target ++ "]]".toList ++ [lf])

def maxOutputBytes : Nat := 5000000

/-- The loop of `apply_hunks`; the offset is what the hunks before have shifted the text by. -/
def replaceHunks : List PatchHunk → Int → Text → Except Unsupported Text
  | [], _, text => .ok text
  | hunk :: rest, offset, text =>
    let start := (hunk.start : Int) + offset
    if start < 0 ∨ (text.length : Int) < start + hunk.oldText.length then
      .error "hunk start out of range"
    else
      let start := start.toNat
      let stop := start + hunk.oldText.length
      if slice text start stop ≠ hunk.oldText then .error "patch context mismatch"
      else replaceHunks rest (offset + hunk.newText.length - hunk.oldText.length)
        (text.take start ++ hunk.newText ++ text.drop stop)

def applyHunks (text : Text) (hunks : List PatchHunk) : Except Unsupported Text := do
  let result ← replaceHunks (hunks.mergeSort fun a b => a.start ≤ b.start) 0 text
  if maxOutputBytes < Text.utf8Length result then .error "patch output exceeds the size limit"
  pure result

/-- `_strip_tags_block`. -/
def stripTagsBlock (text : Text) : Text :=
  let (cleaned,marked) := stripBom text
  match frontmatterSpan cleaned with
  | none => text
  | some (start,stop) =>
    match tagBlockAbs (slice cleaned start stop) start with
    | none => text
    | some (blockStart,blockEnd) =>
      bomPrefix marked ++ cleaned.take blockStart ++ cleaned.drop blockEnd

/-- `tags_only_change`. -/
def tagsOnlyChange (before after : Text) : Bool := stripTagsBlock before = stripTagsBlock after

def bodyOf (source : Text) : Text :=
  let text := (stripBom source).1
  text.drop (((frontmatterSpan text).map Prod.snd).getD 0)

section Bodies

theorem search_le {pattern text : Text} {index found : Nat}
    (here : search pattern index text = some found) : index ≤ found := by
  induction text generalizing index with
  | nil =>
    unfold search at here
    split at here
    · exact (Option.some.inj here).le
    · cases here
  | cons c rest ih =>
    unfold search at here
    split at here
    · exact (Option.some.inj here).le
    · exact (Nat.le_succ _).trans (ih here)

theorem frontmatterSpan_le {text : Text} {start stop : Nat}
    (span : frontmatterSpan text = some (start,stop)) : start ≤ stop := by
  unfold frontmatterSpan at span
  dsimp only at span
  split at span
  · cases span
  · split at span
    · cases span
    · split at span
      · cases span
      · obtain ⟨marker,found,same⟩ := Option.map_eq_some_iff.mp span
        obtain ⟨rfl,rfl⟩ := Prod.mk.inj same
        exact (search_le found).trans (Nat.le_succ _)

theorem length_splitLines (text : Text) : ((splitLines text).map List.length).sum = text.length := by
  induction text with
  | nil => rfl
  | cons c rest ih =>
    unfold splitLines
    split
    · simp [ih,Nat.add_comm]
    · split
      next line others same =>
        simp only [same,List.map_cons,List.sum_cons] at ih
        simp only [List.map_cons,List.sum_cons,List.length_cons]
        omega
      next same =>
        simp only [same,List.map_nil,List.sum_nil] at ih
        simp [← ih]

/-- The items end before the lines do. -/
theorem tagItems_within {lines : List Text} {cursor : Nat} :
    (∀ item ∈ (tagItems cursor lines).1, item.2.2 ≤ cursor + (lines.map List.length).sum) ∧
      ∀ stop ∈ (tagItems cursor lines).2, stop ≤ cursor + (lines.map List.length).sum := by
  induction lines generalizing cursor with
  | nil => simp [tagItems]
  | cons raw rest ih =>
    obtain ⟨items,ended⟩ := @ih (cursor + raw.length)
    simp only [List.map_cons,List.sum_cons,← Nat.add_assoc]
    unfold tagItems
    dsimp only
    split
    · refine ⟨fun item found => ?_,ended⟩
      rcases List.mem_cons.mp found with rfl | found
      · exact Nat.le_add_right _ _
      · exact items item found
    · split
      · exact ⟨items,ended⟩
      · refine ⟨by simp,fun stop found => ?_⟩
        obtain rfl : cursor = stop := Option.some.inj found
        omega

theorem tagLines_within {lines : List Text} {cursor : Nat} {block : List Span × Option Nat}
    (found : tagLines cursor lines = some block) :
    (∀ line ∈ block.1, line.2.2 ≤ cursor + (lines.map List.length).sum) ∧
      ∀ stop ∈ block.2, stop ≤ cursor + (lines.map List.length).sum := by
  induction lines generalizing cursor with
  | nil => cases found
  | cons raw rest ih =>
    simp only [List.map_cons,List.sum_cons,← Nat.add_assoc]
    unfold tagLines at found
    split at found
    · obtain rfl := Option.some.inj found
      obtain ⟨items,ended⟩ := @tagItems_within rest (cursor + raw.length)
      refine ⟨fun line here => ?_,ended⟩
      rcases List.mem_cons.mp here with rfl | here
      · exact Nat.le_add_right _ _
      · exact items line here
    · exact ih found

/-- The tags block lies inside the frontmatter. -/
theorem tagBlockLines_within {text : Text} {start stop blockEnd : Nat} {lines : List Span}
    (ordered : start ≤ stop)
    (found : tagBlockLines (slice text start stop) start = some (lines,blockEnd)) :
    (∀ line ∈ lines, line.2.2 ≤ stop) ∧ blockEnd ≤ stop := by
  obtain ⟨block,here,same⟩ := Option.map_eq_some_iff.mp found
  obtain ⟨rfl,rfl⟩ := Prod.mk.inj same
  have short : (slice text start stop).length ≤ stop - start := List.length_take_le _ _
  obtain ⟨items,ended⟩ := tagLines_within here
  rw [length_splitLines] at items ended
  refine ⟨fun line member => (items line member).trans (by omega),?_⟩
  cases last : block.2 with
  | none => simp only [Option.getD_none]; omega
  | some place => exact (ended place last).trans (by omega)

theorem drop_suffix {text front : Text} {start stop : Nat} (ordered : start ≤ stop) :
    text.drop stop <:+ front ++ text.drop start :=
  (List.drop_suffix_drop_left text ordered).trans (List.suffix_append _ _)

theorem addTags_body {source after : Text} {tags : List Text}
    (done : addTags source tags = .ok after) : bodyOf source <:+ after := by
  unfold addTags at done
  unfold bodyOf
  dsimp only at done ⊢
  cases span : frontmatterSpan (stripBom source).1 with
  | none =>
    rw [span] at done
    obtain rfl := Except.ok.inj done
    exact List.suffix_append _ _
  | some found =>
    obtain ⟨start,stop⟩ := found
    rw [span] at done
    dsimp only at done
    have ordered := frontmatterSpan_le span
    cases block : tagBlockAbs (slice (stripBom source).1 start stop) start with
    | none =>
      rw [block] at done
      dsimp only at done
      split at done
      · cases done
      · obtain rfl := Except.ok.inj done
        exact List.suffix_append _ _
    | some place =>
      rw [block] at done
      obtain rfl := Except.ok.inj done
      obtain ⟨⟨lines,blockEnd⟩,here,first⟩ := Option.bind_eq_some_iff.mp block
      obtain ⟨_,_,rfl⟩ := Option.map_eq_some_iff.mp first
      exact drop_suffix (tagBlockLines_within ordered here).2

theorem removeTags_body [Host] {source after : Text} {tags : List Text}
    (done : removeTags source tags = .ok after) : bodyOf source <:+ after := by
  unfold removeTags at done
  unfold bodyOf
  dsimp only at done ⊢
  cases span : frontmatterSpan (stripBom source).1 with
  | none =>
    rw [span] at done
    cases done
  | some found =>
    obtain ⟨start,stop⟩ := found
    rw [span] at done
    dsimp only at done
    cases block : tagBlockLines (slice (stripBom source).1 start stop) start with
    | none =>
      rw [block] at done
      cases done
    | some place =>
      obtain ⟨lines,blockEnd⟩ := place
      rw [block] at done
      dsimp only at done
      have inside := (tagBlockLines_within (frontmatterSpan_le span) block).1
      have last : ((lines.getLast?.map (·.2.2)).getD 0) ≤ stop := by
        cases final : lines.getLast? with
        | none => exact Nat.zero_le _
        | some line => exact inside line (List.mem_of_getLast? final)
      split at done
      · cases done
      · split at done
        · obtain rfl := Except.ok.inj done
          exact drop_suffix last
        · obtain rfl := Except.ok.inj done
          exact drop_suffix last

end Bodies

end LocalBook.Patches
