import LocalBook.Decimal
import LocalBook.Workspace.References
import LocalBook.Workspace.Tasks

/-! The text that the preview parses: highlights, task boxes and links become tags and Markdown
links, line by line. What is attached to a task is found at its place in the note. -/
namespace LocalBook.Workspace.Preview

open Renaming (fenceMatch)
open Tasks

/-! ### Boxes -/

def truth (checked : Bool) : Text := if checked then "true".toList else "false".toList

def tagParts : Text × Text × Text × Text :=
  ("<span class=\"task-toggle\" role=\"checkbox\" tabindex=\"0\" aria-checked=\"".toList,
    "\" data-task-index=\"".toList,"\" data-task-checked=\"".toList,"\">".toList)

def taskTag (item : TaskItemRef) : Text :=
  tagParts.1 ++ truth item.checked ++ tagParts.2.1 ++ Decimal.natText item.index ++
    tagParts.2.2.1 ++ truth item.checked ++ tagParts.2.2.2

def slice (text : Text) (start stop : Nat) : Text := (text.drop start).take (stop - start)

def wrapTasks (source : Text) (cursor : Nat) : List TaskItemRef → Text
  | [] => source.drop cursor
  | item :: rest => slice source cursor item.start ++ taskTag item ++
      slice source item.start item.stop ++ "</span>".toList ++ wrapTasks source item.stop rest

def markTaskCheckboxes (source : Text) : Text := wrapTasks source 0 (taskItems source)

/-! ### Highlights -/

/-- Where `/==/g` matches. -/
def delimiters (position : Nat) : Text → List Nat
  | '=' :: '=' :: rest => position :: delimiters (position + 2) rest
  | _ :: rest => delimiters (position + 1) rest
  | [] => []

/-- The last of `<` and `>` up to here is `<`. -/
def insideTag (line : Text) (position : Nat) : Bool :=
  (line.take (position + 1)).reverse.find? (fun c => c = '<' || c = '>') = some '<'

def isLiteral (line : Text) (position : Nat) : Bool :=
  Renaming.ticks (line.take position) % 2 = 1 || insideTag line position

def pairUp (line : Text) : Option Nat → List Nat → List (Nat × Nat)
  | _, [] => []
  | pending, position :: rest =>
    if isLiteral line position then pairUp line pending rest
    else match pending with
      | none => pairUp line (some position) rest
      | some start =>
        if position = start + 2 then pairUp line (some position) rest
        else (start,position) :: pairUp line none rest

def tagPairs (line : Text) (cursor : Nat) : List (Nat × Nat) → Text
  | [] => line.drop cursor
  | (start,stop) :: rest => slice line cursor start ++ "<mark>".toList ++
      slice line (start + 2) stop ++ "</mark>".toList ++ tagPairs line (stop + 2) rest

def replaceInlineHighlights (line : Text) : Text :=
  tagPairs line 0 (pairUp line none (delimiters 0 line))

/-- The fence of `preprocessHighlights` and `preprocessWikilinks`: its length does not count. -/
def behindMarker (marker : Char) (fence : Option Char) : Option Char :=
  if fence = some marker then none else if fence = none then some marker else fence

/-- The lines outside fences, replaced. -/
def openLines (replace : Text → Text) (fence : Option Char) : List Text → List Text
  | [] => []
  | line :: rest =>
    match fenceMatch line with
    | some marker => line :: openLines replace (behindMarker marker fence) rest
    | none => (if fence = none then replace line else line) :: openLines replace fence rest

def preprocessHighlights (source : Text) : Text :=
  Text.join ['\n'] (openLines replaceInlineHighlights none (Text.split '\n' source))

/-! ### Wikilinks -/

/-- `.replace(/([\\[\]])/g, "\\$1")`. -/
def escapeLabel (label : Text) : Text :=
  label.flatMap fun c => if ['\\','[',']'].contains c then ['\\',c] else [c]

def wikilinkToMarkdown (raw : Text) : Text :=
  let parsed := Renaming.parseWikilink raw
  if parsed.web ∨ parsed.embed ∨ parsed.target = [] then raw
  else
    let suffix := if parsed.section_.getD [] ≠ [] then '#' :: parsed.section_.getD []
      else Renaming.behind '^' (parsed.block.getD [])
    ['['] ++ escapeLabel parsed.label ++ suffix ++ "](wikilink:".toList ++
      References.encodeURIComponent parsed.target ++ [')']

def linkPair (pair : Renaming.Pair) : Text :=
  let embed := Renaming.embeds pair.gap
  let raw := (if embed then ['!'] else []) ++ Renaming.bracketed pair.inner
  (if embed then pair.gap.dropLast else pair.gap) ++
    (if pair.linked then wikilinkToMarkdown raw else raw)

def replaceInlineWikilinks (line : Text) : Text :=
  (Renaming.marked [] (Renaming.pairs line).1).flatMap linkPair ++ (Renaming.pairs line).2

/-- The lines of `preprocessWikilinks`; an empty last one is not read. -/
def wikilinkLines (source : Text) : List Text :=
  let lines := Text.split '\n' source
  openLines replaceInlineWikilinks none (if lines.getLast? = some [] then lines.dropLast else lines)

def preprocessWikilinks (source : Text) : Text := Text.join ['\n'] (wikilinkLines source)

def prepared (source : Text) : Text :=
  preprocessWikilinks (markTaskCheckboxes (preprocessHighlights source))

section Highlighting

theorem delimiters_here {line : Text} {start position : Nat}
    (inside : position ∈ delimiters start line) :
    ∃ offset,position = start + offset ∧ ∃ rest,line.drop offset = '=' :: rest := by
  induction start,line using delimiters.induct with
  | case1 start rest ih =>
    rcases List.mem_cons.mp inside with rfl | later
    · exact ⟨0,rfl,_,rfl⟩
    · obtain ⟨offset,rfl,here⟩ := ih later
      exact ⟨offset + 2,by omega,here⟩
  | case2 start c rest other ih =>
    rw [delimiters] at inside
    · obtain ⟨offset,rfl,here⟩ := ih inside
      exact ⟨offset + 1,by omega,here⟩
    · exact other
  | case3 start => cases inside

theorem mem_pairUp {line : Text} {pending : Option Nat} {positions : List Nat} {start stop : Nat}
    (inside : (start,stop) ∈ pairUp line pending positions) :
    pending = some start ∨ start ∈ positions := by
  induction positions generalizing pending with
  | nil => cases inside
  | cons position rest ih =>
    unfold pairUp at inside
    split at inside
    · exact (ih inside).imp_right (List.mem_cons_of_mem _)
    · split at inside
      · exact .inr ((ih inside).elim (fun same => Option.some.inj same ▸ List.mem_cons_self)
          (List.mem_cons_of_mem _))
      · split at inside
        · exact .inr ((ih inside).elim (fun same => Option.some.inj same ▸ List.mem_cons_self)
            (List.mem_cons_of_mem _))
        · rcases List.mem_cons.mp inside with same | later
          · cases same
            exact .inl rfl
          · exact .inr ((ih later).elim (fun same => by cases same) (List.mem_cons_of_mem _))

theorem highlights_alike (line : Text) : Alike Starts line (replaceInlineHighlights line) := by
  rw [replaceInlineHighlights]
  cases paired : pairUp line none (delimiters 0 line) with
  | nil => exact .refl line
  | cons pair rest =>
    obtain ⟨start,stop⟩ := pair
    have opened := mem_pairUp (paired ▸ List.mem_cons_self : (start,stop) ∈ pairUp ..)
    obtain ⟨offset,rfl,after,here⟩ := delimiters_here (opened.resolve_left (by simp))
    rw [Nat.zero_add]
    have whole : line = line.take offset ++ '=' :: after := by
      rw [← here,List.take_append_drop]
    have front : slice line 0 offset = line.take offset := rfl
    rw [tagPairs,front]
    conv_lhs => rw [whole]
    simp only [List.append_assoc]
    exact .append _ (.stop _ _ (.inl rfl) (.inr rfl))

theorem mem_tagPairs {line : Text} {cursor : Nat} {pairs : List (Nat × Nat)} {c : Char}
    (inside : c ∈ tagPairs line cursor pairs) :
    c ∈ line ∨ c ∈ "<mark>".toList ∨ c ∈ "</mark>".toList := by
  induction pairs generalizing cursor with
  | nil => exact .inl (List.mem_of_mem_drop inside)
  | cons pair rest ih =>
    have sliced {start stop : Nat} (inside : c ∈ slice line start stop) : c ∈ line :=
      List.mem_of_mem_drop (List.mem_of_mem_take inside)
    simp only [tagPairs,List.mem_append] at inside
    rcases inside with (((inside | inside) | inside) | inside) | inside
    · exact .inl (sliced inside)
    · exact .inr (.inl inside)
    · exact .inl (sliced inside)
    · exact .inr (.inr inside)
    · exact ih inside

theorem highlights_oneLine {line : Text} (single : '\n' ∉ line) :
    '\n' ∉ replaceInlineHighlights line := by
  intro inside
  rcases mem_tagPairs inside with inside | inside | inside
  · exact single inside
  · exact absurd inside (by decide)
  · exact absurd inside (by decide)

end Highlighting

/-! ### Lines -/

section Lines

variable {replace : Text → Text} {fence : Option Char} {lines lines' : List Text}

theorem forall₂_openLines (alike : ∀ line,Alike Starts line (replace line)) (fence : Option Char)
    (lines : List Text) : List.Forall₂ (Alike Starts) lines (openLines replace fence lines) := by
  induction lines generalizing fence with
  | nil => exact .nil
  | cons line rest ih =>
    rw [openLines]
    split
    · exact .cons (.refl line) (ih _)
    · refine .cons ?_ (ih _)
      split
      · exact alike line
      · exact .refl line

theorem oneLine_openLines (kept : ∀ line,'\n' ∉ line → '\n' ∉ replace line)
    (single : ∀ line ∈ lines,'\n' ∉ line) :
    ∀ line ∈ openLines replace fence lines,'\n' ∉ line := by
  induction lines generalizing fence with
  | nil => exact fun _ inside => by cases inside
  | cons line rest ih =>
    have here := single line List.mem_cons_self
    have later := fun fence => @ih fence fun x inside => single x (List.mem_cons_of_mem _ inside)
    rw [openLines]
    split
    · exact List.forall_mem_cons.mpr ⟨here,later _⟩
    · refine List.forall_mem_cons.mpr ⟨?_,later _⟩
      split
      · exact kept line here
      · exact here

theorem openLines_ne_nil (some_ : lines ≠ []) : openLines replace fence lines ≠ [] := by
  cases lines with
  | nil => exact (some_ rfl).elim
  | cons line rest =>
    rw [openLines]
    split <;> simp

theorem split_preprocessHighlights (source : Text) :
    Text.split '\n' (preprocessHighlights source) =
      openLines replaceInlineHighlights none (Text.split '\n' source) :=
  split_lines (openLines_ne_nil (split_ne_nil source))
    (oneLine_openLines (fun _ => highlights_oneLine) single_of_split)

end Lines

/-! ### Places of items -/

/-- The line and the column of an offset. -/
def locate (offset : Nat) : List Text → Nat × Nat
  | [] => (0,offset)
  | line :: rest =>
    if offset ≤ line.length then (0,offset)
    else ((locate (offset - (line.length + 1)) rest).1 + 1,
      (locate (offset - (line.length + 1)) rest).2)

/-- The ordinal, the line, the column and the state of each item. -/
def placed (source : Text) : List (Nat × (Nat × Nat) × Bool) :=
  (taskItems source).map fun item =>
    (item.index,locate item.start (Text.split '\n' source),item.checked)

section Places

variable {offset offset' count : Nat} {fence : Option (Char × Nat)} {lines lines' : List Text}

theorem le_start {item : TaskItemRef} (inside : item ∈ taskItemsFrom offset fence count lines) :
    offset ≤ item.start := by
  obtain ⟨i,found⟩ := List.mem_iff_getElem?.mp inside
  obtain ⟨_,_,_,_,_,-,-,rfl,-⟩ := item_line found
  exact Nat.le_add_right ..

theorem locate_own {line : Text} (rest : List Text) {column : Nat}
    (reaches : column ≤ line.length) : locate column (line :: rest) = (0,column) := if_pos reaches

theorem locate_later {line : Text} (rest : List Text) {start : Nat}
    (later : offset + line.length + 1 ≤ start) :
    locate (start - offset) (line :: rest) =
      ((locate (start - (offset + line.length + 1)) rest).1 + 1,
        (locate (start - (offset + line.length + 1)) rest).2) := by
  have beyond : ¬ start - offset ≤ line.length := by omega
  have same : start - offset - (line.length + 1) = start - (offset + line.length + 1) := by omega
  rw [locate,if_neg beyond,same]

theorem marker_le {line marker : Text} {c : Char} (task : taskLine line = some (marker,c)) :
    marker.length ≤ line.length := by
  obtain ⟨after,rfl,-⟩ := taskLine_some task
  simp [reboxed]

theorem behindLine_alike {line line' : Text} (alike : Alike Starts line line') :
    behindLine fence line = behindLine fence line' := by
  rw [behindLine,behindLine,fenceRun_alike within_starts alike]

theorem placed_alike (alike : List.Forall₂ (Alike Starts) lines lines') :
    ((taskItemsFrom offset fence count lines).map fun item =>
        (item.index,locate (item.start - offset) lines,item.checked)) =
      (taskItemsFrom offset' fence count lines').map fun item =>
        (item.index,locate (item.start - offset') lines',item.checked) := by
  induction alike generalizing offset offset' fence count with
  | nil => rfl
  | @cons line line' rest rest' alike _ ih =>
    have own : ((ownItems offset fence count line).map fun item =>
          (item.index,locate (item.start - offset) (line :: rest),item.checked)) =
        (ownItems offset' fence count line').map fun item =>
          (item.index,locate (item.start - offset') (line' :: rest'),item.checked) := by
      rcases ownItems_cases offset fence count line with none_ | ⟨run,rfl,marker,c,task,own⟩
      · rcases ownItems_cases offset' fence count line' with none' | ⟨run,rfl,marker,c,task,-⟩
        · rw [none_,none']
          rfl
        · have run' := (fenceRun_alike within_starts alike).trans run
          rw [ownItems_task run' ((taskLine_alike alike).trans task)] at none_
          cases none_
      · have run' := (fenceRun_alike within_starts alike).symm.trans run
        have task' := (taskLine_alike alike).symm.trans task
        rw [own,ownItems_task run' task']
        simp only [List.map_cons,List.map_nil,Nat.add_sub_cancel_left,
          locate_own _ (marker_le task),locate_own _ (marker_le task')]
    have sized := congrArg List.length own
    rw [List.length_map,List.length_map] at sized
    rw [taskItemsFrom_cons,taskItemsFrom_cons,List.map_append,List.map_append,own,
      ← behindLine_alike alike,← sized]
    congr 1
    have moved {offset : Nat} {line : Text} {rest : List Text} {fence : Option (Char × Nat)}
        {count : Nat} : ((taskItemsFrom (offset + line.length + 1) fence count rest).map fun item =>
          (item.index,locate (item.start - offset) (line :: rest),item.checked)) =
        ((taskItemsFrom (offset + line.length + 1) fence count rest).map fun item =>
          (item.index,locate (item.start - (offset + line.length + 1)) rest,item.checked)).map
            fun (index,place,checked) => (index,(place.1 + 1,place.2),checked) := by
      rw [List.map_map]
      refine List.map_congr_left fun item inside => ?_
      simp only [Function.comp_apply,locate_later rest (le_start inside)]
    rw [moved,moved,ih]

theorem placed_highlights (source : Text) :
    placed (preprocessHighlights source) = placed source := by
  have alike := forall₂_openLines highlights_alike none (Text.split '\n' source)
  have same := @placed_alike 0 0 0 none _ _ alike
  simp only [Nat.sub_zero] at same
  rw [placed,placed,taskItems,taskItems,split_preprocessHighlights]
  exact same.symm

end Places

/-! ### What is attached -/

def markLines (fence : Option (Char × Nat)) (count : Nat) : List Text → List Text
  | [] => []
  | line :: rest => wrapTasks line 0 (ownItems 0 fence count line) ::
      markLines (behindLine fence line) (count + (ownItems 0 fence count line).length) rest

section Wrapping

variable {fence : Option (Char × Nat)} {count : Nat} {lines lines' : List Text}

theorem slice_middle (a b r : Text) : slice (a ++ (b ++ r)) a.length (a.length + b.length) = b := by
  rw [slice,List.drop_left,Nat.add_sub_cancel_left,List.take_left]

theorem wrapTasks_skip (a b r : Text) {items : List TaskItemRef}
    (later : ∀ item ∈ items,a.length + b.length ≤ item.start) :
    wrapTasks (a ++ (b ++ r)) a.length items =
      b ++ wrapTasks (a ++ (b ++ r)) (a.length + b.length) items := by
  cases items with
  | nil =>
    rw [wrapTasks,wrapTasks,List.drop_left,← List.drop_drop,List.drop_left,List.drop_left]
  | cons item rest =>
    have reached := later item List.mem_cons_self
    have split_ : slice (a ++ (b ++ r)) a.length item.start =
        b ++ slice (a ++ (b ++ r)) (a.length + b.length) item.start := by
      obtain ⟨more,same⟩ := Nat.exists_eq_add_of_le reached
      rw [slice,slice,same,← List.drop_drop,List.drop_left,List.drop_left,Nat.add_sub_cancel_left,
        Nat.add_assoc,Nat.add_sub_cancel_left,List.take_length_add_append]
    rw [wrapTasks,wrapTasks,split_]
    simp only [List.append_assoc]

theorem wrapTasks_item (a marker inner r : Text) (items : List TaskItemRef) (index : Nat)
    (checked : Bool) (sized : inner.length = 3) :
    wrapTasks (a ++ (marker ++ (inner ++ r))) a.length
        (⟨index,a.length + marker.length,a.length + marker.length + 3,checked⟩ :: items) =
      marker ++ taskTag ⟨index,0,0,checked⟩ ++ inner ++ "</span>".toList ++
        wrapTasks (a ++ (marker ++ (inner ++ r))) (a.length + marker.length + 3) items := by
  have inner_ : slice (a ++ (marker ++ (inner ++ r))) (a.length + marker.length)
      (a.length + marker.length + 3) = inner := by
    have middle := slice_middle (a ++ marker) inner r
    rwa [List.length_append,List.append_assoc,sized] at middle
  rw [wrapTasks,slice_middle,inner_]
  rfl

theorem ownItems_offset (offset : Nat) (fence : Option (Char × Nat)) (count : Nat) (line : Text) :
    ownItems offset fence count line = (ownItems 0 fence count line).map fun item =>
      { item with start := offset + item.start, stop := offset + item.stop } := by
  simp only [ownItems]
  cases fenceRun line with
  | some run => rfl
  | none =>
    dsimp only
    split
    · simp [Nat.add_assoc]
    · rfl

theorem wrapTasks_reboxed {marker after : Text} {c : Char} {index : Nat} {checked : Bool} :
    wrapTasks (reboxed marker after c) 0
        [⟨index,0 + marker.length,0 + marker.length + 3,checked⟩] =
      marker ++ taskTag ⟨index,0,0,checked⟩ ++ ['[',c,']'] ++ "</span>".toList ++ after := by
  have item := wrapTasks_item [] marker ['[',c,']'] after [] index checked rfl
  have behind : (reboxed marker after c).drop (0 + marker.length + 3) = after := by
    rw [reboxed,Nat.zero_add,← List.drop_drop,List.drop_left]
    rfl
  exact item.trans (congrArg _ behind)

theorem wrapTasks_line {a line r : Text} {items : List TaskItemRef} (fence : Option (Char × Nat))
    (count : Nat) (later : ∀ item ∈ items,a.length + line.length ≤ item.start) :
    wrapTasks (a ++ (line ++ r)) a.length (ownItems a.length fence count line ++ items) =
      wrapTasks line 0 (ownItems 0 fence count line) ++
        wrapTasks (a ++ (line ++ r)) (a.length + line.length) items := by
  rcases ownItems_cases 0 fence count line with none_ | ⟨run,rfl,marker,c,task,own⟩
  · rw [ownItems_offset,none_,List.map_nil,List.nil_append,wrapTasks_skip a line r later]
    rfl
  · obtain ⟨after,rfl,-,-⟩ := taskLine_some task
    have item := wrapTasks_item a marker ['[',c,']'] (after ++ r) items count (isChecked c) rfl
    have beyond : ∀ item ∈ items,
        (a ++ (marker ++ ['[',c,']'])).length + after.length ≤ item.start := by
      intro item inside
      have := later item inside
      simp only [reboxed,List.length_append,List.length_cons,List.length_nil] at this ⊢
      omega
    have skip := wrapTasks_skip (a ++ (marker ++ ['[',c,']'])) after r beyond
    have place : (a ++ (marker ++ ['[',c,']'])).length = a.length + marker.length + 3 := by
      simp [Nat.add_assoc]
    have whole : a ++ (reboxed marker after c ++ r) =
        a ++ (marker ++ (['[',c,']'] ++ (after ++ r))) := by simp [reboxed]
    have whole' : a ++ (marker ++ ['[',c,']']) ++ (after ++ r) =
        a ++ (marker ++ (['[',c,']'] ++ (after ++ r))) := by simp
    have reach : a.length + marker.length + 3 + after.length =
        a.length + (reboxed marker after c).length := by
      simp only [reboxed,List.length_append,List.length_cons]
      omega
    rw [place,whole',reach] at skip
    rw [ownItems_task run task,own,wrapTasks_reboxed,List.singleton_append,whole,item,skip]
    simp only [List.append_assoc]

theorem markLines_ne_nil (some_ : lines ≠ []) : markLines fence count lines ≠ [] := by
  cases lines with
  | nil => exact (some_ rfl).elim
  | cons line rest => simp [markLines]

theorem wrapTasks_lines (a : Text) (fence : Option (Char × Nat)) (count : Nat)
    (some_ : lines ≠ []) :
    wrapTasks (a ++ Text.join ['\n'] lines) a.length (taskItemsFrom a.length fence count lines) =
      Text.join ['\n'] (markLines fence count lines) := by
  induction lines generalizing a fence count with
  | nil => exact (some_ rfl).elim
  | cons line rest ih =>
    have later : ∀ item ∈ taskItemsFrom (a.length + line.length + 1) (behindLine fence line)
        (count + (ownItems a.length fence count line).length) rest,
        a.length + line.length ≤ item.start := fun item inside =>
      (Nat.le_succ _).trans (le_start inside)
    rw [taskItemsFrom_cons,markLines]
    cases rest with
    | nil =>
      have alone : Text.join ['\n'] [line] = line ++ [] := by simp [Text.join]
      rw [alone,wrapTasks_line fence count later]
      simp [markLines,taskItemsFrom,wrapTasks,Text.join]
    | cons next rest =>
      have sized : (ownItems a.length fence count line).length =
          (ownItems 0 fence count line).length := by
        rw [ownItems_offset,List.length_map]
      rw [join_line_cons line (by simp),join_line_cons _ (markLines_ne_nil (by simp)),
        wrapTasks_line fence count later,sized]
      have more := ih (a ++ line ++ ['\n']) (behindLine fence line)
        (count + (ownItems 0 fence count line).length) (by simp)
      have place : (a ++ line ++ ['\n']).length = a.length + line.length + 1 := by
        simp only [List.length_append,List.length_cons,List.length_nil]
      have whole : a ++ line ++ ['\n'] ++ Text.join ['\n'] (next :: rest) =
          a ++ (line ++ '\n' :: Text.join ['\n'] (next :: rest)) := by simp
      rw [place,whole] at more
      rw [← more]
      have beyond : ∀ item ∈ taskItemsFrom (a.length + line.length + 1) (behindLine fence line)
          (count + (ownItems 0 fence count line).length) (next :: rest),
          (a ++ line).length + ['\n'].length ≤ item.start := by
        intro item inside
        rw [List.length_append]
        exact le_start inside
      have skip := wrapTasks_skip (a ++ line) ['\n'] (Text.join ['\n'] (next :: rest)) beyond
      simp only [List.length_append,List.append_assoc] at skip
      exact congrArg _ skip

end Wrapping

section Attaching

variable {offset count : Nat} {fence : Option (Char × Nat)} {lines lines' : List Text}

def isInner (c : Char) : Bool := c != '\n' && c != '['

theorem plain_tagParts : ((tagParts.1 ++ tagParts.2.1 ++ tagParts.2.2.1 ++ tagParts.2.2.2 ++
    truth true ++ truth false).all isInner) = true := by decide +kernel

theorem inner_taskTag (item : TaskItemRef) : ∀ c ∈ taskTag item,isInner c = true := by
  intro c inside
  have parts := List.all_eq_true.mp plain_tagParts c
  simp only [List.mem_append] at parts
  have state (inside : c ∈ truth item.checked) : isInner c = true := by
    cases known : item.checked <;> rw [known] at inside <;> exact parts (by simp [inside])
  simp only [taskTag,List.mem_append] at inside
  rcases inside with (((((inside | inside) | inside) | inside) | inside) | inside) | inside
  · exact parts (by simp [inside])
  · exact state inside
  · exact parts (by simp [inside])
  · have digit := Decimal.isDigit_of_mem inside
    simp only [isInner,Bool.and_eq_true,bne_iff_ne]
    constructor <;> rintro rfl <;> cases digit
  · exact parts (by simp [inside])
  · exact state inside
  · exact parts (by simp [inside])

theorem free_taskTag (item : TaskItemRef) : '\n' ∉ taskTag item ∧ '[' ∉ taskTag item :=
  ⟨fun inside => absurd (inner_taskTag item _ inside) (by decide),
    fun inside => absurd (inner_taskTag item _ inside) (by decide)⟩

/-- What stands around the box in the line of a wrapped item. -/
def wrappedLine (item : TaskItemRef) (marker : Text) (c : Char) : Text :=
  marker ++ taskTag item ++ ['[',c,']'] ++ "</span>".toList

theorem oneLine_markLines (single : ∀ line ∈ lines,'\n' ∉ line) :
    ∀ line ∈ markLines fence count lines,'\n' ∉ line := by
  induction lines generalizing fence count with
  | nil => exact fun _ inside => by cases inside
  | cons line rest ih =>
    refine List.forall_mem_cons.mpr
      ⟨?_,ih fun x inside => single x (List.mem_cons_of_mem _ inside)⟩
    have here := single line List.mem_cons_self
    rcases ownItems_cases 0 fence count line with none_ | ⟨-,-,marker,c,task,own⟩
    · rw [none_]
      exact here
    · obtain ⟨after,rfl,-,-⟩ := taskLine_some task
      rw [own,wrapTasks_reboxed]
      simp only [reboxed,List.mem_append,List.mem_cons,not_or] at here ⊢
      exact ⟨⟨⟨⟨here.1,(free_taskTag _).1⟩,here.2.1,here.2.2.1,here.2.2.2.1,by simp⟩,by decide⟩,
        here.2.2.2.2⟩

theorem split_markTaskCheckboxes (source : Text) :
    Text.split '\n' (markTaskCheckboxes source) = markLines none 0 (Text.split '\n' source) := by
  have lines := wrapTasks_lines [] none 0 (split_ne_nil source)
  rw [List.nil_append,Text.join_split] at lines
  rw [markTaskCheckboxes,taskItems]
  refine (congrArg (Text.split '\n') lines).trans ?_
  exact split_lines (markLines_ne_nil (split_ne_nil source)) (oneLine_markLines single_of_split)

/-- In lines alike, the line of an item is a task, and there the box is wrapped with the tag of
the item. -/
theorem attached_alike (alike : List.Forall₂ (Alike Starts) lines lines') {item : TaskItemRef}
    (inside : item ∈ taskItemsFrom offset fence count lines) :
    ∃ line marker c rest,lines[(locate (item.start - offset) lines).1]? = some line ∧
      taskLine line = some (marker,c) ∧ marker.length = (locate (item.start - offset) lines).2 ∧
      (markLines fence count lines')[(locate (item.start - offset) lines).1]? =
        some (wrappedLine item marker c ++ rest) := by
  induction alike generalizing offset fence count with
  | nil => cases inside
  | @cons line line' rest rest' alike _ ih =>
    rw [taskItemsFrom_cons] at inside
    have sized : (ownItems offset fence count line).length =
        (ownItems 0 fence count line').length := by
      rw [ownItems,ownItems,fenceRun_alike within_starts alike,taskLine_alike alike]
      cases fenceRun line' with
      | some run => rfl
      | none =>
        dsimp only
        split <;> rfl
    rcases List.mem_append.mp inside with inside | inside
    · rcases ownItems_cases offset fence count line with none_ | ⟨run,rfl,marker,c,task,own⟩
      · rw [none_] at inside
        cases inside
      · rw [own] at inside
        obtain rfl := List.mem_singleton.mp inside
        have task' := (taskLine_alike alike).symm.trans task
        obtain ⟨after,same,-,-⟩ := taskLine_some task'
        subst same
        have run' := (fenceRun_alike within_starts alike).symm.trans run
        simp only [Nat.add_sub_cancel_left,locate_own _ (marker_le task)]
        refine ⟨line,marker,c,after,rfl,task,rfl,?_⟩
        rw [markLines,ownItems_task run' task',wrapTasks_reboxed]
        rfl
    · obtain ⟨line',marker,c,after,here,task,column,there⟩ := ih inside
      rw [locate_later rest (le_start inside)]
      refine ⟨line',marker,c,after,here,task,column,?_⟩
      rw [markLines,List.getElem?_cons_succ,← sized,← behindLine_alike alike]
      exact there

end Attaching

section Prepared

theorem cutAt_through {mark : Char} {u : Text} (free : mark ∉ u) (t : Text) :
    Renaming.cutAt mark (u ++ t) = (Renaming.cutAt mark t).map fun parts =>
      (u ++ parts.1,parts.2) := by
  induction u with
  | nil => simp
  | cons x u ih =>
    obtain ⟨first,free'⟩ := not_or.mp (mt List.mem_cons.mpr free)
    have step : Renaming.cutAt mark (x :: (u ++ t)) =
        (Renaming.cutAt mark (u ++ t)).map fun parts => (x :: parts.1,parts.2) := by
      cases u ++ t with
      | nil => rfl
      | cons y rest => rw [Renaming.cutAt,if_neg fun both => first both.1.symm]
    rw [List.cons_append,step,ih free',Option.map_map]
    rfl

theorem wikilinks_keep {p : Text} (rest : Text) (last : p.getLast? = some '>')
    (through : ∀ t,Renaming.cutAt '[' (p ++ t) = (Renaming.cutAt '[' t).map fun parts =>
      (p ++ parts.1,parts.2)) :
    ∃ rest',replaceInlineWikilinks (p ++ rest) = p ++ rest' := by
  rw [replaceInlineWikilinks,Renaming.pairs]
  split
  · exact ⟨rest,rfl⟩
  · next gap after opened =>
    rw [through] at opened
    obtain ⟨⟨gap',after'⟩,-,same⟩ := Option.map_eq_some_iff.mp opened
    cases same
    split
    · exact ⟨rest,rfl⟩
    · dsimp only
      rw [Renaming.marked,List.flatMap_cons,linkPair]
      dsimp only
      split
      · next embedded =>
        have some_ : gap' ≠ [] := by
          rintro rfl
          rw [Renaming.embeds,List.append_nil,last] at embedded
          cases embedded
        rw [List.dropLast_append_of_ne_nil some_]
        exact ⟨_,by simp only [List.append_assoc]; rfl⟩
      · exact ⟨_,by simp only [List.append_assoc]; rfl⟩

theorem not_opening_bullet {text mark rest : Text} (found : bullet text = some (mark,rest)) :
    '[' ∉ mark := by
  have digits : '[' ∉ text.takeWhile Char.isDigit := fun inside =>
    absurd (List.mem_takeWhile_imp inside) (by decide)
  rw [bullet] at found
  split at found
  · cases found
  · next c behind here =>
    dsimp only at found
    split at found
    · split at found
      · next known =>
        cases found
        intro inside
        rw [← List.mem_singleton.mp inside] at known
        exact absurd known (by decide)
      · cases found
    · split at found
      · next known =>
        cases found
        rw [List.mem_append,not_or]
        refine ⟨digits,fun inside => ?_⟩
        rw [← List.mem_singleton.mp inside] at known
        exact absurd known (by decide)
      · cases found

theorem not_opening {line marker : Text} {c : Char} (task : taskLine line = some (marker,c)) :
    '[' ∉ marker := by
  have blank (text : Text) : '[' ∉ text.takeWhile isBlank := fun inside =>
    absurd (List.mem_takeWhile_imp inside) (by decide)
  obtain ⟨⟨marker',rest⟩,marked,boxed⟩ := Option.bind_eq_some_iff.mp task
  obtain ⟨_,_,same⟩ := Option.map_eq_some_iff.mp boxed
  cases same
  obtain ⟨⟨mark,behind⟩,bulleted,found⟩ := Option.bind_eq_some_iff.mp marked
  obtain ⟨⟨gap,rest'⟩,blanked,same⟩ := Option.map_eq_some_iff.mp found
  cases same
  rw [blanks] at blanked
  split at blanked
  · cases blanked
  · cases blanked
    simp only [List.mem_append,not_or]
    exact ⟨⟨blank _,not_opening_bullet bulleted⟩,blank _⟩

theorem wrappedLine_through (item : TaskItemRef) {line marker : Text} {c : Char}
    (task : taskLine line = some (marker,c)) (t : Text) :
    Renaming.cutAt '[' (wrappedLine item marker c ++ t) = (Renaming.cutAt '[' t).map fun parts =>
      (wrappedLine item marker c ++ parts.1,parts.2) := by
  obtain ⟨-,-,known,-⟩ := taskLine_some task
  have ahead : '[' ∉ marker ++ taskTag item := by
    rw [List.mem_append,not_or]
    exact ⟨not_opening task,(free_taskTag item).2⟩
  have inner : c ≠ '[' := by
    rintro rfl
    exact absurd known (by decide)
  have behind : '[' ∉ c :: ']' :: "</span>".toList := by
    rw [List.mem_cons,not_or]
    exact ⟨inner.symm,by decide⟩
  have whole (t : Text) : wrappedLine item marker c ++ t =
      (marker ++ taskTag item) ++ '[' :: ((c :: ']' :: "</span>".toList) ++ t) := by
    simp only [wrappedLine,List.append_assoc,List.cons_append,List.nil_append]
  have step : Renaming.cutAt '[' ('[' :: ((c :: ']' :: "</span>".toList) ++ t)) =
      (Renaming.cutAt '[' ((c :: ']' :: "</span>".toList) ++ t)).map fun parts =>
        ('[' :: parts.1,parts.2) := by
    rw [List.cons_append,Renaming.cutAt,if_neg fun both => inner both.2]
  rw [whole,cutAt_through ahead,step,cutAt_through behind,Option.map_map,Option.map_map]
  refine Option.map_congr fun parts _ => ?_
  simp only [Function.comp_apply,whole]

theorem getElem?_openLines {replace : Text → Text} {lines : List Text} {n : Nat} {line : Text}
    (fence : Option Char) (here : lines[n]? = some line) :
    (openLines replace fence lines)[n]? = some line ∨
      (openLines replace fence lines)[n]? = some (replace line) := by
  induction lines generalizing fence n with
  | nil => cases here
  | cons first rest ih =>
    rw [openLines]
    cases n with
    | zero =>
      obtain rfl := Option.some.inj here
      split
      · exact .inl rfl
      · by_cases outside : fence = none
        · exact .inr (by rw [if_pos outside]; rfl)
        · exact .inl (by rw [if_neg outside]; rfl)
    | succ n =>
      split
      · exact ih _ here
      · exact ih _ here

/-- The tag of an item stands at its box in the text that is parsed. -/
theorem attached {source : Text} {item : TaskItemRef} (inside : item ∈ taskItems source) :
    ∃ line marker c rest,
      (Text.split '\n' source)[(locate item.start (Text.split '\n' source)).1]? = some line ∧
      taskLine line = some (marker,c) ∧
      marker.length = (locate item.start (Text.split '\n' source)).2 ∧
      (wikilinkLines (markTaskCheckboxes (preprocessHighlights source)))[
        (locate item.start (Text.split '\n' source)).1]? =
          some (wrappedLine item marker c ++ rest) := by
  have alike := forall₂_openLines highlights_alike none (Text.split '\n' source)
  obtain ⟨line,marker,c,rest,here,task,column,there⟩ := attached_alike alike inside
  simp only [Nat.sub_zero] at here column there
  rw [← split_preprocessHighlights,← split_markTaskCheckboxes] at there
  have some_ : wrappedLine item marker c ++ rest ≠ [] := by simp [wrappedLine]
  generalize (locate item.start (Text.split '\n' source)).1 = n at here there ⊢
  generalize markTaskCheckboxes (preprocessHighlights source) = marked at there ⊢
  have kept : (if (Text.split '\n' marked).getLast? = some [] then
      (Text.split '\n' marked).dropLast else Text.split '\n' marked)[n]? =
        some (wrappedLine item marker c ++ rest) := by
    split
    · next empty =>
      rw [List.getElem?_dropLast]
      split
      · exact there
      · next beyond =>
        have bound := (List.getElem?_eq_some_iff.mp there).1
        have last : n = (Text.split '\n' marked).length - 1 := by omega
        rw [last,← List.getLast?_eq_getElem?,empty] at there
        exact absurd (Option.some.inj there).symm some_
    · exact there
  rcases getElem?_openLines none kept with same | replaced
  · exact ⟨line,marker,c,rest,here,task,column,same⟩
  · have last : (wrappedLine item marker c).getLast? = some '>' := by
      simp [wrappedLine]
    obtain ⟨rest',same⟩ := wikilinks_keep rest last (wrappedLine_through item task)
    exact ⟨line,marker,c,rest',here,task,column,replaced.trans (congrArg some same)⟩

end Prepared

end LocalBook.Workspace.Preview
