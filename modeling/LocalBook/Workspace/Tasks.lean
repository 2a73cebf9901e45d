import LocalBook.Workspace.Renaming

/-! Task items: where the boxes of a text stand, and what flipping one changes. A line is a task by
what stands in front of its box and right behind it. -/
namespace LocalBook.Workspace.Tasks

open Renaming (tick fenceMatch)

/-! ### Markers -/

structure TaskItemRef where
  index : Nat
  /-- The offset of the `[`. -/
  start : Nat
  /-- The offset behind the `]`. -/
  stop : Nat
  checked : Bool
deriving Repr,DecidableEq

def isBlank (c : Char) : Bool := c = ' ' || c = '\t'

/-- `(?:[-*+]|\d+[.)])`, and what stands behind it. -/
def bullet (text : Text) : Option (Text × Text) :=
  match text.dropWhile Char.isDigit with
  | [] => none
  | c :: rest =>
    let digits := text.takeWhile Char.isDigit
    if digits = [] then (if ['-','*','+'].contains c then some ([c],rest) else none)
    else if ['.',')'].contains c then some (digits ++ [c],rest) else none

/-- `[ \t]+`, and what stands behind it. -/
def blanks (text : Text) : Option (Text × Text) :=
  if text.takeWhile isBlank = [] then none
  else some (text.takeWhile isBlank,text.dropWhile isBlank)

/-- `\[([ xX])\](?=[ \t]|$)`: the character between the brackets. -/
def box : Text → Option Char
  | '[' :: c :: ']' :: after =>
    if [' ','x','X'].contains c ∧ after.head?.all isBlank then some c else none
  | _ => none

/-- `[ \t]*(?:[-*+]|\d+[.)])[ \t]+`, and what stands behind it. -/
def listMarker (line : Text) : Option (Text × Text) :=
  (bullet (line.dropWhile isBlank)).bind fun (mark,rest) =>
    (blanks rest).map fun (gap,rest) => (line.takeWhile isBlank ++ mark ++ gap,rest)

/-- `TASK_LINE_RE.exec(line)`: what stands in front of the box, and the character in it. -/
def taskLine (line : Text) : Option (Text × Char) :=
  (listMarker line).bind fun (ahead,rest) => (box rest).map fun c => (ahead,c)

/-- ``/^\s{0,3}(`{3,}|~{3,})/.exec(line)``: the character of the run, and its length. -/
def fenceRun (line : Text) : Option (Char × Nat) :=
  (fenceMatch line).map fun marker =>
    (marker,((line.dropWhile isJsSpace).takeWhile (· = marker)).length)

/-- The fence behind a line with a run: one that is open closes with a run of its own character
that is as long. -/
def behindRun (run : Char × Nat) : Option (Char × Nat) → Option (Char × Nat)
  | none => some run
  | some fence => if fence.1 = run.1 ∧ fence.2 ≤ run.2 then none else some fence

/-- `match[2]!.toLowerCase() === "x"`. -/
def isChecked (c : Char) : Bool := c = 'x' || c = 'X'

/-- The items of the lines from this offset on, counted from `count`. -/
def taskItemsFrom (offset : Nat) (fence : Option (Char × Nat)) (count : Nat) :
    List Text → List TaskItemRef
  | [] => []
  | line :: rest =>
    let next := offset + line.length + 1
    match fenceRun line with
    | some run => taskItemsFrom next (behindRun run fence) count rest
    | none =>
      match if fence = none then taskLine line else none with
      | some (ahead,c) =>
        ⟨count,offset + ahead.length,offset + ahead.length + 3,isChecked c⟩ ::
          taskItemsFrom next fence (count + 1) rest
      | none => taskItemsFrom next fence count rest

def taskItems (source : Text) : List TaskItemRef :=
  taskItemsFrom 0 none 0 (Text.split '\n' source)

def scanTasksFrom (offset : Nat) (fence : Option (Char × Nat)) :
    List Text → List (Nat × Nat × Bool)
  | [] => []
  | line :: rest =>
    let next := offset + line.length + 1
    match fenceRun line with
    | some run => scanTasksFrom next (behindRun run fence) rest
    | none =>
      match if fence = none then taskLine line else none with
      | some (ahead,c) =>
        (offset + ahead.length,offset + ahead.length + 3,isChecked c) ::
          scanTasksFrom next fence rest
      | none => scanTasksFrom next fence rest

def scanTasks (text : Text) : List (Nat × Nat × Bool) :=
  scanTasksFrom 0 none (Text.split '\n' text)

def toggleTaskInSource (source : Text) (index : Nat) : Text :=
  match (taskItems source)[index]? with
  | none => source
  | some item => source.take item.start ++
      (if item.checked then "[ ]".toList else "[x]".toList) ++ source.drop item.stop

/-! ### What the scanners do not look behind -/

def Stops (c : Char) : Prop := c = '=' ∨ c = '<' ∨ c = '['

def Starts (c : Char) : Prop := c = '=' ∨ c = '<'

/-- The texts agree up to their end, or up to such a character in both. -/
inductive Alike (S : Char → Prop) : Text → Text → Prop where
  | nil : Alike S [] []
  | cons (c : Char) {a b : Text} (rest : Alike S a b) : Alike S (c :: a) (c :: b)
  | stop {c d : Char} (a b : Text) (left : S c) (right : S d) : Alike S (c :: a) (d :: b)

section Alike

variable {S : Char → Prop} {a b : Text}

theorem Alike.refl (a : Text) : Alike S a a := by
  induction a with
  | nil => exact .nil
  | cons c a ih => exact .cons c ih

theorem Alike.append (front : Text) (rest : Alike S a b) :
    Alike S (front ++ a) (front ++ b) := by
  induction front with
  | nil => exact rest
  | cons c front ih => exact .cons c ih

variable {p : Char → Bool}

theorem Alike.takeWhile (alike : Alike S a b) (stops : ∀ c,S c → p c = false) :
    a.takeWhile p = b.takeWhile p := by
  induction alike with
  | nil => rfl
  | cons c rest ih => simp only [List.takeWhile_cons,ih]
  | stop a b left right => simp [stops _ left,stops _ right]

theorem Alike.dropWhile (alike : Alike S a b) (stops : ∀ c,S c → p c = false) :
    Alike S (a.dropWhile p) (b.dropWhile p) := by
  induction alike with
  | nil => exact .nil
  | cons c rest ih =>
    cases passed : p c with
    | true => simpa only [List.dropWhile_cons,passed,if_true] using ih
    | false => simpa [passed] using Alike.cons c rest
  | stop a b left right =>
    simpa [stops _ left,stops _ right] using Alike.stop a b left right

theorem Alike.startsWith (alike : Alike S a b) {front : Text} (free : ∀ c ∈ front,¬ S c) :
    Text.startsWith a front = Text.startsWith b front := by
  induction alike generalizing front with
  | nil => rfl
  | cons c rest ih =>
    cases front with
    | nil => rfl
    | cons x front =>
      simp only [Text.startsWith,List.isPrefixOf_cons_cons] at ih ⊢
      rw [ih fun y inside => free y (List.mem_cons_of_mem _ inside)]
  | @stop c d a b left right =>
    cases front with
    | nil => rfl
    | cons x front =>
      have other {y : Char} (starts : S y) : (x == y) = false :=
        beq_eq_false_iff_ne.mpr fun same => free x List.mem_cons_self (same ▸ starts)
      simp only [Text.startsWith,List.isPrefixOf_cons_cons,other left,other right,Bool.false_and]

theorem Alike.symm (alike : Alike S a b) : Alike S b a := by
  induction alike with
  | nil => exact .nil
  | cons c rest ih => exact .cons c ih
  | stop a b left right => exact .stop b a right left

end Alike

theorem fenceMatch_marker {line : Text} {marker : Char} (found : fenceMatch line = some marker) :
    marker = tick ∨ marker = '~' := by
  simp only [fenceMatch] at found
  split at found
  · split at found
    · exact .inl (Option.some.inj found).symm
    · split at found
      · exact .inr (Option.some.inj found).symm
      · cases found
  · cases found

section Scanning

variable {S : Char → Prop} {a b : Text} (within : ∀ c,S c → Stops c)

include within

theorem not_blank (c : Char) (stop : S c) : isBlank c = false := by
  rcases within c stop with rfl | rfl | rfl <;> rfl

theorem not_jsSpace (c : Char) (stop : S c) : isJsSpace c = false := by
  rcases within c stop with rfl | rfl | rfl <;> decide

theorem not_marker {marker : Char} (kind : marker = tick ∨ marker = '~') (c : Char) (stop : S c) :
    decide (c = marker) = false := by
  refine decide_eq_false fun same => ?_
  rcases kind with rfl | rfl <;> rcases within c stop with rfl | rfl | rfl <;>
    exact absurd same (by decide)

theorem fenceMatch_alike (alike : Alike S a b) : fenceMatch a = fenceMatch b := by
  have rest := alike.dropWhile (not_jsSpace within)
  have run {marker : Char} (kind : marker = tick ∨ marker = '~') :
      Text.startsWith (a.dropWhile isJsSpace) [marker,marker,marker] =
        Text.startsWith (b.dropWhile isJsSpace) [marker,marker,marker] := by
    refine rest.startsWith fun c inside stop => ?_
    have same : c = marker := by simpa using inside
    exact absurd same (of_decide_eq_false (not_marker within kind c stop))
  simp only [fenceMatch,alike.takeWhile (not_jsSpace within),run (.inl rfl),run (.inr rfl)]

theorem fenceRun_alike (alike : Alike S a b) : fenceRun a = fenceRun b := by
  rw [fenceRun,fenceRun,← fenceMatch_alike within alike]
  cases found : fenceMatch a with
  | none => rfl
  | some marker =>
    rw [Option.map_some,Option.map_some,(alike.dropWhile (not_jsSpace within)).takeWhile
      (not_marker within (fenceMatch_marker found))]

def AlikeParts (S : Char → Prop) : Option (Text × Text) → Option (Text × Text) → Prop :=
  Option.Rel fun x y => x.1 = y.1 ∧ Alike S x.2 y.2

theorem bullet_alike (alike : Alike S a b) : AlikeParts S (bullet a) (bullet b) := by
  have digit (c : Char) (stop : S c) : c.isDigit = false := by
    rcases within c stop with rfl | rfl | rfl <;> rfl
  have digits := alike.takeWhile digit
  have rest := alike.dropWhile digit
  simp only [bullet,digits]
  generalize a.dropWhile Char.isDigit = a' at rest
  generalize b.dropWhile Char.isDigit = b' at rest
  have refused {c : Char} (stop : S c) :
      ['-','*','+'].contains c = false ∧ ['.',')'].contains c = false := by
    rcases within c stop with rfl | rfl | rfl <;> exact ⟨rfl,rfl⟩
  cases rest with
  | nil => exact .none
  | cons c rest =>
    dsimp only
    split <;> split
    · exact .some ⟨rfl,rest⟩
    · exact .none
    · exact .some ⟨rfl,rest⟩
    · exact .none
  | stop _ _ left right =>
    simp only [refused left,refused right,Bool.false_eq_true,if_false,ite_self]
    exact .none

theorem blanks_alike (alike : Alike S a b) : AlikeParts S (blanks a) (blanks b) := by
  simp only [blanks,alike.takeWhile (not_blank within)]
  split
  · exact .none
  · exact .some ⟨rfl,alike.dropWhile (not_blank within)⟩

theorem listMarker_alike (alike : Alike S a b) :
    AlikeParts S (listMarker a) (listMarker b) := by
  have parts := bullet_alike within (alike.dropWhile (not_blank within))
  simp only [listMarker,alike.takeWhile (not_blank within)]
  generalize bullet (a.dropWhile isBlank) = left at parts ⊢
  generalize bullet (b.dropWhile isBlank) = right at parts ⊢
  cases parts with
  | none => exact .none
  | @some x y both =>
    obtain ⟨mark,rest⟩ := x
    obtain ⟨mark',rest'⟩ := y
    obtain ⟨rfl,alike'⟩ := both
    have parts := blanks_alike within alike'
    simp only [Option.bind_some]
    generalize blanks rest = left at parts ⊢
    generalize blanks rest' = right at parts ⊢
    cases parts with
    | none => exact .none
    | some both =>
      obtain ⟨same,alike''⟩ := both
      exact .some ⟨congrArg (b.takeWhile isBlank ++ mark ++ ·) same,alike''⟩

end Scanning

section Boxes

variable {a b : Text}

theorem within_starts (c : Char) (starts : Starts c) : Stops c := starts.imp_right .inl

theorem box_iff {text : Text} {c : Char} : box text = some c ↔ ∃ after,
    text = '[' :: c :: ']' :: after ∧ [' ','x','X'].contains c = true ∧
      after.head?.all isBlank = true := by
  constructor
  · intro found
    unfold box at found
    split at found
    · split at found
      · next both =>
        cases found
        exact ⟨_,rfl,both⟩
      · cases found
    · cases found
  · rintro ⟨after,rfl,both⟩
    exact if_pos both

theorem head_alike (alike : Alike Starts a b) :
    a.head?.all isBlank = b.head?.all isBlank := by
  cases alike with
  | nil | cons => rfl
  | stop a b left right => simp [not_blank within_starts _ left,not_blank within_starts _ right]

theorem box_of_alike (alike : Alike Starts a b) {c : Char} (found : box a = some c) :
    box b = some c := by
  obtain ⟨after,rfl,known,bounded⟩ := box_iff.mp found
  have inner : ¬ Starts c := by
    rintro (rfl | rfl) <;> simp at known
  cases alike with
  | stop _ _ left => rcases left with same | same <;> cases same
  | cons _ rest =>
    cases rest with
    | stop _ _ left => exact (inner left).elim
    | cons _ rest =>
      cases rest with
      | stop _ _ left => rcases left with same | same <;> cases same
      | cons _ rest => exact box_iff.mpr ⟨_,rfl,known,head_alike rest ▸ bounded⟩

theorem box_alike (alike : Alike Starts a b) : box a = box b :=
  Option.ext fun _ => ⟨box_of_alike alike,box_of_alike alike.symm⟩

/-- Delimiters and tags do not change what a line is as a task. -/
theorem taskLine_alike (alike : Alike Starts a b) : taskLine a = taskLine b := by
  have parts := listMarker_alike within_starts alike
  simp only [taskLine]
  generalize listMarker a = left at parts ⊢
  generalize listMarker b = right at parts ⊢
  cases parts with
  | none => rfl
  | @some x y both =>
    obtain ⟨ahead,rest⟩ := x
    obtain ⟨ahead',rest'⟩ := y
    obtain ⟨rfl,alike'⟩ := both
    simp only [Option.bind_some,box_alike alike']

/-! ### Flipping a marker -/

theorem bullet_whole {text mark rest : Text} (found : bullet text = some (mark,rest)) :
    text = mark ++ rest := by
  have whole := List.takeWhile_append_dropWhile (p := Char.isDigit) (l := text)
  rw [bullet] at found
  split at found
  · cases found
  · next c behind here =>
    rw [here] at whole
    dsimp only at found
    split at found
    · next none_ =>
      split at found
      · cases found
        rw [none_] at whole
        exact whole.symm
      · cases found
    · split at found
      · cases found
        rw [List.append_assoc]
        exact whole.symm
      · cases found

theorem listMarker_whole {line ahead rest : Text} (found : listMarker line = some (ahead,rest)) :
    line = ahead ++ rest := by
  obtain ⟨⟨mark,behind⟩,bulleted,found⟩ := Option.bind_eq_some_iff.mp found
  obtain ⟨⟨gap,rest'⟩,blank,same⟩ := Option.map_eq_some_iff.mp found
  cases same
  rw [blanks] at blank
  split at blank
  · cases blank
  · cases blank
    rw [List.append_assoc,List.append_assoc,List.takeWhile_append_dropWhile,
      ← bullet_whole bulleted,List.takeWhile_append_dropWhile]

def reboxed (ahead after : Text) (c : Char) : Text := ahead ++ '[' :: c :: ']' :: after

theorem alike_reboxed (ahead after : Text) (c d : Char) :
    Alike (· = '[') (reboxed ahead after c) (reboxed ahead after d) :=
  .append ahead (.stop _ _ rfl rfl)

theorem within_opening (c : Char) (opening : c = '[') : Stops c := .inr (.inr opening)

/-- A line that is a task stays one, with whatever box. -/
theorem taskLine_some {line ahead : Text} {c : Char} (found : taskLine line = some (ahead,c)) :
    ∃ after,line = reboxed ahead after c ∧ [' ','x','X'].contains c = true ∧
      ∀ d,[' ','x','X'].contains d = true →
        taskLine (reboxed ahead after d) = some (ahead,d) := by
  obtain ⟨⟨ahead',rest⟩,marked,boxed⟩ := Option.bind_eq_some_iff.mp found
  obtain ⟨c',here,same⟩ := Option.map_eq_some_iff.mp boxed
  cases same
  obtain ⟨after,rfl,known,bounded⟩ := box_iff.mp here
  have whole : line = reboxed ahead after c := listMarker_whole marked
  refine ⟨after,whole,known,fun d known' => ?_⟩
  have parts := listMarker_alike within_opening (alike_reboxed ahead after c d)
  rw [← whole,marked] at parts
  cases other : listMarker (reboxed ahead after d) with
  | none =>
    rw [other] at parts
    cases parts
  | some pair =>
    obtain ⟨ahead',rest⟩ := pair
    rw [other] at parts
    cases parts with
    | some both =>
      obtain ⟨rfl,-⟩ := both
      obtain rfl := List.append_cancel_left (listMarker_whole other)
      have boxed' : box ('[' :: d :: ']' :: after) = some d :=
        box_iff.mpr ⟨after,rfl,known',bounded⟩
      simp only [taskLine,other,Option.bind_some,boxed',Option.map_some]

end Boxes

/-! ### Items by line -/

/-- The text of lines in front of another line. -/
def front (lines : List Text) : Text := lines.flatMap fun line => line ++ ['\n']

section Lines

variable {lines : List Text}

theorem split_lines (some_ : lines ≠ []) (single : ∀ line ∈ lines,'\n' ∉ line) :
    Text.split '\n' (Text.join ['\n'] lines) = lines :=
  List.splitOn_intercalate '\n' single some_

theorem single_of_split {source : Text} : ∀ line ∈ Text.split '\n' source,'\n' ∉ line :=
  fun _ inside => Renaming.free_of_mem_split inside

theorem split_ne_nil (source : Text) : Text.split '\n' source ≠ [] := List.splitOn_ne_nil _ _

end Lines

section Items

variable {offset count : Nat} {fence : Option (Char × Nat)} {lines : List Text}

theorem join_line_cons (line : Text) {rest : List Text} (some_ : rest ≠ []) :
    Text.join ['\n'] (line :: rest) = line ++ '\n' :: Text.join ['\n'] rest := by
  cases rest with
  | nil => exact (some_ rfl).elim
  | cons next rest => rfl

/-- A text of lines, around one of them. -/
theorem join_around (ahead : List Text) (line : Text) (behind : List Text) :
    Text.join ['\n'] (ahead ++ line :: behind) =
      front ahead ++ Text.join ['\n'] (line :: behind) := by
  induction ahead with
  | nil => rfl
  | cons first ahead ih =>
    rw [List.cons_append,join_line_cons first (by simp),ih]
    simp [front]

theorem join_line (line other : Text) (behind : List Text) :
    ∃ rear,Text.join ['\n'] (line :: behind) = line ++ rear ∧
      Text.join ['\n'] (other :: behind) = other ++ rear := by
  cases behind with
  | nil => exact ⟨[],by simp [Text.join],by simp [Text.join]⟩
  | cons next behind => exact ⟨'\n' :: Text.join ['\n'] (next :: behind),rfl,rfl⟩

def ownItems (offset : Nat) (fence : Option (Char × Nat)) (count : Nat) (line : Text) :
    List TaskItemRef :=
  match fenceRun line with
  | some _ => []
  | none =>
    match if fence = none then taskLine line else none with
    | some (ahead,c) =>
      [⟨count,offset + ahead.length,offset + ahead.length + 3,isChecked c⟩]
    | none => []

def behindLine (fence : Option (Char × Nat)) (line : Text) : Option (Char × Nat) :=
  match fenceRun line with
  | some run => behindRun run fence
  | none => fence

theorem taskItemsFrom_cons (line : Text) (rest : List Text) :
    taskItemsFrom offset fence count (line :: rest) = ownItems offset fence count line ++
      taskItemsFrom (offset + line.length + 1) (behindLine fence line)
        (count + (ownItems offset fence count line).length) rest := by
  simp only [taskItemsFrom,ownItems,behindLine]
  cases fenceRun line with
  | some run => rfl
  | none =>
    dsimp only
    split <;> rfl

theorem ownItems_cases (offset : Nat) (fence : Option (Char × Nat)) (count : Nat) (line : Text) :
    ownItems offset fence count line = [] ∨ fenceRun line = none ∧ fence = none ∧
      ∃ marker c,taskLine line = some (marker,c) ∧ ownItems offset fence count line =
        [⟨count,offset + marker.length,offset + marker.length + 3,isChecked c⟩] := by
  rw [ownItems]
  cases run : fenceRun line with
  | some run => exact .inl rfl
  | none =>
    by_cases outside : fence = none
    · rw [if_pos outside]
      cases task : taskLine line with
      | none => exact .inl rfl
      | some parts => exact .inr ⟨rfl,outside,parts.1,parts.2,rfl,rfl⟩
    · rw [if_neg outside]
      exact .inl rfl

theorem ownItems_task {line marker : Text} {c : Char} (run : fenceRun line = none)
    (task : taskLine line = some (marker,c)) :
    ownItems offset none count line =
      [⟨count,offset + marker.length,offset + marker.length + 3,isChecked c⟩] := by
  simp only [ownItems,run,if_true,task]

/-- An item is the box of a line, and with another box there all items are as before but for this
one's state. -/
theorem item_line {i : Nat} {item : TaskItemRef}
    (found : (taskItemsFrom offset fence count lines)[i]? = some item) :
    ∃ ahead marker c after behind,lines = ahead ++ reboxed marker after c :: behind ∧
      [' ','x','X'].contains c = true ∧ item = ⟨count + i,offset + (front ahead ++ marker).length,
        offset + (front ahead ++ marker).length + 3,isChecked c⟩ ∧
      ∀ d,[' ','x','X'].contains d = true →
        taskItemsFrom offset fence count (ahead ++ reboxed marker after d :: behind) =
          (taskItemsFrom offset fence count lines).set i { item with checked := isChecked d } := by
  induction lines generalizing offset fence count i with
  | nil => simp [taskItemsFrom] at found
  | cons line rest ih =>
    have later (own : Nat) (size : (ownItems offset fence count line).length = own)
        (found : (taskItemsFrom (offset + line.length + 1) (behindLine fence line)
          (count + own) rest)[i - own]? = some item) (reached : own ≤ i) :
        ∃ ahead marker c after behind,line :: rest = ahead ++ reboxed marker after c :: behind ∧
          [' ','x','X'].contains c = true ∧
          item = ⟨count + i,offset + (front ahead ++ marker).length,
            offset + (front ahead ++ marker).length + 3,isChecked c⟩ ∧
          ∀ d,[' ','x','X'].contains d = true →
            taskItemsFrom offset fence count (ahead ++ reboxed marker after d :: behind) =
              (taskItemsFrom offset fence count (line :: rest)).set i
                { item with checked := isChecked d } := by
      obtain ⟨ahead,marker,c,after,behind,rfl,known,rfl,flipped⟩ := ih found
      refine ⟨line :: ahead,marker,c,after,behind,rfl,known,?_,fun d known' => ?_⟩
      · simp only [front,List.flatMap_cons,List.length_append,List.length_cons,List.length_nil,
          TaskItemRef.mk.injEq,and_true]
        omega
      · rw [List.cons_append,taskItemsFrom_cons,taskItemsFrom_cons line,size,flipped d known',
          List.set_append_right _ _ (size ▸ reached),size]
    rw [taskItemsFrom_cons] at found
    rcases ownItems_cases offset fence count line with none_ | ⟨run,rfl,marker,c,task,own⟩
    · rw [none_] at found
      exact later 0 (by rw [none_]; rfl) found (Nat.zero_le i)
    · cases i with
      | succ i =>
        rw [own] at found
        exact later 1 (by rw [own]; rfl) found (Nat.le_add_left 1 i)
      | zero =>
        rw [own] at found
        obtain rfl := Option.some.inj found
        obtain ⟨after,rfl,known,stays⟩ := taskLine_some task
        refine ⟨[],marker,c,after,rest,rfl,known,rfl,fun d known' => ?_⟩
        have run' : fenceRun (reboxed marker after d) = none :=
          (fenceRun_alike within_opening (alike_reboxed marker after d c)).trans run
        have sized : (reboxed marker after d).length = (reboxed marker after c).length := by
          simp [reboxed]
        rw [List.nil_append,taskItemsFrom_cons,taskItemsFrom_cons (reboxed marker after c),own,
          ownItems_task run' (stays d known'),sized,behindLine,behindLine,run',run]
        rfl

end Items

/-! ### Flips -/

def flipped (c : Char) : Char := if isChecked c then ' ' else 'x'

theorem known_flipped (c : Char) : [' ','x','X'].contains (flipped c) = true := by
  rw [flipped]
  split <;> decide

theorem isChecked_flipped (c : Char) : isChecked (flipped c) = !isChecked c := by
  rw [flipped]
  split
  · next checked => rw [checked]; rfl
  · next unchecked => rw [Bool.eq_false_iff.mpr unchecked]; rfl

/-- What flipping an item does: the character in its box changes, nothing else in the text, and of
the items only the state of this one. -/
structure Flips (source : Text) (i : Nat) (item : TaskItemRef) : Prop where
  text : ∃ ahead c after,[' ','x','X'].contains c = true ∧ source = reboxed ahead after c ∧
    toggleTaskInSource source i = reboxed ahead after (flipped c) ∧
    item = ⟨i,ahead.length,ahead.length + 3,isChecked c⟩ ∧
    (c = ' ' ∨ c = 'x' → toggleTaskInSource (toggleTaskInSource source i) i = source)
  items : taskItems (toggleTaskInSource source i) =
    (taskItems source).set i { item with checked := !item.checked }

section Flips

variable {source : Text} {i : Nat} {item : TaskItemRef}

theorem toggle_reboxed {ahead after : Text} {c : Char}
    (found : (taskItems (reboxed ahead after c))[i]? =
      some ⟨i,ahead.length,ahead.length + 3,isChecked c⟩) :
    toggleTaskInSource (reboxed ahead after c) i = reboxed ahead after (flipped c) := by
  have behind : (reboxed ahead after c).drop (ahead.length + 3) = after := by
    rw [reboxed,← List.drop_drop,List.drop_left]
    rfl
  rw [toggleTaskInSource,found]
  dsimp only
  rw [behind,reboxed,List.take_left,flipped,reboxed]
  split <;> simp

theorem oneLine_flipped {marker after : Text} {c : Char} (single : '\n' ∉ reboxed marker after c) :
    '\n' ∉ reboxed marker after (flipped c) := by
  have breaks : '\n' ≠ flipped c := by
    rw [flipped]
    split <;> decide
  simp only [reboxed,List.mem_append,List.mem_cons,not_or] at single ⊢
  exact ⟨single.1,single.2.1,breaks,single.2.2.2⟩

/-- Flipping the `i`-th item. -/
theorem flips_of_item (found : (taskItems source)[i]? = some item) : Flips source i item := by
  obtain ⟨ahead,marker,c,after,behind,here,known,rfl,stays⟩ := item_line found
  have single := @single_of_split source
  rw [here] at single
  -- the text around the box
  obtain ⟨rear,whole,whole'⟩ :=
    join_line (reboxed marker after c) (reboxed marker after (flipped c)) behind
  have text : source = reboxed (front ahead ++ marker) (after ++ rear) c := by
    rw [← Text.join_split '\n' source,here,join_around,whole]
    simp [reboxed]
  have text' : Text.join ['\n'] (ahead ++ reboxed marker after (flipped c) :: behind) =
      reboxed (front ahead ++ marker) (after ++ rear) (flipped c) := by
    rw [join_around,whole']
    simp [reboxed]
  simp only [Nat.zero_add] at found ⊢
  have toggled : toggleTaskInSource source i =
      reboxed (front ahead ++ marker) (after ++ rear) (flipped c) := by
    rw [text]
    exact toggle_reboxed (text ▸ found)
  have lines : Text.split '\n' (toggleTaskInSource source i) =
      ahead ++ reboxed marker after (flipped c) :: behind := by
    rw [toggled,← text']
    refine split_lines (by simp) fun line inside => ?_
    rcases List.mem_append.mp inside with inside | inside
    · exact single line (List.mem_append_left _ inside)
    · rcases List.mem_cons.mp inside with rfl | inside
      · have old := single (reboxed marker after c) (by simp)
        exact oneLine_flipped old
      · exact single line (by simp [inside])
  have items : taskItems (toggleTaskInSource source i) = (taskItems source).set i
      ⟨i,(front ahead ++ marker).length,(front ahead ++ marker).length + 3,!isChecked c⟩ := by
    have flipped_ := stays (flipped c) (known_flipped c)
    rw [isChecked_flipped] at flipped_
    rw [taskItems,lines,flipped_]
    simp [taskItems]
  refine ⟨⟨front ahead ++ marker,c,after ++ rear,known,text,toggled,rfl,fun lower => ?_⟩,items⟩
  have found' : (taskItems (toggleTaskInSource source i))[i]? = some ⟨i,
      (front ahead ++ marker).length,(front ahead ++ marker).length + 3,isChecked (flipped c)⟩ := by
    rw [items,isChecked_flipped,List.getElem?_set_self (List.getElem?_eq_some_iff.mp found).1]
  have back : flipped (flipped c) = c := by rcases lower with rfl | rfl <;> rfl
  rw [toggled] at found' ⊢
  rw [toggle_reboxed found',back,← text]

end Flips

section Live

variable {offset count : Nat} {fence : Option (Char × Nat)} {lines : List Text}

/-- The live preview counts the same items. -/
theorem scanTasksFrom_zipIdx :
    (scanTasksFrom offset fence lines).zipIdx count = (taskItemsFrom offset fence count lines).map
      fun item => ((item.start,item.stop,item.checked),item.index) := by
  induction lines generalizing offset fence count with
  | nil => rfl
  | cons line rest ih =>
    simp only [scanTasksFrom,taskItemsFrom]
    cases fenceRun line with
    | some run => exact ih
    | none =>
      dsimp only
      split
      · rw [List.zipIdx_cons,ih]
        rfl
      · exact ih

end Live

end LocalBook.Workspace.Tasks
