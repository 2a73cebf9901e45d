import LocalBook.Ai.Context
import LocalBook.Index.Frontmatter

/-! The summary of a note: its lines are put into sections, facts are drawn from each section, and
one last call to the model reads all facts. -/
namespace LocalBook.Ai

abbrev Piece := Nat × Text

/-- The bounds of `_summary_sections`; a range takes no step of 0. -/
structure Bounds where
  maxChars : Nat
  maxSections : Nat
  positive : 0 < maxChars

theorem maxChars_pos : 0 < 10000 := by decide

def Bounds.default : Bounds := ⟨10000,80,maxChars_pos⟩

/-- `text.splitlines() or [""]`. -/
def linesOf (text : Text) : List Text := if splitLines text = [] then [[]] else splitLines text

/-- The blanks in front and the `#`s behind them. -/
def blanks (line : Text) : Text := line.takeWhile Text.isSpace

def hashes (line : Text) : Text := (line.dropWhile Text.isSpace).takeWhile (· = '#')

def behindHashes (line : Text) : Text := (line.dropWhile Text.isSpace).dropWhile (· = '#')

/-- `^\s{0,3}#{1,6}\s+`. -/
def isHeading (line : Text) : Bool :=
  decide ((blanks line).length ≤ 3) && decide (1 ≤ (hashes line).length) &&
    decide ((hashes line).length ≤ 6) && (behindHashes line).head?.any Text.isSpace

/-- `line.lstrip(" #")[:200] or "(untitled)"`. -/
def titleOf (line : Text) : Text :=
  let title := (Text.lstripBy (fun c => c = ' ' || c = '#') line).take 200
  if title = [] then "(untitled)".toList else title

def omitted : Text := "(remaining document; additional headings omitted)".toList

/-- `[line[i:i + max_chars] for i in range(0, len(line), max_chars)]`, for a line of at most this
length. -/
def cutLine (maxChars : Nat) : Nat → Text → List Text
  | 0, _ => []
  | fuel + 1, line =>
    if line = [] then [] else line.take maxChars :: cutLine maxChars fuel (line.drop maxChars)

def pieces (maxChars : Nat) (line : Text) : List Text :=
  if line = [] then [[]] else cutLine maxChars line.length line

structure Section where
  heading : Text
  startLine : Nat
  endLine : Nat
  lines : List Piece
  deriving DecidableEq

structure Sections where
  sections : List Section
  heading : Text
  group : List Piece
  size : Nat

namespace Sections

def start : Sections := ⟨[],"(document start)".toList,[],0⟩

def flush (s : Sections) : Sections :=
  if some_ : s.group = [] then s
  else
    { s with
      sections := s.sections ++
        [⟨s.heading,(s.group.head some_).1,(s.group.getLast some_).1,s.group⟩]
      group := []
      size := 0 }

def retitle (bounds : Bounds) (line : Text) (s : Sections) : Sections :=
  { s with
    heading := if bounds.maxSections ≤ s.sections.length then omitted else titleOf line }

def push (number : Nat) (s : Sections) (piece : Text) : Sections :=
  { s with group := s.group ++ [(number,piece)],size := s.size + piece.length + 1 }

def addPiece (bounds : Bounds) (number : Nat) (s : Sections) (piece : Text) : Sections :=
  if bounds.maxChars < s.size + piece.length + 1 ∧ s.group ≠ [] then push number s.flush piece
  else push number s piece

def addLine (bounds : Bounds) (s : Sections) (line : Text × Nat) : Sections :=
  (pieces bounds.maxChars line.1).foldl (addPiece bounds line.2)
    (if isHeading line.1 then retitle bounds line.1 s.flush else s)

end Sections

/-- `_summary_sections`. -/
def summarySections (bounds : Bounds) (text : Text) : List Section :=
  (((linesOf text).zipIdx 1).foldl (Sections.addLine bounds) Sections.start).flush.sections

/-- `quoted`: the lines of a section under their numbers. -/
def quotedLines (group : List Piece) : Text :=
  Text.join [Patches.lf] (group.map fun piece =>
    'L' :: Decimal.natText piece.1 ++ ": ".toList ++ piece.2)

/-! ### The last call -/

structure Extracted where
  summary : Text
  keyPoints : List Text

structure Fact where
  heading : Text
  startLine : Nat
  endLine : Nat
  summary : Text
  keyPoints : List Text

def Fact.of (part : Section) (said : Extracted) : Fact :=
  ⟨part.heading,part.startLine,part.endLine,said.summary,said.keyPoints⟩

/-- `", ".join(texts)` between brackets, as `json.dumps` writes a list. -/
def bracketed (first last : Char) (texts : List Text) : Text :=
  first :: Text.join ", ".toList texts ++ [last]

def field (name : String) (value : Text) : Text :=
  Index.quoted name.toList ++ ": ".toList ++ value

def Fact.dump (fact : Fact) : Text :=
  bracketed (Char.ofNat 123) (Char.ofNat 125)
    [field "heading" (Index.quoted fact.heading),
      field "start_line" (Decimal.natText fact.startLine),
      field "end_line" (Decimal.natText fact.endLine),
      field "summary" (Index.quoted fact.summary),
      field "key_points" (bracketed '[' ']' (fact.keyPoints.map Index.quoted))]

/-- `json.dumps(facts, ensure_ascii=False)`. -/
def dumpFacts (facts : List Fact) : Text := bracketed '[' ']' (facts.map Fact.dump)

/-- The facts, where the model answers the call for the section at `i` with `replies i`. -/
def factsOf (sections : List Section) (replies : Nat → Extracted) : List Fact :=
  sections.zipIdx.map fun part => Fact.of part.1 (replies part.2)

def synthesis : Text :=
  ("Synthesize only the supplied extracted facts. Include line markers on key points; " ++
    "do not add claims.\n").toList

def maxFacts : Nat := 80

def maxInput : Nat := 24000

/-- The input of the last call of `summarize`; a note of one section has no such call. -/
def finalInput (sections : List Section) (replies : Nat → Extracted) : Option Text :=
  if sections.length = 1 then none
  else some (synthesis ++ (dumpFacts ((factsOf sections replies).take maxFacts)).take maxInput)

/-! ### Groups of pieces -/

structure Item where
  opens : Bool
  number : Nat
  piece : Text

def Item.placed (item : Item) : Piece := (item.number,item.piece)

def itemsOf (bounds : Bounds) (line : Text × Nat) : List Item :=
  match pieces bounds.maxChars line.1 with
  | [] => []
  | first :: rest =>
    ⟨isHeading line.1,line.2,first⟩ :: rest.map fun piece => ⟨false,line.2,piece⟩

def items (bounds : Bounds) (text : Text) : List Item :=
  ((linesOf text).zipIdx 1).flatMap (itemsOf bounds)

def weight (group : List Piece) : Nat := (group.map fun piece => piece.2.length + 1).sum

def Full (maxChars : Nat) (group : List Piece) (item : Item) : Prop :=
  group ≠ [] ∧ maxChars < weight group + item.piece.length + 1

instance (maxChars : Nat) (group : List Piece) (item : Item) :
    Decidable (Full maxChars group item) :=
  inferInstanceAs (Decidable (_ ∧ _))

/-- The groups, `group` being open: a heading closes it, and so does a piece that does not fit. -/
def groups (maxChars : Nat) : List Piece → List Item → List (List Piece)
  | group, [] => if group = [] then [] else [group]
  | group, item :: rest =>
    if item.opens = true ∧ group ≠ [] ∨ Full maxChars group item then
      group :: groups maxChars [item.placed] rest
    else groups maxChars (group ++ [item.placed]) rest

def forced (maxChars : Nat) : List Piece → List Item → Nat
  | _, [] => 0
  | group, item :: rest =>
    if item.opens = true ∧ group ≠ [] then forced maxChars [item.placed] rest
    else if Full maxChars group item then 1 + forced maxChars [item.placed] rest
    else forced maxChars (group ++ [item.placed]) rest

theorem groups_open {maxChars : Nat} {group : List Piece} {item : Item} {rest : List Item}
    (opens : item.opens = true) (some_ : group ≠ []) :
    groups maxChars group (item :: rest) = group :: groups maxChars [item.placed] rest := by
  rw [groups,if_pos (.inl ⟨opens,some_⟩)]

theorem groups_full {maxChars : Nat} {group : List Piece} {item : Item} {rest : List Item}
    (full : Full maxChars group item) :
    groups maxChars group (item :: rest) = group :: groups maxChars [item.placed] rest := by
  rw [groups,if_pos (.inr full)]

theorem groups_first {maxChars : Nat} {item : Item} {rest : List Item} :
    groups maxChars [] (item :: rest) = groups maxChars [item.placed] rest := by
  rw [groups,if_neg (by simp [Full]),List.nil_append]

theorem groups_next {maxChars : Nat} {group : List Piece} {item : Item} {rest : List Item}
    (plain : item.opens = false) (fits : ¬ Full maxChars group item) :
    groups maxChars group (item :: rest) = groups maxChars (group ++ [item.placed]) rest := by
  rw [groups,if_neg (by simp [plain,fits])]

theorem flatten_groups (maxChars : Nat) (rest : List Item) (group : List Piece) :
    (groups maxChars group rest).flatten = group ++ rest.map Item.placed := by
  induction rest generalizing group with
  | nil =>
    rw [groups]
    split
    · next empty => simp [empty]
    · simp
  | cons item rest ih =>
    rw [groups]
    split
    · rw [List.flatten_cons,ih,List.map_cons,List.singleton_append]
    · rw [ih,List.map_cons,List.append_assoc,List.singleton_append]

/-- Each group begins with the first piece, at a heading or by force. -/
theorem length_groups (maxChars : Nat) (rest : List Item) {group : List Piece}
    (some_ : group ≠ []) :
    (groups maxChars group rest).length =
      1 + rest.countP Item.opens + forced maxChars group rest := by
  induction rest generalizing group with
  | nil => simp [groups,forced,some_]
  | cons item rest ih =>
    have single : [item.placed] ≠ [] := List.cons_ne_nil _ _
    have longer : group ++ [item.placed] ≠ [] := by simp
    cases opens : item.opens with
    | true =>
      rw [groups_open opens some_,List.length_cons,ih single,forced,if_pos ⟨opens,some_⟩,
        List.countP_cons_of_pos opens]
      omega
    | false =>
      rw [forced,if_neg (by simp [opens]),List.countP_cons_of_neg (by simp [opens])]
      split
      · next full =>
        rw [groups_full full,List.length_cons,ih single]
        omega
      · next fits => rw [groups_next opens fits,ih longer]

/-! ### The sections are the groups -/

def Read (bounds : Bounds) (s : Sections) (read : List Item) (t : Sections) : Prop :=
  ∃ closed,t.sections.map Section.lines = s.sections.map Section.lines ++ closed ∧
    t.size = weight t.group ∧
    ∀ rest,groups bounds.maxChars s.group (read ++ rest) =
      closed ++ groups bounds.maxChars t.group rest

theorem Read.trans {bounds : Bounds} {s t u : Sections} {read next : List Item}
    (first : Read bounds s read t) (second : Read bounds t next u) :
    Read bounds s (read ++ next) u := by
  obtain ⟨closed,sections,-,same⟩ := first
  obtain ⟨closed',sections',size,same'⟩ := second
  refine ⟨closed ++ closed',?_,size,fun rest => ?_⟩
  · rw [sections',sections,List.append_assoc]
  · rw [List.append_assoc,same,same',List.append_assoc]

namespace Sections

theorem flush_empty {s : Sections} (empty : s.group = []) : s.flush = s := by
  rw [flush,dif_pos empty]

theorem lines_flush {s : Sections} (some_ : s.group ≠ []) :
    s.flush.sections.map Section.lines = s.sections.map Section.lines ++ [s.group] := by
  rw [flush,dif_neg some_,List.map_append,List.map_singleton]

@[simp] theorem group_flush (s : Sections) : s.flush.group = [] := by
  unfold flush
  split
  · assumption
  · rfl

theorem size_flush {s : Sections} (size : s.size = weight s.group) : s.flush.size = 0 := by
  unfold flush
  split
  · next empty => rw [size,empty]; rfl
  · rfl

end Sections

theorem weight_push (group : List Piece) (number : Nat) (piece : Text) :
    weight (group ++ [(number,piece)]) = weight group + piece.length + 1 := by
  simp [weight,Nat.add_assoc]

theorem read_addPiece (bounds : Bounds) (number : Nat) (piece : Text) {s : Sections}
    (size : s.size = weight s.group) :
    Read bounds s [⟨false,number,piece⟩] (s.addPiece bounds number piece) := by
  unfold Sections.addPiece
  split
  · next full =>
    have full' : Full bounds.maxChars s.group ⟨false,number,piece⟩ := ⟨full.2,size ▸ full.1⟩
    refine ⟨[s.group],Sections.lines_flush full.2,?_,fun rest => ?_⟩
    · change s.flush.size + piece.length + 1 = weight (s.flush.group ++ [(number,piece)])
      rw [weight_push,Sections.size_flush size,Sections.group_flush]
      rfl
    · change _ = _ ++ groups bounds.maxChars (s.flush.group ++ [(number,piece)]) rest
      rw [List.singleton_append,groups_full full',Sections.group_flush]
      rfl
  · next fits =>
    have fits' : ¬ Full bounds.maxChars s.group ⟨false,number,piece⟩ := fun full =>
      fits ⟨size ▸ full.2,full.1⟩
    refine ⟨[],by rw [List.append_nil]; rfl,?_,fun rest => ?_⟩
    · change s.size + piece.length + 1 = weight (s.group ++ [(number,piece)])
      rw [weight_push,size]
    · rw [List.singleton_append,groups_next rfl fits']
      rfl

theorem read_pieces (bounds : Bounds) (number : Nat) (rest : List Text) {s : Sections}
    (size : s.size = weight s.group) :
    Read bounds s (rest.map fun piece => ⟨false,number,piece⟩)
      (rest.foldl (Sections.addPiece bounds number) s) := by
  induction rest generalizing s with
  | nil => exact ⟨[],(List.append_nil _).symm,size,fun _ => rfl⟩
  | cons piece rest ih =>
    have first := read_addPiece bounds number piece size
    exact first.trans (ih first.choose_spec.2.1)

theorem read_first (bounds : Bounds) (line : Text × Nat) (piece : Text) {s : Sections}
    (size : s.size = weight s.group) :
    Read bounds s [⟨isHeading line.1,line.2,piece⟩]
      ((if isHeading line.1 then s.flush.retitle bounds line.1 else s).addPiece bounds line.2
        piece) := by
  cases opens : isHeading line.1 with
  | false => exact read_addPiece bounds line.2 piece size
  | true =>
    rw [if_pos rfl]
    have empty : (s.flush.retitle bounds line.1).group = [] := s.group_flush
    have none_ : (s.flush.retitle bounds line.1).size = 0 := Sections.size_flush size
    have step : (s.flush.retitle bounds line.1).addPiece bounds line.2 piece =
        (s.flush.retitle bounds line.1).push line.2 piece := by
      rw [Sections.addPiece,if_neg (fun full => full.2 empty)]
    have group : ((s.flush.retitle bounds line.1).push line.2 piece).group =
        [(line.2,piece)] := by
      rw [Sections.push,empty,List.nil_append]
    rw [step]
    have size' : ((s.flush.retitle bounds line.1).push line.2 piece).size =
        weight ((s.flush.retitle bounds line.1).push line.2 piece).group := by
      rw [group,Sections.push,none_]
      simp [weight]
    by_cases first : s.group = []
    · refine ⟨[],?_,size',fun rest => ?_⟩
      · change s.flush.sections.map Section.lines = _
        rw [Sections.flush_empty first,List.append_nil]
      · rw [group,first]
        exact groups_first
    · refine ⟨[s.group],Sections.lines_flush first,size',fun rest => ?_⟩
      rw [group]
      exact groups_open rfl first

theorem pieces_ne_nil (maxChars : Nat) (line : Text) : pieces maxChars line ≠ [] := by
  unfold pieces
  split
  · exact List.cons_ne_nil _ _
  · next some_ =>
    cases line with
    | nil => exact absurd rfl some_
    | cons c rest =>
      rw [List.length_cons,cutLine,if_neg (List.cons_ne_nil _ _)]
      exact List.cons_ne_nil _ _

theorem read_addLine (bounds : Bounds) (line : Text × Nat) {s : Sections}
    (size : s.size = weight s.group) :
    Read bounds s (itemsOf bounds line) (s.addLine bounds line) := by
  unfold itemsOf Sections.addLine
  cases cut : pieces bounds.maxChars line.1 with
  | nil => exact absurd cut (pieces_ne_nil _ _)
  | cons first rest =>
    have opened := read_first bounds line first size
    exact opened.trans (read_pieces bounds line.2 rest opened.choose_spec.2.1)

theorem read_lines (bounds : Bounds) (lines : List (Text × Nat)) {s : Sections}
    (size : s.size = weight s.group) :
    Read bounds s (lines.flatMap (itemsOf bounds)) (lines.foldl (Sections.addLine bounds) s) := by
  induction lines generalizing s with
  | nil => exact ⟨[],(List.append_nil _).symm,size,fun _ => rfl⟩
  | cons line lines ih =>
    have first := read_addLine bounds line size
    exact first.trans (ih first.choose_spec.2.1)

theorem lines_summarySections (bounds : Bounds) (text : Text) :
    (summarySections bounds text).map Section.lines =
      groups bounds.maxChars [] (items bounds text) := by
  obtain ⟨closed,sections,-,same⟩ := read_lines bounds ((linesOf text).zipIdx 1)
    (s := Sections.start) rfl
  have whole := same []
  rw [List.append_nil] at whole
  unfold summarySections items
  refine Eq.trans ?_ whole.symm
  rw [groups]
  split
  · next empty => rw [Sections.flush_empty empty,sections,List.append_nil]; rfl
  · next some_ => rw [Sections.lines_flush some_,sections]; rfl

/-! ### What a summary covers -/

theorem flatten_cutLine {maxChars : Nat} (positive : 0 < maxChars) (fuel : Nat) {line : Text}
    (enough : line.length ≤ fuel) : (cutLine maxChars fuel line).flatten = line := by
  induction fuel generalizing line with
  | zero => exact (List.eq_nil_of_length_eq_zero (by omega)).symm
  | succ fuel ih =>
    rw [cutLine]
    split
    · next empty => exact empty.symm
    · next some_ =>
      have shorter : (line.drop maxChars).length ≤ fuel := by
        have := List.length_pos_of_ne_nil some_
        rw [List.length_drop]
        omega
      rw [List.flatten_cons,ih shorter,List.take_append_drop]

theorem flatten_pieces (bounds : Bounds) (line : Text) :
    (pieces bounds.maxChars line).flatten = line := by
  unfold pieces
  split
  · next empty => rw [empty]; rfl
  · exact flatten_cutLine bounds.positive _ le_rfl

theorem placed_itemsOf (bounds : Bounds) (line : Text × Nat) :
    (itemsOf bounds line).map Item.placed =
      (pieces bounds.maxChars line.1).map fun piece => (line.2,piece) := by
  unfold itemsOf
  cases pieces bounds.maxChars line.1 with
  | nil => rfl
  | cons first rest => simp [Item.placed]

theorem placed_items (bounds : Bounds) (text : Text) :
    (items bounds text).map Item.placed = ((linesOf text).zipIdx 1).flatMap fun line =>
      (pieces bounds.maxChars line.1).map fun piece => (line.2,piece) := by
  rw [items,List.map_flatMap]
  exact List.flatMap_congr fun line _ => placed_itemsOf bounds line

/-- The lines stand whole and in order under the numbers from `first` on. -/
structure Tiled (lines : List Text) (first : Nat) (placed : List Piece) : Prop where
  whole : ∀ i (inside : i < lines.length),
    ((placed.filter fun piece => piece.1 = first + i).map Prod.snd).flatten = lines.get ⟨i,inside⟩
  present : ∀ i < lines.length,∃ piece ∈ placed,piece.1 = first + i
  inside : ∀ piece ∈ placed,first ≤ piece.1 ∧ piece.1 < first + lines.length
  ordered : placed.Pairwise fun a b => a.1 ≤ b.1

theorem Tiled.cons {lines : List Text} {first : Nat} {placed : List Piece}
    (tiled : Tiled lines (first + 1) placed) {line : Text} {cut : List Text}
    (some_ : cut ≠ []) (same : cut.flatten = line) :
    Tiled (line :: lines) first (cut.map (fun piece => (first,piece)) ++ placed) where
  whole
    | 0,_ => by
      have own : (cut.map fun piece => (first,piece)).filter (fun piece => piece.1 = first + 0) =
          cut.map fun piece => (first,piece) := by
        refine List.filter_eq_self.mpr fun piece member => ?_
        obtain ⟨_,-,rfl⟩ := List.mem_map.mp member
        simp
      have others : placed.filter (fun piece => piece.1 = first + 0) = [] := by
        refine List.filter_eq_nil_iff.mpr fun piece member => ?_
        have := (tiled.inside piece member).1
        simp only [decide_eq_true_eq]
        omega
      rw [List.filter_append,own,others,List.append_nil,List.map_map]
      change (cut.map id).flatten = line
      rw [List.map_id,same]
    | i + 1,inside => by
      have own : (cut.map fun piece => (first,piece)).filter
          (fun piece => piece.1 = first + (i + 1)) = [] := by
        refine List.filter_eq_nil_iff.mpr fun piece member => ?_
        obtain ⟨_,-,rfl⟩ := List.mem_map.mp member
        simp only [decide_eq_true_eq]
        omega
      have number : first + (i + 1) = first + 1 + i := by omega
      rw [List.filter_append,own,List.nil_append,number]
      exact tiled.whole i (Nat.lt_of_succ_lt_succ inside)
  present
    | 0,_ => by
      obtain ⟨piece,member⟩ := List.exists_mem_of_ne_nil cut some_
      exact ⟨(first,piece),List.mem_append_left _ (List.mem_map_of_mem member),rfl⟩
    | i + 1,inside => by
      obtain ⟨piece,member,number⟩ := tiled.present i (Nat.lt_of_succ_lt_succ inside)
      exact ⟨piece,List.mem_append_right _ member,by omega⟩
  inside := by
    intro piece member
    rw [List.length_cons]
    rcases List.mem_append.mp member with own | later
    · obtain ⟨_,-,rfl⟩ := List.mem_map.mp own
      exact ⟨le_rfl,by change first < _; omega⟩
    · have := tiled.inside piece later
      omega
  ordered := by
    refine List.pairwise_append.mpr ⟨?_,tiled.ordered,fun a own b later => ?_⟩
    · exact List.pairwise_map.mpr (List.pairwise_of_forall fun _ _ => le_rfl)
    · obtain ⟨_,-,rfl⟩ := List.mem_map.mp own
      exact Nat.le_of_succ_le (tiled.inside b later).1

theorem tiled_lines (bounds : Bounds) (lines : List Text) (first : Nat) :
    Tiled lines first ((lines.zipIdx first).flatMap fun line =>
      (pieces bounds.maxChars line.1).map fun piece => (line.2,piece)) := by
  induction lines generalizing first with
  | nil =>
    exact ⟨fun i inside => absurd inside (Nat.not_lt_zero i),
      fun i inside => absurd inside (Nat.not_lt_zero i),fun _ member => (nomatch member),.nil⟩
  | cons line lines ih =>
    rw [List.zipIdx_cons,List.flatMap_cons]
    exact (ih (first + 1)).cons (pieces_ne_nil _ _) (flatten_pieces bounds line)

theorem tiled_sections (bounds : Bounds) (text : Text) :
    Tiled (linesOf text) 1 ((summarySections bounds text).flatMap Section.lines) := by
  rw [List.flatMap_def,lines_summarySections,flatten_groups,List.nil_append,
    placed_items]
  exact tiled_lines bounds (linesOf text) 1

theorem linesOf_ne_nil (text : Text) : linesOf text ≠ [] := by
  unfold linesOf
  split
  · exact List.cons_ne_nil _ _
  · assumption

theorem opens_itemsOf (bounds : Bounds) (line : Text × Nat) :
    (itemsOf bounds line).countP Item.opens = if isHeading line.1 then 1 else 0 := by
  have plain : ∀ rest : List Text,
      (rest.map fun piece => (⟨false,line.2,piece⟩ : Item)).countP Item.opens = 0 :=
    fun rest => List.countP_eq_zero.mpr fun item member => by
      obtain ⟨_,-,rfl⟩ := List.mem_map.mp member
      exact Bool.false_ne_true
  unfold itemsOf
  cases cut : pieces bounds.maxChars line.1 with
  | nil => exact absurd cut (pieces_ne_nil _ _)
  | cons first rest => rw [List.countP_cons,plain,Nat.zero_add]

theorem opens_lines (bounds : Bounds) (lines : List Text) (first : Nat) :
    ((lines.zipIdx first).flatMap (itemsOf bounds)).countP Item.opens =
      lines.countP isHeading := by
  induction lines generalizing first with
  | nil => rfl
  | cons line lines ih =>
    rw [List.zipIdx_cons,List.flatMap_cons,List.countP_append,ih,opens_itemsOf,List.countP_cons,
      Nat.add_comm]

def forcedBySize (bounds : Bounds) (text : Text) : Nat :=
  forced bounds.maxChars [] (items bounds text)

theorem length_summarySections (bounds : Bounds) (text : Text) :
    (summarySections bounds text).length =
      1 + (linesOf text).tail.countP isHeading + forcedBySize bounds text := by
  rw [← List.length_map Section.lines,lines_summarySections,forcedBySize,items]
  cases lines : linesOf text with
  | nil => exact absurd lines (linesOf_ne_nil text)
  | cons line rest =>
    rw [List.zipIdx_cons,List.flatMap_cons,List.tail_cons,itemsOf]
    cases cut : pieces bounds.maxChars line with
    | nil => exact absurd cut (pieces_ne_nil _ _)
    | cons first others =>
      have plain : (others.map fun piece => (⟨false,1,piece⟩ : Item)).countP Item.opens = 0 :=
        List.countP_eq_zero.mpr fun item member => by
          obtain ⟨_,-,rfl⟩ := List.mem_map.mp member
          exact Bool.false_ne_true
      simp only [List.cons_append]
      rw [groups_first,length_groups _ _ (List.cons_ne_nil _ _),List.countP_append,plain,
        Nat.zero_add,opens_lines,forced,if_neg (by simp),if_neg (by simp [Full]),List.nil_append]

/-! ### All facts reach the last call -/

theorem join_append {separator : Text} {front rest : List Text} (front_ : front ≠ [])
    (rest_ : rest ≠ []) : Text.join separator (front ++ rest) =
      Text.join separator front ++ separator ++ Text.join separator rest := by
  unfold Text.join
  induction front with
  | nil => exact absurd rfl front_
  | cons first front ih =>
    by_cases last : front = []
    · rw [last,List.singleton_append,List.intercalate_cons_of_ne_nil rest_,
        List.intercalate_singleton]
    · rw [List.cons_append,List.intercalate_cons_of_ne_nil (by simp [last]),ih last,
        List.intercalate_cons_of_ne_nil last]
      simp only [List.append_assoc]

theorem length_dumpFacts (facts : List Fact) :
    (dumpFacts facts).length = (Text.join ", ".toList (facts.map Fact.dump)).length + 2 := by
  simp [dumpFacts,bracketed]

theorem written_iff (facts : List Fact) :
    (synthesis ++ (dumpFacts facts).dropLast <+:
        synthesis ++ (dumpFacts (facts.take maxFacts)).take maxInput) ↔
      facts.length ≤ maxFacts ∧ (dumpFacts facts).length ≤ maxInput + 1 := by
  rw [List.prefix_append_right_inj]
  constructor
  · intro written
    have bound := written.length_le
    rw [List.length_dropLast,List.length_take] at bound
    refine ⟨?_,by omega⟩
    by_contra many
    have front : (facts.take maxFacts).map Fact.dump ≠ [] := by
      intro none_
      have := congrArg List.length none_
      rw [List.length_map,List.length_take,List.length_nil,maxFacts] at this
      omega
    have rest : (facts.drop maxFacts).map Fact.dump ≠ [] := by
      intro none_
      have := congrArg List.length none_
      rw [List.length_map,List.length_drop,List.length_nil] at this
      omega
    have split : (Text.join ", ".toList (facts.map Fact.dump)).length =
        (Text.join ", ".toList ((facts.take maxFacts).map Fact.dump)).length + 2 +
          (Text.join ", ".toList ((facts.drop maxFacts).map Fact.dump)).length := by
      conv => lhs; rw [← List.take_append_drop maxFacts facts,List.map_append,
        join_append front rest,List.length_append,List.length_append]
      rfl
    rw [length_dumpFacts,length_dumpFacts] at bound
    omega
  · rintro ⟨few,short⟩
    rw [List.take_of_length_le few,List.dropLast_eq_take]
    exact List.take_prefix_take_left (by omega)

/-- The bounded cover: the sections hold every line whole and in order, the text quoted of each is
bounded and so is their number, and the facts of every section are in the input of the last call. -/
structure Covers (bounds : Bounds) (text : Text) (replies : Nat → Extracted) : Prop where
  tiled : Tiled (linesOf text) 1 ((summarySections bounds text).flatMap Section.lines)
  quoted : ∀ part ∈ summarySections bounds text,
    (quotedLines part.lines).length ≤ bounds.maxChars
  few : (summarySections bounds text).length ≤ bounds.maxSections + forcedBySize bounds text
  reached : ∀ input ∈ finalInput (summarySections bounds text) replies,
    synthesis ++ (dumpFacts (factsOf (summarySections bounds text) replies)).dropLast <+: input

theorem length_factsOf (sections : List Section) (replies : Nat → Extracted) :
    (factsOf sections replies).length = sections.length := by
  rw [factsOf,List.length_map,List.length_zipIdx]

theorem reached_iff (sections : List Section) (replies : Nat → Extracted) :
    (∀ input ∈ finalInput sections replies,
        synthesis ++ (dumpFacts (factsOf sections replies)).dropLast <+: input) ↔
      (sections.length ≠ 1 → sections.length ≤ maxFacts ∧
        (dumpFacts (factsOf sections replies)).length ≤ maxInput + 1) := by
  unfold finalInput
  split
  · next one => simp [one]
  · next several =>
    rw [← length_factsOf sections replies,← written_iff]
    constructor
    · intro written _
      exact written _ rfl
    · rintro written input same
      cases same
      exact written (by rwa [length_factsOf])

end LocalBook.Ai
