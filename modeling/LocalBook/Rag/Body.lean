import LocalBook.Index.Frontmatter
import LocalBook.Rag.Tiling

/-! Where the body of a note starts: for the parser of the frontmatter, and for the chunker, which
looks for the delimiters in its own way. -/
namespace LocalBook.Rag.Body

open Patches (lf cr endsLine)
open Index (opensBlock closesBlock withoutBom)

abbrev pieces (text : Text) : List Text := Patches.splitLines text

/-- The lines of `re.split(r"\r\n|\r|\n", …)`, each with what ends it. -/
def cutLines : Text → List (Text × Text)
  | [] => [([],[])]
  | c :: rest =>
    if c = cr ∧ rest.head? = some lf then
      -- the line feed is an end of its own behind the carriage return
      match cutLines rest with
      | (_,ends) :: others => ([],c :: ends) :: others
      | [] => [([],[c])]
    else if c = cr ∨ c = lf then ([],[c]) :: cutLines rest
    else
      match cutLines rest with
      | (line,ends) :: others => (c :: line,ends) :: others
      | [] => [([c],[])]

def whole (line : Text × Text) : Text := line.1 ++ line.2

def wholes (lines : List (Text × Text)) : Text := lines.flatMap whole

/-- The lines of the frontmatter block for `parse_frontmatter` and `strip_frontmatter`: the first
one, those within, and the one that closes it. -/
structure Block where
  first : Text × Text
  within : List (Text × Text)
  closing : Text × Text

def blockOf (text : Text) : Option Block :=
  match cutLines (withoutBom text) with
  | [] => none
  | first :: rest =>
    if !opensBlock first.1 then none
    else
      match rest.findIdx? fun line => closesBlock line.1 with
      | none => none
      | some n => (rest[n]?).map fun closing => ⟨first,rest.take n,closing⟩

/-- The offset at which `strip_frontmatter` starts the body. -/
def stripOffset (text : Text) : Nat :=
  match blockOf text with
  | none => 0
  | some block =>
    (text.length - (withoutBom text).length) +
      (wholes (block.first :: block.within ++ [block.closing])).length

/-- A piece of `splitlines` that the chunker takes for a delimiter. -/
def delimits (piece : Text) : Bool := Text.strip piece = "---".toList

def ChunkerBlock (text : Text) : Prop :=
  Text.startsWith text "---".toList = true ∧
    ∃ first rest,pieces text = first :: rest ∧ delimits first = true ∧ ∃ p ∈ rest,delimits p = true

section Cutting

theorem cutLines_ne_nil (text : Text) : cutLines text ≠ [] := by
  cases text with
  | nil => simp [cutLines]
  | cons c rest =>
    rw [cutLines]
    split
    · split <;> simp
    · split
      · simp
      · split <;> simp

theorem wholes_cutLines (text : Text) : wholes (cutLines text) = text := by
  induction text with
  | nil => rfl
  | cons c rest ih =>
    rw [cutLines]
    cases lines : cutLines rest with
    | nil => exact absurd lines (cutLines_ne_nil rest)
    | cons first others =>
      rw [lines,wholes,List.flatMap_cons] at ih
      split
      · next both =>
        -- the line before the line feed is empty
        obtain ⟨tail,rfl⟩ := List.head?_eq_some_iff.mp both.2
        rw [cutLines,if_neg (by simp [lf,cr]),if_pos (.inr rfl)] at lines
        obtain ⟨rfl,rfl⟩ := List.cons.inj lines
        rw [wholes,List.flatMap_cons,← ih]
        rfl
      · split
        · rw [wholes,List.flatMap_cons,List.flatMap_cons,ih]
          rfl
        · rw [wholes,List.flatMap_cons,← ih]
          rfl

/-- An end is empty only behind the last line, and neither it nor a line holds another. -/
structure Ended (line : Text × Text) : Prop where
  inner : ∀ c ∈ line.1,c ≠ cr ∧ c ≠ lf
  ends : line.2 = [] ∨ line.2 = [cr] ∨ line.2 = [lf] ∨ line.2 = [cr,lf]

theorem ended_cutLines (text : Text) : ∀ line ∈ cutLines text,Ended line := by
  induction text with
  | nil =>
    intro line member
    rw [List.mem_singleton.mp member]
    exact ⟨fun _ impossible => (List.not_mem_nil impossible).elim,.inl rfl⟩
  | cons c rest ih =>
    intro line member
    rw [cutLines] at member
    cases lines : cutLines rest with
    | nil => exact absurd lines (cutLines_ne_nil rest)
    | cons first others =>
      rw [lines] at member ih
      split at member
      · next both =>
        rcases List.mem_cons.mp member with rfl | later
        · obtain ⟨tail,rfl⟩ := List.head?_eq_some_iff.mp both.2
          rw [cutLines,if_neg (by simp [lf,cr]),if_pos (.inr rfl)] at lines
          obtain ⟨rfl,_⟩ := List.cons.inj lines
          rw [both.1]
          exact ⟨fun _ impossible => (List.not_mem_nil impossible).elim,.inr (.inr (.inr rfl))⟩
        · exact ih line (List.mem_cons_of_mem _ later)
      · split at member
        · next ends =>
          rcases List.mem_cons.mp member with rfl | later
          · refine ⟨fun _ impossible => (List.not_mem_nil impossible).elim,?_⟩
            rcases ends with rfl | rfl
            · exact .inr (.inl rfl)
            · exact .inr (.inr (.inl rfl))
          · exact ih line later
        · next inner =>
          rcases List.mem_cons.mp member with rfl | later
          · obtain ⟨before,stops⟩ := ih first (by simp)
            refine ⟨?_,stops⟩
            intro d there
            rcases List.mem_cons.mp there with rfl | behind
            · exact not_or.mp inner
            · exact before d behind
          · exact ih line (List.mem_cons_of_mem _ later)

theorem last_of_unended (text : Text) {line : Text × Text} {others : List (Text × Text)}
    (lines : cutLines text = line :: others) (unended : line.2 = []) : others = [] := by
  induction text generalizing line others with
  | nil =>
    rw [cutLines] at lines
    exact (List.cons.inj lines).2.symm
  | cons c rest ih =>
    rw [cutLines] at lines
    cases later : cutLines rest with
    | nil => exact absurd later (cutLines_ne_nil rest)
    | cons first behind =>
      rw [later] at lines
      split at lines
      · obtain ⟨rfl,rfl⟩ := List.cons.inj lines
        cases unended
      · split at lines
        · obtain ⟨rfl,rfl⟩ := List.cons.inj lines
          cases unended
        · obtain ⟨rfl,rfl⟩ := List.cons.inj lines
          exact ih later unended

theorem pieces_cutLines (text : Text) :
    pieces text = (cutLines text).flatMap fun line => pieces (whole line) := by
  induction text with
  | nil => rfl
  | cons c rest ih =>
    rw [cutLines]
    cases lines : cutLines rest with
    | nil => exact absurd lines (cutLines_ne_nil rest)
    | cons first others =>
      have unended := last_of_unended rest lines
      rw [lines,List.flatMap_cons] at ih
      split
      · next both =>
        obtain ⟨tail,rfl⟩ := List.head?_eq_some_iff.mp both.2
        rw [cutLines,if_neg (by simp [lf,cr]),if_pos (.inr rfl)] at lines
        obtain ⟨rfl,rfl⟩ := List.cons.inj lines
        rw [both.1,pieces,Patches.splitLines.eq_def]
        dsimp only
        rw [if_neg (by simp),show Patches.splitLines (lf :: tail) = _ from ih]
        rfl
      · next apart =>
        split
        · next ends =>
          have boundary : endsLine c = true := by rcases ends with rfl | rfl <;> rfl
          have single : pieces [c] = [[c]] := by
            rw [pieces,Patches.splitLines.eq_def]
            simp [boundary,Patches.splitLines]
          rw [List.flatMap_cons,List.flatMap_cons,← ih,show whole ([],[c]) = [c] from rfl,single,
            pieces,Patches.splitLines.eq_def]
          dsimp only
          rw [if_pos ⟨boundary,apart⟩]
          rfl
        · next inner =>
          have other : c ≠ cr := fun same => inner (.inl same)
          rw [List.flatMap_cons,pieces,Patches.splitLines.eq_def,pieces,show whole (c :: first.1,first.2) =
            c :: whole first from rfl,Patches.splitLines.eq_def]
          dsimp only
          by_cases boundary : endsLine c = true
          · rw [if_pos ⟨boundary,apart⟩,if_pos ⟨boundary,fun both => other both.1⟩,← pieces,ih]
            rfl
          · rw [if_neg (fun both => boundary both.1),if_neg (fun both => boundary both.1),
              show Patches.splitLines rest = _ from ih]
            cases parts : pieces (whole first) with
            | nil =>
              have empty := Wikilinks.flatten_splitLines (whole first)
              rw [show Patches.splitLines (whole first) = [] from parts] at empty
              have none' : others = [] := unended (List.append_eq_nil_iff.mp empty.symm).2
              rw [show Patches.splitLines (whole first) = [] from parts,none']
              rfl
            | cons p ps =>
              rw [show Patches.splitLines (whole first) = p :: ps from parts]
              rfl

theorem pieces_append {front : Text} (inner : ∀ c ∈ front,endsLine c = false) (some' : front ≠ [])
    (rest : Text) : pieces (front ++ rest) = match pieces rest with
      | p :: others => (front ++ p) :: others
      | [] => [front] := by
  induction front with
  | nil => exact absurd rfl some'
  | cons c front ih =>
    have plain : ¬(endsLine c = true ∧ ¬(c = cr ∧ (front ++ rest).head? = some lf)) := by
      simp [inner c (by simp)]
    rw [List.cons_append,pieces,Patches.splitLines,if_neg plain]
    cases front with
    | nil => cases parts : Patches.splitLines rest <;> simp [parts]
    | cons d front =>
      have later := ih (fun e member => inner e (List.mem_cons_of_mem _ member)) (by simp)
      rw [show Patches.splitLines (d :: front ++ rest) = _ from later]
      cases parts : pieces rest <;> simp

theorem piece_ne_nil {text p : Text} (member : p ∈ pieces text) : p ≠ [] :=
  Chunking.line_ne_nil text p member

end Cutting

section Delimiters

theorem rstripBy_append (drops : Char → Bool) (t : Text) :
    t = Text.rstripBy drops t ++ (t.reverse.takeWhile drops).reverse := by
  rw [Text.rstripBy,← List.reverse_append,List.takeWhile_append_dropWhile,List.reverse_reverse]

theorem strip_delimiter {w : Text} (space : ∀ c ∈ w,Text.isSpace c = true) :
    delimits ("---".toList ++ w) = true := by
  have front : Text.lstripBy Text.isSpace ("---".toList ++ w) = "---".toList ++ w := rfl
  have back : w.reverse.dropWhile Text.isSpace = [] :=
    List.dropWhile_eq_nil_iff.mpr fun c member => space c (List.mem_reverse.mp member)
  have cut : ("---".toList ++ w).reverse.dropWhile Text.isSpace = "---".toList.reverse := by
    rw [List.reverse_append,List.dropWhile_append,back]
    rfl
  rw [delimits,Text.strip,Text.stripBy,front,Text.rstripBy,cut]
  rfl

theorem endsLine_dashes : ∀ c ∈ "---".toList,endsLine c = false := by
  intro c member
  have dash : c = '-' := by simpa using member
  rw [dash]
  rfl

theorem inner_of_opens {line : Text} (opens : opensBlock line = true)
    (starts : line.head? = some '-') :
    ∃ w,line = "---".toList ++ w ∧ ∀ c ∈ w,Index.isBlank c = true := by
  obtain ⟨tail,rfl⟩ := List.head?_eq_some_iff.mp starts
  have front : Text.lstripBy Index.isBlank ('-' :: tail) = '-' :: tail := rfl
  rw [opensBlock,Text.stripBy,front,decide_eq_true_eq] at opens
  have parts := rstripBy_append Index.isBlank ('-' :: tail)
  rw [opens] at parts
  refine ⟨_,parts,?_⟩
  intro c member
  exact List.mem_takeWhile_imp (List.mem_reverse.mp member)

theorem space_of_ends {line : Text × Text} (ended : Ended line) :
    ∀ c ∈ line.2,Text.isSpace c = true := by
  have carriage : Text.isSpace cr = true := rfl
  have feed : Text.isSpace lf = true := rfl
  rcases ended.ends with same | same | same | same <;> simp [same,carriage,feed]

theorem pieces_first {line : Text × Text} (opens : opensBlock line.1 = true)
    (starts : line.1.head? = some '-') (ended : Ended line) :
    pieces (whole line) = [whole line] ∧ delimits (whole line) = true := by
  obtain ⟨w,same,blanks⟩ := inner_of_opens opens starts
  have blank (c : Char) (member : c ∈ w) : c = ' ' ∨ c = Char.ofNat 9 := by
    simpa [Index.isBlank] using blanks c member
  constructor
  · have inner : ∀ c ∈ line.1,endsLine c = false := by
      rw [same]
      intro c member
      rcases List.mem_append.mp member with dash | behind
      · exact endsLine_dashes c dash
      · rcases blank c behind with rfl | rfl <;> rfl
    rw [whole,pieces_append inner (by rw [same]; simp)]
    rcases ended.ends with ends | ends | ends | ends <;> rw [ends] <;>
      simp [pieces,Patches.splitLines,endsLine,cr,lf]
  · rw [whole,same,List.append_assoc]
    apply strip_delimiter
    intro c member
    rcases List.mem_append.mp member with inside | behind
    · rcases blank c inside with rfl | rfl <;> rfl
    · exact space_of_ends ended c behind

theorem pieces_closing {line : Text × Text} (closes : closesBlock line.1 = true)
    (ended : Ended line) :
    ∃ p others,pieces (whole line) = p :: others ∧ delimits p = true := by
  rw [closesBlock,Bool.and_eq_true] at closes
  obtain ⟨w,same⟩ := List.isPrefixOf_iff_prefix.mp closes.1
  have space : ∀ c ∈ w ++ line.2,Text.isSpace c = true := by
    intro c member
    rcases List.mem_append.mp member with inside | behind
    · apply List.all_eq_true.mp closes.2
      rw [← same]
      exact inside
    · exact space_of_ends ended c behind
  rw [whole,← same,List.append_assoc,pieces_append endsLine_dashes (by simp)]
  cases parts : pieces (w ++ line.2) with
  | nil => exact ⟨_,_,rfl,rfl⟩
  | cons p others =>
    refine ⟨_,others,rfl,strip_delimiter fun c member => space c ?_⟩
    rw [← Wikilinks.flatten_splitLines (w ++ line.2),show Patches.splitLines (w ++ line.2) = _ from parts]
    exact List.mem_append_left _ member

theorem blockOf_eq_some {text : Text} {block : Block} (found : blockOf text = some block) :
    (∃ after,cutLines (withoutBom text) =
      block.first :: (block.within ++ block.closing :: after)) ∧
      opensBlock block.first.1 = true ∧ closesBlock block.closing.1 = true := by
  rw [blockOf] at found
  split at found
  · cases found
  · next first rest lines =>
    split at found
    · cases found
    · next opens =>
      split at found
      · cases found
      · next n closes =>
        obtain ⟨closing,there,rfl⟩ := Option.map_eq_some_iff.mp found
        obtain ⟨within,stands,_⟩ := List.findIdx?_eq_some_iff_getElem.mp closes
        obtain ⟨_,same⟩ := List.getElem?_eq_some_iff.mp there
        refine ⟨⟨rest.drop (n + 1),?_⟩,by simpa using opens,same ▸ stands⟩
        rw [lines,← same,← List.drop_eq_getElem_cons within,List.take_append_drop]

end Delimiters

/-- Where the parser finds a block the chunker has to find the same one, and where it finds none,
none. -/
def Agree (text : Text) : Prop :=
  match blockOf text with
  | none => ¬ChunkerBlock text
  | some block =>
    Text.startsWith text "---".toList = true ∧
      (∀ line ∈ block.within,∀ p ∈ pieces (whole line),delimits p = false) ∧
      pieces (whole block.closing) = [whole block.closing]

section Offsets

variable {text : Text}

theorem bodyOffset_pos_iff : 0 < Chunking.bodyOffset text ↔ ChunkerBlock text := by
  rw [Chunking.bodyOffset,ChunkerBlock]
  split
  · next starts =>
    cases parts : Patches.splitLines text with
    | nil => simp [pieces,parts]
    | cons first rest =>
      have least := List.length_pos_of_ne_nil (Chunking.line_ne_nil text first (by simp [parts]))
      dsimp only
      by_cases opens : Text.strip first = "---".toList
      · rw [if_neg (not_not.mpr opens)]
        cases found : rest.findIdx? fun line => Text.strip line = "---".toList with
        | none =>
          have absent := List.findIdx?_eq_none_iff.mp found
          simp only [Nat.lt_irrefl,false_iff]
          rintro ⟨_,first',rest',same,_,p,member,delimiter⟩
          obtain ⟨_,rfl⟩ := List.cons.inj (parts.symm.trans same)
          have missing := absent p member
          rw [delimits] at delimiter
          rw [delimiter] at missing
          cases missing
        | some n =>
          obtain ⟨within,stands,_⟩ := List.findIdx?_eq_some_iff_getElem.mp found
          constructor
          · intro _
            exact ⟨starts,first,rest,parts,decide_eq_true opens,_,List.getElem_mem within,stands⟩
          · intro _
            dsimp only
            omega
      · rw [if_pos opens]
        simp only [Nat.lt_irrefl,false_iff]
        rintro ⟨_,first',rest',same,delimiter,_⟩
        obtain ⟨rfl,_⟩ := List.cons.inj (parts.symm.trans same)
        exact opens (of_decide_eq_true delimiter)
  · next other =>
    simp only [Nat.lt_irrefl,false_iff]
    exact fun both => other both.1

theorem bodyOffset_eq {first : Text} {rest : List Text}
    (starts : Text.startsWith text "---".toList = true) (parts : pieces text = first :: rest)
    (opens : delimits first = true) {n : Nat} (found : rest.findIdx? delimits = some n) :
    Chunking.bodyOffset text = first.length + (rest.take (n + 1)).flatten.length := by
  have found' : (rest.findIdx? fun line => Text.strip line = "---".toList) = some n := found
  rw [Chunking.bodyOffset,if_pos starts,show Patches.splitLines text = _ from parts]
  dsimp only
  rw [if_neg (not_not.mpr (of_decide_eq_true opens)),found']

theorem flatten_pieces (lines : List (Text × Text)) :
    (lines.flatMap fun line => pieces (whole line)).flatten = wholes lines := by
  induction lines with
  | nil => rfl
  | cons line rest ih =>
    rw [List.flatMap_cons,List.flatten_append,ih,pieces,Wikilinks.flatten_splitLines]
    rfl

/-- Where the text starts with the delimiter there is no byte-order mark, and the first line of
the block starts with it too. -/
theorem starts_block {block : Block} (found : blockOf text = some block)
    (starts : Text.startsWith text "---".toList = true) :
    withoutBom text = text ∧ block.first.1.head? = some '-' := by
  obtain ⟨tail,same⟩ := List.isPrefixOf_iff_prefix.mp starts
  have unmarked : withoutBom text = text := by
    rw [withoutBom,if_neg]
    rw [← same]
    exact fun marked => absurd (Option.some.inj marked) (by decide)
  refine ⟨unmarked,?_⟩
  obtain ⟨⟨after,lines⟩,opens,_⟩ := blockOf_eq_some found
  have all := wholes_cutLines (withoutBom text)
  rw [lines,unmarked,wholes,List.flatMap_cons,whole] at all
  cases line : block.first.1 with
  | nil =>
    rw [line] at opens
    exact absurd opens (by decide)
  | cons c rest =>
    rw [line,← same] at all
    exact congrArg some (List.cons.inj all).1

theorem bodyOffset_block_iff {block : Block} (found : blockOf text = some block)
    (starts : Text.startsWith text "---".toList = true) :
    Chunking.bodyOffset text = stripOffset text ↔
      (∀ line ∈ block.within,∀ p ∈ pieces (whole line),delimits p = false) ∧
        pieces (whole block.closing) = [whole block.closing] := by
  obtain ⟨unmarked,head⟩ := starts_block found starts
  obtain ⟨⟨after,lines⟩,opens,closes⟩ := blockOf_eq_some found
  rw [unmarked] at lines
  have ended := ended_cutLines text
  rw [lines] at ended
  obtain ⟨single,delimiter⟩ := pieces_first opens head (ended block.first (by simp))
  obtain ⟨p,others,closing,delimiter'⟩ := pieces_closing closes (ended block.closing (by simp))
  have parts : pieces text = whole block.first ::
      ((block.within.flatMap fun line => pieces (whole line)) ++
        p :: (others ++ after.flatMap fun line => pieces (whole line))) := by
    rw [pieces_cutLines,lines,List.flatMap_cons,List.flatMap_append,List.flatMap_cons,single,
      closing]
    rfl
  have stripped : stripOffset text = (whole block.first).length +
      (wholes block.within).length + (whole block.closing).length := by
    rw [stripOffset,found,unmarked]
    simp [wholes,Nat.add_assoc]
  have closed : whole block.closing = p ++ others.flatten := by
    rw [← Wikilinks.flatten_splitLines (whole block.closing),
      show Patches.splitLines (whole block.closing) = _ from closing]
    rfl
  have some' (q : Text) (member : q ∈ p :: others) : q ≠ [] := piece_ne_nil (closing ▸ member)
  have least : 0 < p.length := List.length_pos_of_ne_nil (some' p (by simp))
  cases early : (block.within.flatMap fun line => pieces (whole line)).findIdx? delimits with
  | some n =>
    have offset := bodyOffset_eq (n := n) starts parts delimiter (by
      rw [List.findIdx?_append,early]
      rfl)
    obtain ⟨inside,stands,_⟩ := List.findIdx?_eq_some_iff_getElem.mp early
    have shorter : ((block.within.flatMap fun line => pieces (whole line)).take (n + 1)).flatten.length ≤
        (wholes block.within).length := by
      rw [← flatten_pieces]
      conv_rhs => rw [← List.take_append_drop (n + 1) (block.within.flatMap _)]
      rw [List.flatten_append,List.length_append]
      exact Nat.le_add_right _ _
    rw [List.take_append_of_le_length (by omega)] at offset
    constructor
    · intro same
      rw [offset,stripped,closed,List.length_append] at same
      omega
    · rintro ⟨clean,_⟩
      obtain ⟨line,member,there⟩ := List.mem_flatMap.mp (List.getElem_mem inside)
      rw [clean line member _ there] at stands
      cases stands
  | none =>
    have clean : ∀ line ∈ block.within,∀ p ∈ pieces (whole line),delimits p = false := by
      intro line member q there
      exact List.findIdx?_eq_none_iff.mp early q (List.mem_flatMap.mpr ⟨line,member,there⟩)
    have offset := bodyOffset_eq
      (n := (block.within.flatMap fun line => pieces (whole line)).length) starts parts delimiter
      (by
        rw [List.findIdx?_append,early,List.findIdx?_cons,delimiter']
        simp)
    rw [List.take_length_add_append,List.take_succ_cons,List.take_zero,List.flatten_append,
      List.length_append,flatten_pieces,List.flatten_singleton] at offset
    have total : (whole block.closing).length = p.length + others.flatten.length := by
      rw [closed,List.length_append]
    rw [offset,stripped,total,closing]
    constructor
    · intro same
      have none' : others.flatten = [] := List.eq_nil_of_length_eq_zero (by omega)
      have last : others = [] := by
        cases others with
        | nil => rfl
        | cons q rest =>
          exact absurd (List.append_eq_nil_iff.mp none').1 (some' q (by simp))
      exact ⟨clean,by simp [closed,last]⟩
    · rintro ⟨_,only⟩
      obtain ⟨_,last⟩ := List.cons.inj only
      simp [last,Nat.add_assoc]

/-- The chunker starts the body where `strip_frontmatter` does if and only if the delimiters
agree. -/
theorem bodyOffset_eq_stripOffset_iff (text : Text) :
    Chunking.bodyOffset text = stripOffset text ↔ Agree text := by
  rw [Agree]
  cases found : blockOf text with
  | none =>
    have stripped : stripOffset text = 0 := by rw [stripOffset,found]
    rw [stripped,← bodyOffset_pos_iff]
    omega
  | some block =>
    dsimp only
    by_cases starts : Text.startsWith text "---".toList = true
    · rw [bodyOffset_block_iff found starts]
      simp only [starts,true_and]
    · have zero : Chunking.bodyOffset text = 0 := by rw [Chunking.bodyOffset,if_neg starts]
      have positive : 0 < stripOffset text := by
        obtain ⟨_,opens,_⟩ := blockOf_eq_some found
        have some' : block.first.1 ≠ [] := by
          intro empty
          rw [empty] at opens
          exact absurd opens (by decide)
        have least := List.length_pos_of_ne_nil some'
        rw [stripOffset,found]
        simp only [wholes,whole,List.cons_append,List.flatMap_cons,List.length_append]
        omega
      constructor
      · intro same
        omega
      · exact fun agree => absurd agree.1 starts

/-- A blank that indents the opening delimiter is enough to tell them apart. -/
theorem bodyOffset_ne_stripOffset :
    ¬ ∀ text,Chunking.bodyOffset text = stripOffset text := by
  intro always
  have here := always " ---\na: b\n---\nc".toList
  revert here
  decide

end Offsets

end LocalBook.Rag.Body
