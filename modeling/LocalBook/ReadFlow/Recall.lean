import LocalBook.Words
import LocalBook.Text

/-! Searching for CJK text. Index and query space out neighbouring CJK characters, and the
tokenizer takes the longest runs of alphanumerics, so a CJK character runs on into a Latin letter
or a digit that touches it. -/
namespace LocalBook.ReadFlow

structure Character where
  first : Char
  rest : List Char
deriving DecidableEq

namespace Character

def scalars (c : Character) : List Char := c.first :: c.rest

/-- Han ideographs, kana and Hangul syllables, by the first scalar. -/
def isCJK (c : Character) : Bool :=
  let v := c.first.toNat
  (0x3400 ≤ v && v ≤ 0x4DBF) || (0x4E00 ≤ v && v ≤ 0x9FFF) || (0xF900 ≤ v && v ≤ 0xFAFF) ||
    (0x20000 ≤ v && v ≤ 0x2A6DF) || (0x2A700 ≤ v && v ≤ 0x2EBEF) ||
    (0x3040 ≤ v && v ≤ 0x30FF) || (0xAC00 ≤ v && v ≤ 0xD7AF)

end Character

/-- The loop of `cjkIndexTransform`, with what it has written and whether a space is due. -/
def transformLoop : List Character → List Char → Bool → List Char
  | [], out, _ => out
  | c :: rest, out, pendingSpace =>
    if c.isCJK then
      let out := if pendingSpace && !out.isEmpty then out ++ [' '] else out
      transformLoop rest (out ++ c.scalars) true
    else transformLoop rest (out ++ c.scalars) false

def cjkIndexTransform (text : List Character) : List Char :=
  if text.isEmpty then text.flatMap Character.scalars else transformLoop text [] false

/-- `CharacterSet.whitespacesAndNewlines`. -/
def isWhitespaceOrNewline (c : Char) : Bool :=
  let v := c.toNat
  (9 ≤ v && v ≤ 13) || v == 0x20 || v == 0x85 || v == 0xA0 || v == 0x1680 ||
    (0x2000 ≤ v && v ≤ 0x200A) || v == 0x2028 || v == 0x2029 || v == 0x202F || v == 0x205F ||
    v == 0x3000

section Search

variable (alphanumeric : Char → Bool)

/-- What `unicode61` makes of a text, before it folds the tokens. -/
def tokens (text : List Char) : List (List Char) := words alphanumeric text

/-- `ftsPattern(for:)`, as the tokens of its phrase. -/
def ftsPattern (query : List Character) : Option (List (List Char)) :=
  let segmented := cjkIndexTransform query
  if (Text.stripBy isWhitespaceOrNewline segmented).isEmpty then none
  else some (tokens alphanumeric segmented)

/-- The phrase of the query stands among the tokens of the index. -/
def Found (text query : List Character) : Prop :=
  ∃ phrase,ftsPattern alphanumeric query = some phrase ∧
    phrase <:+: tokens alphanumeric (cjkIndexTransform text)

/-- The scalars of a text, with a mark between two neighbouring CJK characters. -/
def marked : List Character → List (Option Char)
  | [] => []
  | [c] => c.scalars.map some
  | c :: next :: rest =>
    c.scalars.map some ++ (if c.isCJK && next.isCJK then [none] else []) ++ marked (next :: rest)

def inWord (entry : Option Char) : Bool := entry.elim false alphanumeric

/-- The words of the characters of a query. -/
def letters (query : List Character) : List (List Char) :=
  query.flatMap fun c => words alphanumeric c.scalars

/-- The words of a query stand in a text with marks or other scalars that are not alphanumeric
between them, and no alphanumeric scalar before the first or behind the last. -/
def Stands (text query : List Character) : Prop :=
  letters alphanumeric query = [] ∨ ∃ pre mid post,marked text = pre ++ mid ++ post ∧
    Spelt (inWord alphanumeric) ((letters alphanumeric query).map (List.map some)) mid ∧
    EndsOuter (inWord alphanumeric) pre ∧ StartsOuter (inWord alphanumeric) post

end Search

section Transform

/-- A mark becomes a space. -/
def written (entry : Option Char) : Char := entry.getD ' '

theorem marked_cons (c : Character) (rest : List Character) : marked (c :: rest) =
    c.scalars.map some ++ (if c.isCJK && rest.head?.any Character.isCJK then [none] else []) ++
      marked rest := by
  cases rest with
  | nil => simp [marked]
  | cons next rest => simp [marked]

theorem map_written_some (s : List Char) : (s.map some).map written = s := by
  rw [List.map_map]
  exact List.map_id s

theorem transformLoop_eq (text : List Character) (out : List Char) (pendingSpace : Bool)
    (begun : pendingSpace = true → out ≠ []) :
    transformLoop text out pendingSpace = out ++
      (if pendingSpace && (text.head?.any Character.isCJK) then [' '] else []) ++
      (marked text).map written := by
  induction text generalizing out pendingSpace with
  | nil => simp [transformLoop,marked]
  | cons c rest ih =>
    rw [transformLoop,marked_cons,List.map_append,List.map_append,map_written_some]
    cases cjk : c.isCJK with
    | false => simp [ih,cjk]
    | true =>
      have spaced : (if pendingSpace && !out.isEmpty then out ++ [' '] else out) =
          out ++ (if pendingSpace then [' '] else []) := by
        cases pendingSpace with
        | false => simp
        | true => simp [begun rfl]
      have mark : (if rest.head?.any Character.isCJK then [(none : Option Char)] else []).map
          written = if rest.head?.any Character.isCJK then [' '] else [] := by
        split <;> rfl
      simp only [if_true,spaced,Bool.true_and,List.head?_cons,Option.any_some,cjk,Bool.and_true]
      rw [ih _ _ (by simp [Character.scalars]),mark]
      simp

theorem cjkIndexTransform_eq (text : List Character) :
    cjkIndexTransform text = (marked text).map written := by
  rw [cjkIndexTransform]
  cases text with
  | nil => rfl
  | cons c rest =>
    rw [transformLoop_eq _ _ _ (by simp)]
    simp

variable {alphanumeric : Char → Bool} (blank : alphanumeric ' ' = false)

include blank

theorem inWord_eq (entry : Option Char) :
    inWord alphanumeric entry = alphanumeric (written entry) := by
  cases entry with
  | none => exact blank.symm
  | some c => rfl

theorem tokens_transform (text : List Character) :
    (tokens alphanumeric (cjkIndexTransform text)).map (List.map some) =
      words (inWord alphanumeric) (marked text) := by
  have same : (fun entry => alphanumeric (written entry)) = inWord alphanumeric :=
    funext fun entry => (inWord_eq blank entry).symm
  have kept : ∀ w ∈ words (inWord alphanumeric) (marked text),
      (w.map written).map some = w := by
    intro w member
    rw [List.map_map]
    refine (List.map_congr_left fun entry found => ?_).trans (List.map_id w)
    have isInner := (isWord_of_mem member).inner entry found
    cases entry with
    | none => cases isInner
    | some c => rfl
  rw [tokens,cjkIndexTransform_eq,words_map,same,List.map_map]
  exact (List.map_congr_left kept).trans (List.map_id _)

end Transform

section Query

variable {alphanumeric : Char → Bool} {text query : List Character}

theorem words_scalars (c : Character) : words (inWord alphanumeric) (c.scalars.map some) =
    (words alphanumeric c.scalars).map (List.map some) :=
  words_map (inWord alphanumeric) some c.scalars

theorem words_marked (run : ∀ c ∈ query,c.isCJK = true) :
    words (inWord alphanumeric) (marked query) =
      (letters alphanumeric query).map (List.map some) := by
  induction query with
  | nil => simp [marked,letters]
  | cons c rest ih =>
    have later := ih fun d found => run d (List.mem_cons_of_mem _ found)
    rw [letters,List.flatMap_cons,List.map_append,← words_scalars,marked_cons,run c (by simp)]
    cases rest with
    | nil => simp [marked]
    | cons next others =>
      rw [List.head?_cons,Option.any_some,run next (by simp)]
      simp only [Bool.and_self,if_true]
      rw [List.append_assoc,List.singleton_append,words_append_outer rfl,later]
      rfl

theorem stripBy_eq_nil {drop : Char → Bool} {t : Text} (empty : Text.stripBy drop t = []) :
    ∀ c ∈ t,drop c = true := by
  rw [Text.stripBy,Text.rstripBy,List.reverse_eq_nil_iff,List.dropWhile_eq_nil_iff] at empty
  have nothing : Text.lstripBy drop t = [] := by
    cases left : Text.lstripBy drop t with
    | nil => rfl
    | cons c rest =>
      have first := List.head?_dropWhile_not drop t
      have there := empty c (by simp [left])
      rw [Text.lstripBy] at left
      simp [left,there] at first
  exact List.dropWhile_eq_nil_iff.mp nothing

theorem cjk_not_whitespace {c : Character} (cjk : c.isCJK = true) :
    isWhitespaceOrNewline c.first = false := by
  simp only [Character.isCJK,Bool.or_eq_true,Bool.and_eq_true,decide_eq_true_eq] at cjk
  simp only [isWhitespaceOrNewline,Bool.or_eq_false_iff,Bool.and_eq_false_iff,
    decide_eq_false_iff_not,beq_eq_false_iff_ne]
  omega

theorem ftsPattern_run (alphanumeric : Char → Bool) (some' : query ≠ [])
    (run : ∀ c ∈ query,c.isCJK = true) :
    ftsPattern alphanumeric query = some (tokens alphanumeric (cjkIndexTransform query)) := by
  rw [ftsPattern,if_neg]
  intro empty
  obtain ⟨c,rest,rfl⟩ := List.exists_cons_of_ne_nil some'
  have blank := stripBy_eq_nil (List.isEmpty_iff.mp empty) c.first (by
    simp [cjkIndexTransform_eq,marked_cons,Character.scalars,written])
  simp [cjk_not_whitespace (run c (by simp))] at blank

theorem found_words (blank : alphanumeric ' ' = false) (some' : query ≠ [])
    (run : ∀ c ∈ query,c.isCJK = true) : Found alphanumeric text query ↔
      words (inWord alphanumeric) (marked query) <:+:
        words (inWord alphanumeric) (marked text) := by
  have pattern := ftsPattern_run alphanumeric some' run
  have injective : Function.Injective (List.map (some : Char → Option Char)) :=
    List.map_injective_iff.mpr (Option.some_injective _)
  rw [← tokens_transform blank,← tokens_transform blank]
  constructor
  · rintro ⟨phrase,same,stands⟩
    rw [pattern] at same
    obtain rfl := Option.some.inj same
    exact stands.map _
  · intro stands
    obtain ⟨phrase,inside,same⟩ := List.infix_map_iff.mp stands
    refine ⟨_,pattern,?_⟩
    rwa [List.map_injective_iff.mpr injective same]

/-- A run of CJK characters is found in a text exactly when its words stand in it with nothing
alphanumeric between them or next to them, other than across two neighbouring CJK characters. -/
theorem found_iff (blank : alphanumeric ' ' = false) (some' : query ≠ [])
    (run : ∀ c ∈ query,c.isCJK = true) :
    Found alphanumeric text query ↔ Stands alphanumeric text query := by
  rw [found_words blank some' run,words_marked run,Stands]
  by_cases mute : letters alphanumeric query = []
  · simp [mute]
  · rw [words_infix_iff (by simpa using mute)]
    simp [mute]

section Example

def letterOrDigit (c : Char) : Bool := c.isAlphanum || 0x3400 ≤ c.toNat

def zhong : Character := ⟨Char.ofNat 0x4E2D,[]⟩

/-- A character that stands alone is found. -/
theorem lone_found : Found letterOrDigit [zhong] [zhong] := by
  apply (found_iff (by decide) (by decide) (by decide)).mpr
  refine .inr ⟨[],[some (Char.ofNat 0x4E2D)],[],rfl,.last ⟨by decide,by decide⟩,?_,?_⟩
  · exact fun _ impossible => by cases impossible
  · exact fun _ impossible => by cases impossible

/-- A Latin letter in front of it hides it. -/
theorem mixed_lost : ¬∀ text query : List Character,query ≠ [] → (∀ c ∈ query,c.isCJK = true) →
    query <:+: text → Found letterOrDigit text query := by
  intro every
  obtain ⟨phrase,same,inside⟩ := every [⟨'a',[]⟩,zhong] [zhong] (by decide) (by decide) (by decide)
  have pattern : ftsPattern letterOrDigit [zhong] = some [[Char.ofNat 0x4E2D]] := by decide +kernel
  rw [pattern] at same
  obtain rfl := Option.some.inj same
  revert inside
  decide +kernel

end Example

end Query

end LocalBook.ReadFlow
