import LocalBook.Finding
import LocalBook.Rag.Search

/-! The substring search of the chunk store. Its statement is put together from parts, whose
placeholders are filled from one list of parameters. -/
namespace LocalBook.Rag.Substring

/-- `_gram_coverage_expression`: the parameters, one for each placeholder of the expression. -/
def grams (term : Text) : List Text :=
  if term.length < 2 then [term]
  else (List.range (term.length - 1)).map fun index => (term.drop index).take 2

/-- What `:.4f` makes of a number. -/
def fourDecimals (x : ℚ) : ℚ :=
  let low := ⌊x * 10000⌋
  let rest := x * 10000 - low
  let near := if rest < 1 / 2 then low else if 1 / 2 < rest then low + 1
    else if low % 2 = 0 then low else low + 1
  (near : ℚ) / 10000

def threshold (minCoverage : ℚ) (count : Nat) : ℚ :=
  fourDecimals (count * max 0 (min 1 minCoverage))

/-- `instr(lower(c.content), ?) > 0`; SQLite lowers ASCII letters. -/
def occurs (chunk : Chunk) (parameter : Text) : Bool :=
  (Text.find parameter (chunk.piece.content.map Text.asciiLower)).isSome

/-- A sum of `CASE WHEN instr(…) > 0 THEN 1 ELSE 0 END`. -/
def matched (chunk : Chunk) (parameters : List Text) : Nat :=
  (parameters.filter (occurs chunk)).length

/-- A part of the condition: whether it has a verbatim test, the placeholders of its score, and
the threshold. -/
structure AndPart where
  verbatim : Bool
  count : Nat
  threshold : ℚ

/-- The statement: the placeholders of each part of the score, and the parts of the condition. -/
structure Statement where
  scoreParts : List Nat
  andParts : List AndPart

def Statement.scoreFrom (chunk : Chunk) : List Nat → List Text → Nat × List Text
  | [],parameters => (0,parameters)
  | count :: rest,parameters =>
    let later := scoreFrom chunk rest (parameters.drop count)
    (matched chunk (parameters.take count) + later.1,later.2)

/-- The condition with the first of the parameters. -/
def Statement.meets (chunk : Chunk) : List AndPart → List Text → Bool
  | [],_ => true
  | part :: rest,parameters =>
    let tests := if part.verbatim then 1 else 0
    let given := parameters.drop tests
    ((parameters.take tests).any (occurs chunk) ||
      decide (part.threshold ≤ matched chunk (given.take part.count))) &&
      meets chunk rest (given.drop part.count)

/-- `ORDER BY hits DESC, c.path, c.chunk_index`. -/
def ahead (a b : Chunk × Nat) : Prop :=
  b.2 < a.2 ∨ (a.2 = b.2 ∧ Store.pathOrder a.1 b.1)

instance : DecidableRel ahead := fun _ _ => inferInstanceAs (Decidable (_ ∨ _))

def listed (limit : Int) (rows : List (Chunk × Nat)) : List (Hit ℚ) :=
  (((rows.insertionSort ahead).take (max 1 limit).toNat).zipIdx 1).map fun entry =>
    {chunk := entry.1.1,score := entry.1.2,rank := entry.2}

/-- The rows of the statement with the parameters. -/
def Statement.run (statement : Statement) (chunks : List Chunk) (parameters : List Text)
    (limit : Int) : List (Hit ℚ) :=
  listed limit (chunks.filterMap fun chunk =>
    let score := scoreFrom chunk statement.scoreParts parameters
    if meets chunk statement.andParts score.2 then some (chunk,score.1) else none)

section Search

variable [Host]

def cleaned (terms : List Text) : List Text :=
  (terms.map fun term => Text.strip (Host.casefold term)).filter fun term => term ≠ []

omit [Host] in
/-- `params`. -/
def whereParams (cleaned : List Text) : List Text :=
  cleaned.flatMap fun term => (if 3 ≤ term.length then [term] else []) ++ grams term

omit [Host] in
/-- `score_params`. -/
def scoreParams (cleaned : List Text) : List Text := cleaned.flatMap grams

omit [Host] in
def statementOf (cleaned : List Text) (minCoverage : ℚ) : Statement where
  scoreParts := cleaned.map fun term => (grams term).length
  andParts := cleaned.map fun term =>
    ⟨3 ≤ term.length,(grams term).length,threshold minCoverage (grams term).length⟩

omit [Host] in
def passed (cleaned : List Text) : List Text := whereParams cleaned ++ scoreParams cleaned

omit [Host] in
/-- The parameters in the order of the placeholders they are meant for: the score is selected
before the condition. -/
def meant (cleaned : List Text) : List Text := scoreParams cleaned ++ whereParams cleaned

/-- `substring_chunk_search`. -/
def substringChunkSearch (chunks : List Chunk) (terms : List Text) (limit : Int)
    (minCoverage : ℚ) : List (Hit ℚ) :=
  if cleaned terms = [] then []
  else (statementOf (cleaned terms) minCoverage).run chunks (passed (cleaned terms)) limit

omit [Host] in
/-- `_has_cjk`. -/
def hasCjk (term : Text) : Bool := term.any fun c => '㐀' ≤ c && c ≤ '鿿'

omit [Host] in
/-- A chunk has a term: a long one verbatim, and of a short or a CJK one enough bigrams. -/
structure Has (minCoverage : ℚ) (chunk : Chunk) (term : Text) : Prop where
  verbatim : 3 ≤ term.length → occurs chunk term = true
  covered : term.length < 3 ∨ hasCjk term = true →
    threshold minCoverage (grams term).length ≤ matched chunk (grams term)

omit [Host] in
instance (minCoverage : ℚ) (chunk : Chunk) (term : Text) :
    Decidable (Has minCoverage chunk term) :=
  decidable_of_iff ((3 ≤ term.length → occurs chunk term = true) ∧
    (term.length < 3 ∨ hasCjk term = true →
      threshold minCoverage (grams term).length ≤ matched chunk (grams term)))
    ⟨fun both => ⟨both.1,both.2⟩,fun has => ⟨has.verbatim,has.covered⟩⟩

/-- The search is exact: every placeholder receives the parameter meant for it, and the chunks are
those that have all the terms, by the number of their matched bigrams. -/
structure Exact (chunks : List Chunk) (terms : List Text) (limit : Int) (minCoverage : ℚ) :
    Prop where
  placeholders : passed (cleaned terms) = meant (cleaned terms)
  rows : substringChunkSearch chunks terms limit minCoverage =
    if cleaned terms = [] then []
    else listed limit ((chunks.filter fun chunk =>
      ∀ term ∈ cleaned terms,Has minCoverage chunk term).map fun chunk =>
        (chunk,((cleaned terms).map fun term => matched chunk (grams term)).sum))

end Search

section Parameters

theorem grams_ne_nil (term : Text) : grams term ≠ [] := by
  rw [grams]
  split
  · exact List.cons_ne_nil _ _
  · next long =>
    intro none'
    rw [List.map_eq_nil_iff,List.range_eq_nil] at none'
    omega

theorem length_gram {term gram : Text} (member : gram ∈ grams term) : gram.length ≤ 2 := by
  rw [grams] at member
  split at member
  · next short =>
    rw [List.mem_singleton.mp member]
    omega
  · obtain ⟨index,_,rfl⟩ := List.mem_map.mp member
    exact List.length_take_le _ _

theorem mem_of_commute {α : Type} {s w : List α} (some' : s ≠ []) (same : w ++ s = s ++ w) :
    ∀ x ∈ w,x ∈ s := by
  induction h : w.length using Nat.strong_induction_on generalizing w with
  | _ n ih =>
    intro x member
    rcases Nat.le_total w.length s.length with short | long
    · have front : w <+: s := List.prefix_of_prefix_length_le ⟨s,same⟩ ⟨w,rfl⟩ short
      exact front.subset member
    · have front : s <+: w := List.prefix_of_prefix_length_le ⟨w,rfl⟩ ⟨s,same⟩ long
      obtain ⟨rest,rfl⟩ := front
      rw [List.append_assoc] at same
      have least := List.length_pos_of_ne_nil some'
      rcases List.mem_append.mp member with first | later
      · exact first
      · exact ih rest.length (by rw [← h,List.length_append]; omega)
          (List.append_cancel_left same) rfl x later

theorem whereParams_short {cleaned : List Text} (short : ∀ term ∈ cleaned,term.length < 3) :
    whereParams cleaned = scoreParams cleaned := by
  apply List.flatMap_congr
  intro term member
  have small := short term member
  rw [if_neg (by omega),List.nil_append]

theorem passed_eq_meant_iff (cleaned : List Text) :
    passed cleaned = meant cleaned ↔ ∀ term ∈ cleaned,term.length < 3 := by
  constructor
  · intro same term member
    by_contra long
    have some' : scoreParams cleaned ≠ [] := by
      obtain ⟨gram,there⟩ := List.exists_mem_of_ne_nil _ (grams_ne_nil term)
      exact List.ne_nil_of_mem (List.mem_flatMap.mpr ⟨term,member,there⟩)
    have inWhere : term ∈ whereParams cleaned := by
      apply List.mem_flatMap.mpr
      refine ⟨term,member,?_⟩
      rw [if_pos (by omega)]
      exact List.mem_append_left _ (List.mem_singleton_self _)
    obtain ⟨other,_,gram⟩ := List.mem_flatMap.mp (mem_of_commute some' same term inWhere)
    have short := length_gram gram
    omega
  · intro short
    rw [passed,meant,whereParams_short short]

end Parameters

section Rows

variable {chunk : Chunk} {minCoverage : ℚ}

theorem scoreFrom_grams (cleaned : List Text) (rest : List Text) :
    Statement.scoreFrom chunk (cleaned.map fun term => (grams term).length)
        (scoreParams cleaned ++ rest) =
      ((cleaned.map fun term => matched chunk (grams term)).sum,rest) := by
  induction cleaned with
  | nil => rfl
  | cons term others ih =>
    rw [scoreParams,List.flatMap_cons,List.append_assoc,List.map_cons,Statement.scoreFrom]
    rw [List.drop_left,List.take_left,← scoreParams,ih]
    rfl

theorem meets_grams {cleaned : List Text} (short : ∀ term ∈ cleaned,term.length < 3)
    (rest : List Text) :
    Statement.meets chunk (statementOf cleaned minCoverage).andParts (scoreParams cleaned ++ rest) =
      decide (∀ term ∈ cleaned,Has minCoverage chunk term) := by
  induction cleaned with
  | nil => rfl
  | cons term others ih =>
    have small := short term (by simp)
    have later := ih fun t member => short t (List.mem_cons_of_mem _ member)
    have has : Has minCoverage chunk term ↔
        threshold minCoverage (grams term).length ≤ matched chunk (grams term) :=
      ⟨fun has => has.covered (.inl small),fun covered => ⟨fun long => by omega,fun _ => covered⟩⟩
    simp only [statementOf,List.map_cons] at later ⊢
    rw [scoreParams,List.flatMap_cons,List.append_assoc,Statement.meets.eq_def]
    simp only [decide_eq_true_eq,if_neg (not_le.mpr small),List.take_zero,List.drop_zero,
      List.any_nil,Bool.false_or]
    rw [List.drop_left,List.take_left,← scoreParams,later]
    simp only [List.forall_mem_cons,has,Bool.decide_and]

end Rows

section Exactness

variable [Host]

end Exactness

end LocalBook.Rag.Substring
