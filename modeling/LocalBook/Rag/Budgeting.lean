import LocalBook.Decimal
import LocalBook.Rag.Chunking
import LocalBook.Rag.Provenance

/-! The budget of an evidence pack. The blocks are taken in their order while they fit: into the
number of sources, into the tokens of all of them and into the tokens of each document. -/
namespace LocalBook.Rag.Context

open Chunking (estimateTokens)

structure SourceEvidence where
  sourceId : Text
  path : Text
  heading : Option Text
  headingPath : Option Text
  startLine : Int
  endLine : Int
  content : Text
  contentHash : Text
  chunkId : Text

structure EvidencePack where
  query : Text
  sources : List SourceEvidence
  contextTokens : Int
  candidateCount : Nat
  truncated : Bool

def tokensOf (candidate : EvidenceCandidate) : Int := estimateTokens candidate.content

/-- `int(given) if given else limit`. -/
def limitOf (given : Option Int) (limit : Int) : Int :=
  match given with
  | some n => if n = 0 then limit else n
  | none => limit

/-- What `build` counts while it takes blocks. -/
structure Selection where
  selected : List EvidenceCandidate := []
  perDocument : Dict Text Int := []
  usedTokens : Int := 0
  truncated : Bool := false

namespace Selection

def spent (s : Selection) (path : Text) : Int := (s.perDocument.find path).getD 0

def truncate (s : Selection) : Selection := {s with truncated := true}

/-- The block is taken, and its document has spent `share`. -/
def take (s : Selection) (candidate : EvidenceCandidate) (share : Int) : Selection :=
  {s with
    selected := s.selected ++ [candidate]
    perDocument := s.perDocument.set candidate.path share
    usedTokens := s.usedTokens + tokensOf candidate}

end Selection

structure Limits where
  chunks : Int
  tokens : Int
  perDocument : Int

/-- The loop of `build`. -/
def select (limits : Limits) : List EvidenceCandidate → Selection → Selection
  | [],s => s
  | candidate :: rest,s =>
    let tokens := tokensOf candidate
    let spent := s.spent candidate.path
    if max 0 limits.chunks ≤ s.selected.length then s.truncate
    else if spent ≠ 0 ∧ limits.perDocument < spent + tokens then
      -- this document already used its share of the budget
      select limits rest s.truncate
    else if limits.tokens < s.usedTokens + tokens ∧ s.selected ≠ [] then s.truncate
    else if spent = 0 ∧ limits.perDocument < tokens then
      -- the first block of a document is always admitted, and the document is then closed
      select limits rest (s.take candidate (limits.perDocument + 1)).truncate
    else select limits rest (s.take candidate (spent + tokens))

def sourceOf (candidate : EvidenceCandidate) (index : Nat) : SourceEvidence where
  sourceId := 'S' :: Decimal.natText index
  path := candidate.path
  heading := candidate.heading
  headingPath := candidate.headingPath
  startLine := candidate.startLine
  endLine := candidate.endLine
  content := candidate.content
  contentHash := candidate.contentHash
  chunkId := candidate.chunkId

def limitsOf (budget : ContextBudget) (maxChunks maxTokens : Option Int) : Limits where
  chunks := limitOf maxChunks budget.maxChunks
  tokens := limitOf maxTokens budget.maxTokens
  perDocument := budget.maxTokensPerDocument

def build (budget : ContextBudget) (query : Text) (results : List Retrieved)
    (candidateCount : Option Nat) (maxChunks maxTokens : Option Int) : EvidencePack :=
  let selection := select (limitsOf budget maxChunks maxTokens) (accumulate budget results) {}
  {query
   sources := (selection.selected.zipIdx 1).map fun entry => sourceOf entry.1 entry.2
   contextTokens := selection.usedTokens
   candidateCount := candidateCount.getD results.length
   truncated := selection.truncated}

/-! ### The loop -/

namespace Selection

def fromDocument (s : Selection) (path : Text) : List EvidenceCandidate :=
  s.selected.filter (·.path = path)

def documentTokens (s : Selection) (path : Text) : Int := ((s.fromDocument path).map tokensOf).sum

def Open (limits : Limits) (s : Selection) (path : Text) : Prop :=
  s.spent path = s.documentTokens path ∧
    (s.fromDocument path = [] ∨ s.documentTokens path ≤ limits.perDocument)

def Closed (limits : Limits) (s : Selection) (path : Text) : Prop :=
  s.spent path = limits.perDocument + 1 ∧
    ((s.fromDocument path).filter fun candidate => 0 < tokensOf candidate).length ≤ 1

structure Fits (limits : Limits) (s : Selection) : Prop where
  count : (s.selected.length : Int) ≤ max 0 limits.chunks
  used : s.usedTokens = (s.selected.map tokensOf).sum
  total : s.usedTokens ≤ limits.tokens ∨ s.selected.length ≤ 1
  documents : limits.perDocument ≠ -1 → ∀ path,s.Open limits path ∨ s.Closed limits path

end Selection

theorem tokensOf_nonneg (candidate : EvidenceCandidate) : 0 ≤ tokensOf candidate := by
  simp [tokensOf]

@[simp] theorem spent_truncate (s : Selection) (path : Text) :
    s.truncate.spent path = s.spent path := rfl

@[simp] theorem fromDocument_truncate (s : Selection) (path : Text) :
    s.truncate.fromDocument path = s.fromDocument path := rfl

@[simp] theorem spent_take (s : Selection) (candidate : EvidenceCandidate) (share : Int)
    (path : Text) : (s.take candidate share).spent path =
      if path = candidate.path then share else s.spent path := by
  simp only [Selection.spent,Selection.take,Dict.find_set]
  split <;> rfl

@[simp] theorem fromDocument_take (s : Selection) (candidate : EvidenceCandidate) (share : Int)
    (path : Text) : (s.take candidate share).fromDocument path =
      if path = candidate.path then s.fromDocument path ++ [candidate]
      else s.fromDocument path := by
  by_cases same : candidate.path = path
  · simp [Selection.fromDocument,Selection.take,same]
  · have other : path ≠ candidate.path := fun equal => same equal.symm
    simp [Selection.fromDocument,Selection.take,same,other]

namespace Selection

variable {limits : Limits} {s : Selection}

theorem fits_start (limits : Limits) : Fits limits {} where
  count := by simp
  used := rfl
  total := .inr (Nat.zero_le _)
  documents := fun _ path => .inl ⟨rfl,.inl rfl⟩

theorem Fits.truncate (fits : s.Fits limits) : s.truncate.Fits limits where
  count := fits.count
  used := fits.used
  total := fits.total
  documents := fits.documents

theorem Fits.take {candidate : EvidenceCandidate} {share : Int} (fits : s.Fits limits)
    (room : (s.selected.length : Int) < max 0 limits.chunks)
    (affordable : s.usedTokens + tokensOf candidate ≤ limits.tokens ∨ s.selected = [])
    (document : limits.perDocument ≠ -1 → (s.take candidate share).Open limits candidate.path ∨
      (s.take candidate share).Closed limits candidate.path) :
    (s.take candidate share).Fits limits where
  count := by
    simp only [Selection.take,List.length_append,List.length_singleton]
    omega
  used := by simp [Selection.take,fits.used]
  total := affordable.imp_right fun empty => by simp [Selection.take,empty]
  documents := by
    intro closable path
    by_cases same : path = candidate.path
    · exact same ▸ document closable
    · simpa [Open,Closed,documentTokens,same] using fits.documents closable path

end Selection

theorem sum_tokens_nonneg (candidates : List EvidenceCandidate) :
    0 ≤ (candidates.map tokensOf).sum := by
  apply List.sum_nonneg
  simpa using fun candidate _ => tokensOf_nonneg candidate

theorem no_tokens {candidates : List EvidenceCandidate}
    (none_ : (candidates.map tokensOf).sum = 0) :
    (candidates.filter fun candidate => 0 < tokensOf candidate) = [] := by
  induction candidates with
  | nil => rfl
  | cons candidate rest ih =>
    have here := tokensOf_nonneg candidate
    have behind := sum_tokens_nonneg rest
    rw [List.map_cons,List.sum_cons] at none_
    have zero : ¬0 < tokensOf candidate := by omega
    simpa [List.filter_cons,zero] using ih (by omega)

section Taking

variable {limits : Limits} {s : Selection} {candidate : EvidenceCandidate}

theorem closed_take (fits : s.Fits limits) (closable : limits.perDocument ≠ -1)
    (unspent : s.spent candidate.path = 0) :
    (s.take candidate (limits.perDocument + 1)).Closed limits candidate.path := by
  refine ⟨by simp,?_⟩
  rcases fits.documents closable candidate.path with opened | closed
  · have zero := opened.1
    rw [unspent] at zero
    have earlier := no_tokens zero.symm
    simp only [fromDocument_take,if_true,List.filter_append,earlier,List.nil_append]
    exact List.length_filter_le _ [candidate]
  · have share := closed.1
    omega

theorem open_take (fits : s.Fits limits) (closable : limits.perDocument ≠ -1)
    (small : s.spent candidate.path + tokensOf candidate ≤ limits.perDocument) :
    (s.take candidate (s.spent candidate.path + tokensOf candidate)).Open limits
      candidate.path := by
  have some_ := tokensOf_nonneg candidate
  rcases fits.documents closable candidate.path with opened | closed
  · have total : (s.take candidate (s.spent candidate.path + tokensOf candidate)).documentTokens
        candidate.path = s.spent candidate.path + tokensOf candidate := by
      simp [Selection.documentTokens,opened.1]
    exact ⟨by simp [total],.inr (total ▸ small)⟩
  · have share := closed.1
    omega

end Taking

theorem select_fits (limits : Limits) (candidates : List EvidenceCandidate) {s : Selection}
    (fits : s.Fits limits) : (select limits candidates s).Fits limits := by
  induction candidates generalizing s with
  | nil => exact fits
  | cons candidate rest ih =>
    simp only [select]
    split
    · exact fits.truncate
    · next room =>
      have room : (s.selected.length : Int) < max 0 limits.chunks := not_le.mp room
      split
      · exact ih fits.truncate
      · next unspent =>
        split
        · exact fits.truncate
        · next affordable =>
          have affordable : s.usedTokens + tokensOf candidate ≤ limits.tokens ∨
              s.selected = [] := by
            by_cases empty : s.selected = []
            · exact .inr empty
            · exact .inl (not_lt.mp fun large => affordable ⟨large,empty⟩)
          split
          · next large =>
            exact ih (fits.take room affordable fun closable =>
              .inr (closed_take fits closable large.1)).truncate
          · next small =>
            refine ih (fits.take room affordable fun closable =>
              .inl (open_take fits closable ?_))
            by_cases zero : s.spent candidate.path = 0
            · have bound := not_lt.mp fun large => small ⟨zero,large⟩
              omega
            · exact not_lt.mp fun large => unspent ⟨zero,large⟩

theorem truncated_select (limits : Limits) (candidates : List EvidenceCandidate) {s : Selection}
    (cut : s.truncated = true) : (select limits candidates s).truncated = true := by
  induction candidates generalizing s with
  | nil => exact cut
  | cons candidate rest ih =>
    simp only [select]
    split_ifs
    · rfl
    · exact ih rfl
    · rfl
    · exact ih rfl
    · exact ih cut

theorem truncated_of_truncate (limits : Limits) (candidates : List EvidenceCandidate)
    (s : Selection) : (select limits candidates s.truncate).truncated = true :=
  truncated_select limits candidates rfl

theorem selected_of_untruncated (limits : Limits) (candidates : List EvidenceCandidate)
    {s : Selection} (whole : (select limits candidates s).truncated = false) :
    (select limits candidates s).selected = s.selected ++ candidates := by
  induction candidates generalizing s with
  | nil => simp [select]
  | cons candidate rest ih =>
    simp only [select] at whole ⊢
    split_ifs at whole ⊢
    · simp [Selection.truncate] at whole
    · simp [truncated_of_truncate] at whole
    · simp [Selection.truncate] at whole
    · simp [truncated_of_truncate] at whole
    · rw [ih whole]
      simp [Selection.take]

/-! ### The pack -/

def sourceTokens (source : SourceEvidence) : Int := estimateTokens source.content

namespace EvidencePack

def tokensFrom (pack : EvidencePack) (path : Text) : List Int :=
  (pack.sources.filter (·.path = path)).map sourceTokens

def Shown (pack : EvidencePack) (item : Retrieved) : Prop :=
  ∃ source ∈ pack.sources,∃ block members,Shows block members ∧ (∃ i,(item,i) ∈ members) ∧
    source.path = block.path ∧ source.content = block.content ∧
    source.startLine = block.startLine ∧ source.endLine = block.endLine

end EvidencePack

def Repetition (kept item : Retrieved) : Prop :=
  item.chunkId ≠ [] ∧ kept.chunkId = item.chunkId ∨
    textKey item ≠ [] ∧ textKey kept = textKey item

structure Budgeted (limits : Limits) (results : List Retrieved) (pack : EvidencePack) : Prop where
  counted : pack.contextTokens = (pack.sources.map sourceTokens).sum
  total : limits.tokens < pack.contextTokens → pack.sources.length ≤ 1
  document : limits.perDocument ≠ -1 → ∀ path,limits.perDocument < (pack.tokensFrom path).sum →
    ((pack.tokensFrom path).filter (0 < ·)).length ≤ 1
  count : (pack.sources.length : Int) ≤ max 0 limits.chunks
  whole : pack.truncated = false → ∀ item ∈ results,
    ∃ kept ∈ results,(kept = item ∨ Repetition kept item) ∧ pack.Shown kept

section Building

variable (budget : ContextBudget) (query : Text) (results : List Retrieved)
variable (candidateCount : Option Nat) (maxChunks maxTokens : Option Int)

theorem sources_map {β : Type} (f : SourceEvidence → β) (g : EvidenceCandidate → β)
    (same : ∀ candidate index,f (sourceOf candidate index) = g candidate)
    (selected : List EvidenceCandidate) (first : Nat) :
    ((selected.zipIdx first).map fun entry => sourceOf entry.1 entry.2).map f =
      selected.map g := by
  induction selected generalizing first with
  | nil => rfl
  | cons candidate rest ih => simpa [same] using ih (first + 1)

@[simp] theorem sourceOf_path (candidate : EvidenceCandidate) (index : Nat) :
    (sourceOf candidate index).path = candidate.path := rfl

@[simp] theorem sourceTokens_sourceOf (candidate : EvidenceCandidate) (index : Nat) :
    sourceTokens (sourceOf candidate index) = tokensOf candidate := rfl

theorem sources_filter (path : Text) (selected : List EvidenceCandidate) (first : Nat) :
    ((((selected.zipIdx first).map fun entry => sourceOf entry.1 entry.2).filter
      (·.path = path)).map sourceTokens) =
      (selected.filter (·.path = path)).map tokensOf := by
  induction selected generalizing first with
  | nil => rfl
  | cons candidate rest ih =>
    by_cases same : candidate.path = path <;> simp [same,ih]

structure Traced (state : Accumulation) : Prop where
  chunks : ∀ id ∈ state.seenChunks,∃ kept ∈ state.ordered,kept.chunkId = id
  texts : ∀ key ∈ state.seenText,∃ kept ∈ state.ordered,textKey kept = key

theorem mem_listOf {text other : Text} (member : other ∈ listOf text) : other = text := by
  unfold listOf at member
  split at member
  · cases member
  · exact List.mem_singleton.mp member

theorem Traced.keep {state : Accumulation} (traced : Traced state) (item : Retrieved) :
    Traced (state.keep item) where
  chunks := by
    intro id member
    rcases List.mem_append.mp member with old | new
    · obtain ⟨kept,inside,same⟩ := traced.chunks id old
      exact ⟨kept,List.mem_append_left _ inside,same⟩
    · exact ⟨item,by simp [Accumulation.keep],(mem_listOf new).symm⟩
  texts := by
    intro key member
    rcases List.mem_append.mp member with old | new
    · obtain ⟨kept,inside,same⟩ := traced.texts key old
      exact ⟨kept,List.mem_append_left _ inside,same⟩
    · exact ⟨item,by simp [Accumulation.keep],(mem_listOf new).symm⟩

theorem ordered_foldl (state : Accumulation) (rest : List Retrieved) :
    state.ordered ⊆ (rest.foldl Accumulation.add state).ordered := by
  induction rest generalizing state with
  | nil => exact List.Subset.refl _
  | cons item rest ih =>
    refine List.Subset.trans ?_ (ih (state.add item))
    unfold Accumulation.add
    split
    · exact List.Subset.refl _
    · exact List.subset_append_left _ _

theorem kept_foldl {state : Accumulation} (traced : Traced state) (rest : List Retrieved)
    {item : Retrieved} (member : item ∈ rest) :
    ∃ kept ∈ (rest.foldl Accumulation.add state).ordered,kept = item ∨ Repetition kept item := by
  induction rest generalizing state with
  | nil => cases member
  | cons first rest ih =>
    have onward := ordered_foldl (state.add first) rest
    by_cases repeats : state.Repeats first
    · have same : state.add first = state := if_pos repeats
      rcases List.mem_cons.mp member with rfl | later
      · rw [same] at onward
        rcases repeats with ⟨some_,seen⟩ | ⟨some_,seen⟩
        · obtain ⟨kept,inside,equal⟩ := traced.chunks _ seen
          exact ⟨kept,by simpa [same] using onward inside,.inr (.inl ⟨some_,equal⟩)⟩
        · obtain ⟨kept,inside,equal⟩ := traced.texts _ seen
          exact ⟨kept,by simpa [same] using onward inside,.inr (.inr ⟨some_,equal⟩)⟩
      · simpa [same] using ih traced later
    · have added : state.add first = state.keep first := if_neg repeats
      rcases List.mem_cons.mp member with rfl | later
      · refine ⟨item,onward ?_,.inl rfl⟩
        simp [added,Accumulation.keep]
      · have traced' : Traced (state.add first) := added ▸ traced.keep first
        exact ih traced' later

theorem kept_collect {item : Retrieved} (member : item ∈ results) :
    ∃ kept ∈ retained results,kept = item ∨ Repetition kept item :=
  kept_foldl ⟨by simp,by simp⟩ results member

theorem retained_shown {item : Retrieved} (member : item ∈ retained results) :
    ∃ block ∈ accumulate budget results,∃ members,Shows block members ∧
      ∃ i,(item,i) ∈ members := by
  obtain ⟨i,at_⟩ := List.mem_iff_getElem?.mp member
  have ranked : (item,i) ∈ (retained results).zipIdx := List.mem_zipIdx_iff_getElem?.mpr at_
  obtain ⟨run,there,inside⟩ := List.mem_flatMap.mp
    ((@groups_perm budget results).symm.subset ranked)
  rw [accumulate_eq]
  exact ⟨_,List.mem_map.mpr ⟨run,there,rfl⟩,run.members,group_shows there,i,inside⟩

/-- Every pack is within its limits but for a block that is taken because it is the first, and it
says when something is missing. -/
theorem build_budgeted : Budgeted (limitsOf budget maxChunks maxTokens) results
    (build budget query results candidateCount maxChunks maxTokens) := by
  let limits := limitsOf budget maxChunks maxTokens
  let selection := select limits (accumulate budget results) {}
  have fits : selection.Fits limits := select_fits limits _ (Selection.fits_start limits)
  have length : (build budget query results candidateCount maxChunks maxTokens).sources.length =
      selection.selected.length := by simp [build,selection,limits]
  have tokens : ∀ path,(build budget query results candidateCount maxChunks
      maxTokens).tokensFrom path = (selection.fromDocument path).map tokensOf :=
    fun path => sources_filter path selection.selected 1
  refine ⟨?_,?_,?_,?_,?_⟩
  · have mapped := sources_map sourceTokens tokensOf (fun _ _ => rfl) selection.selected 1
    exact fits.used.trans (congrArg List.sum mapped).symm
  · intro large
    rw [length]
    exact fits.total.resolve_left (not_le.mpr large)
  · intro closable path large
    rw [tokens] at large ⊢
    rcases fits.documents closable path with ⟨_,empty | small⟩ | ⟨_,closed⟩
    · simp [empty]
    · exact absurd large (not_lt.mpr small)
    · simpa [List.filter_map,Function.comp_def] using closed
  · rw [length]
    exact fits.count
  · intro untruncated item member
    have all : selection.selected = accumulate budget results := by
      simpa using selected_of_untruncated limits (accumulate budget results) untruncated
    obtain ⟨kept,there,same⟩ := kept_collect results member
    obtain ⟨block,listed,members,told,inside⟩ := retained_shown budget results there
    rw [← all] at listed
    obtain ⟨i,at_⟩ := List.mem_iff_getElem?.mp listed
    refine ⟨kept,mem_of_retained there,same,sourceOf block (i + 1),?_,block,members,told,inside,
      rfl,rfl,rfl,rfl⟩
    have numbered : (block,i + 1) ∈ selection.selected.zipIdx 1 :=
      List.mk_mem_zipIdx_iff_le_and_getElem?_sub.mpr ⟨by omega,at_⟩
    exact List.mem_map.mpr ⟨_,numbered,rfl⟩

end Building

/-- Two adjacent chunks exceed a budget that each of them meets, and the pack quotes no chunk. -/
theorem twoChunks_exceed : ¬∀ (budget : ContextBudget) (query : Text) (results : List Retrieved),
    let pack := build budget query results none none none
    budget.maxTokens < pack.contextTokens →
      ∃ item ∈ results,pack.sources.map SourceEvidence.content = [item.content] := by
  intro every
  have single := every {maxTokens := 1} [] twoChunks
  revert single
  decide +kernel

end LocalBook.Rag.Context
