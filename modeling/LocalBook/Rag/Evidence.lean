import LocalBook.Dict
import LocalBook.Rag.Fusing
import LocalBook.Runs

/-! The evidence of an answer: ranked results without repetitions, adjacent chunks of a document
merged into blocks, and the blocks back in the order of their best chunks. -/
namespace LocalBook.Rag.Context

structure Retrieved extends RetrievalResult where
  heading : Option Text := none
  headingPath : Option Text := none
  content : Text
  score : ℚ := 0
  startLine : Int := 1
  endLine : Int := 1
  tags : List Text := []
  contentHash : Text := []
  documentLevel : Bool := false

/-- `ContextBudget`. -/
structure ContextBudget where
  maxChunks : Int := 6
  maxTokens : Int := 4000
  maxTokensPerDocument : Int := 1800
  mergeAdjacent : Bool := true
  mergeGapLines : Int := 5

structure EvidenceCandidate where
  path : Text
  heading : Option Text
  headingPath : Option Text
  content : Text
  startLine : Int
  endLine : Int
  chunkIds : List Text
  contentHashes : List Text
  score : ℚ
  tags : List Text

namespace EvidenceCandidate

def chunkId (candidate : EvidenceCandidate) : Text := candidate.chunkIds.head?.getD []

def contentHash (candidate : EvidenceCandidate) : Text := candidate.contentHashes.head?.getD []

end EvidenceCandidate

/-- `[text] if text else []`. -/
def listOf (text : Text) : List Text := if text = [] then [] else [text]

def candidateOf (item : Retrieved) : EvidenceCandidate where
  path := item.path
  heading := item.heading
  headingPath := item.headingPath
  content := item.content
  startLine := item.startLine
  endLine := item.endLine
  chunkIds := listOf item.chunkId
  contentHashes := listOf item.contentHash
  score := item.score
  tags := item.tags

/-- `left or right` of two headings. -/
def eitherText (left right : Option Text) : Option Text :=
  if left = none ∨ left = some [] then right else left

/-- `content`, with a line break behind it if it does not end in one. -/
def lineBroken (content : Text) : Text :=
  if Text.endsWith content ['\n'] then content else content ++ ['\n']

/-- `_join`. -/
def join (left right : EvidenceCandidate) : EvidenceCandidate where
  path := left.path
  heading := eitherText left.heading right.heading
  headingPath := eitherText left.headingPath right.headingPath
  content := lineBroken left.content ++ right.content
  startLine := min left.startLine right.startLine
  endLine := max left.endLine right.endLine
  chunkIds := left.chunkIds ++ right.chunkIds
  contentHashes := left.contentHashes ++ right.contentHashes
  score := max left.score right.score
  tags := if left.tags = [] then right.tags else left.tags

abbrev Ranked := Retrieved × Nat

/-- What `_accumulate` keeps in its first loop. A candidate is found back by the result it was
made of. -/
structure Accumulation where
  ordered : List Retrieved := []
  seenChunks : List Text := []
  seenText : List Text := []
  byDocument : Dict Text (List Ranked) := []

/-- `(item.content_hash or item.content).strip()`. -/
def textKey (item : Retrieved) : Text :=
  Text.strip (if item.contentHash = [] then item.content else item.contentHash)

namespace Accumulation

def Repeats (state : Accumulation) (item : Retrieved) : Prop :=
  item.chunkId ≠ [] ∧ item.chunkId ∈ state.seenChunks ∨
    textKey item ≠ [] ∧ textKey item ∈ state.seenText

instance (state : Accumulation) (item : Retrieved) : Decidable (state.Repeats item) :=
  inferInstanceAs (Decidable (_ ∨ _))

def keep (state : Accumulation) (item : Retrieved) : Accumulation where
  ordered := state.ordered ++ [item]
  seenChunks := state.seenChunks ++ listOf item.chunkId
  seenText := state.seenText ++ listOf (textKey item)
  byDocument := state.byDocument.set item.path
    ((state.byDocument.find item.path).getD [] ++ [(item,state.ordered.length)])

/-- One round of the first loop. -/
def add (state : Accumulation) (item : Retrieved) : Accumulation :=
  if state.Repeats item then state else state.keep item

end Accumulation

def collect (results : List Retrieved) : Accumulation := results.foldl Accumulation.add {}

/-- A block with its entry in `position`: a joined block is a new object, which has none. -/
abbrev Placed := EvidenceCandidate × Option Nat

/-- `(item.start_line, item.end_line)`, compared. -/
def inLineOrder (a b : Ranked) : Prop :=
  a.1.startLine < b.1.startLine ∨ a.1.startLine = b.1.startLine ∧ a.1.endLine ≤ b.1.endLine

instance : DecidableRel inLineOrder := fun _ _ => inferInstanceAs (Decidable (_ ∨ _))

def placed (item : Ranked) : Placed := (candidateOf item.1,some item.2)

def joins (gap : Int) (current : Placed) (item : Ranked) : Bool :=
  item.1.startLine - current.1.endLine ≤ gap

def joined (current : Placed) (item : Ranked) : Placed := (join current.1 (candidateOf item.1),none)

def mergeGroup (gap : Int) (group : List Ranked) : List Placed :=
  runs placed (joins gap) joined (group.insertionSort inLineOrder)

/-- `_merged_position`. -/
def mergedPosition (merged : EvidenceCandidate) (ordered : List Retrieved) : Nat :=
  let positions := (ordered.zipIdx.filter fun item =>
    (candidateOf item.1).chunkIds.any (· ∈ merged.chunkIds)).map Prod.snd
  positions.min?.getD ordered.length

def position (ordered : List Retrieved) (block : Placed) : Nat :=
  block.2.getD (mergedPosition block.1 ordered)

/-- `_accumulate`. -/
def accumulate (budget : ContextBudget) (results : List Retrieved) : List EvidenceCandidate :=
  let state := collect results
  if budget.mergeAdjacent then
    let merged := state.byDocument.flatMap fun entry => mergeGroup budget.mergeGapLines entry.2
    (merged.insertionSort fun a b => position state.ordered a ≤ position state.ordered b).map
      Prod.fst
  else state.ordered.map candidateOf

/-! ### The first loop -/

structure Sound (state : Accumulation) : Prop where
  grouped : (state.byDocument.flatMap Prod.snd).Perm state.ordered.zipIdx
  paths : ∀ entry ∈ state.byDocument,∀ m ∈ entry.2,m.1.path = entry.1
  names : (state.byDocument.map Prod.fst).Nodup
  seen : ∀ item ∈ state.ordered,item.chunkId ≠ [] → item.chunkId ∈ state.seenChunks
  distinct : state.ordered.Pairwise fun a b => a.chunkId ≠ [] → a.chunkId ≠ b.chunkId

theorem grouped_set (d : Dict Text (List Ranked)) (path : Text) (m : Ranked) :
    ((d.set path ((d.find path).getD [] ++ [m])).flatMap Prod.snd).Perm
      (d.flatMap Prod.snd ++ [m]) := by
  induction d with
  | nil => simp [Dict.set]
  | cons entry rest ih =>
    rw [Dict.find_cons]
    by_cases same : entry.1 = path
    · simp only [Dict.set,same,if_true,Option.getD_some,List.flatMap_cons,List.append_assoc]
      exact (List.perm_append_comm).append_left _
    · have other : path ≠ entry.1 := fun equal => same equal.symm
      simp only [Dict.set,same,other,if_false,List.flatMap_cons,List.append_assoc]
      exact ih.append_left _

theorem sound_start : Sound {} where
  grouped := by simp
  paths := by simp
  names := by simp
  seen := by simp
  distinct := by simp

theorem Sound.keep {state : Accumulation} {item : Retrieved} (sound : Sound state)
    (fresh : ¬state.Repeats item) : Sound (state.keep item) where
  grouped := by
    have appended := grouped_set state.byDocument item.path (item,state.ordered.length)
    have both := appended.trans (sound.grouped.append_right [(item,state.ordered.length)])
    simpa [Accumulation.keep,List.zipIdx_append] using both
  paths := by
    intro entry member m inside
    rcases Dict.mem_set member with rfl | earlier
    · rcases List.mem_append.mp inside with old | new
      · cases found : state.byDocument.find item.path with
        | none => simp [found] at old
        | some group =>
          rw [found] at old
          exact sound.paths _ (Dict.mem_of_find found) m old
      · rw [List.mem_singleton.mp new]
    · exact sound.paths entry earlier m inside
  names := Dict.nodup_names_set sound.names _ _
  seen := by
    intro other member some_
    rcases List.mem_append.mp member with old | new
    · exact List.mem_append_left _ (sound.seen other old some_)
    · obtain rfl := List.mem_singleton.mp new
      exact List.mem_append_right _ (by simp [listOf,some_])
  distinct := by
    refine List.pairwise_append.mpr ⟨sound.distinct,List.pairwise_singleton _ _,?_⟩
    intro earlier member later new some_ same
    obtain rfl := List.mem_singleton.mp new
    exact fresh (.inl ⟨same ▸ some_,same ▸ sound.seen earlier member some_⟩)

theorem sound_foldl {state : Accumulation} (sound : Sound state) (results : List Retrieved) :
    Sound (results.foldl Accumulation.add state) := by
  induction results generalizing state with
  | nil => exact sound
  | cons item rest ih =>
    apply ih
    unfold Accumulation.add
    split
    · exact sound
    · next fresh => exact sound.keep fresh

theorem sound_collect (results : List Retrieved) : Sound (collect results) :=
  sound_foldl sound_start results

end LocalBook.Rag.Context
