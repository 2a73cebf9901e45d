import LocalBook.Rag.Evidence

/-! What the blocks of evidence keep of the retained results: each is in one block, which shows
its text and its lines, and the blocks stand in the order of their best-ranked results. -/
namespace LocalBook.Rag.Context

def joinedContents (contents : List Text) : Text :=
  match contents with
  | [] => []
  | first :: rest => rest.foldl (fun text content => lineBroken text ++ content) first

structure Shows (block : EvidenceCandidate) (members : List Ranked) : Prop where
  some_ : members ≠ []
  paths : ∀ m ∈ members,m.1.path = block.path
  inOrder : members.Pairwise inLineOrder
  content : block.content = joinedContents (members.map fun m => m.1.content)
  startLine : IsLeast {line | ∃ m ∈ members,line = m.1.startLine} block.startLine
  endLine : IsGreatest {line | ∃ m ∈ members,line = m.1.endLine} block.endLine
  chunkIds : block.chunkIds = members.flatMap fun m => listOf m.1.chunkId
  contentHashes : block.contentHashes = members.flatMap fun m => listOf m.1.contentHash

theorem shows_single (m : Ranked) : Shows (candidateOf m.1) [m] where
  some_ := List.cons_ne_nil _ _
  paths := by simp [candidateOf]
  inOrder := List.pairwise_singleton _ _
  content := rfl
  startLine := by simp [candidateOf]
  endLine := by simp [candidateOf]
  chunkIds := by simp [candidateOf]
  contentHashes := by simp [candidateOf]

theorem joinedContents_concat {contents : List Text} (some_ : contents ≠ []) (content : Text) :
    joinedContents (contents ++ [content]) = lineBroken (joinedContents contents) ++ content := by
  cases contents with
  | nil => exact absurd rfl some_
  | cons first rest => simp [joinedContents]

theorem Shows.joined {block : EvidenceCandidate} {members : List Ranked}
    (told : Shows block members) {m : Ranked} (path : m.1.path = block.path)
    (last : ∀ a ∈ members,inLineOrder a m) :
    Shows (join block (candidateOf m.1)) (members ++ [m]) where
  some_ := List.append_ne_nil_of_left_ne_nil told.some_ _
  paths := by
    intro a inside
    rcases List.mem_append.mp inside with old | new
    · exact told.paths a old
    · rw [List.mem_singleton.mp new]
      exact path
  inOrder := List.pairwise_append.mpr
    ⟨told.inOrder,List.pairwise_singleton _ _,by simpa using last⟩
  content := by
    have some_ : members.map (fun a => a.1.content) ≠ [] := by simpa using told.some_
    rw [List.map_append,List.map_singleton,joinedContents_concat some_,← told.content]
    rfl
  startLine := by
    obtain ⟨⟨least,inside,attained⟩,lower⟩ := told.startLine
    constructor
    · rcases min_choice block.startLine m.1.startLine with left | right
      · exact ⟨least,List.mem_append_left _ inside,left.trans attained⟩
      · exact ⟨m,by simp,right⟩
    · rintro line ⟨a,member,rfl⟩
      rcases List.mem_append.mp member with old | new
      · exact (min_le_left _ _).trans (lower ⟨a,old,rfl⟩)
      · rw [List.mem_singleton.mp new]
        exact min_le_right _ _
  endLine := by
    obtain ⟨⟨greatest,inside,attained⟩,upper⟩ := told.endLine
    constructor
    · rcases max_choice block.endLine m.1.endLine with left | right
      · exact ⟨greatest,List.mem_append_left _ inside,left.trans attained⟩
      · exact ⟨m,by simp,right⟩
    · rintro line ⟨a,member,rfl⟩
      rcases List.mem_append.mp member with old | new
      · exact (upper ⟨a,old,rfl⟩).trans (le_max_left _ _)
      · rw [List.mem_singleton.mp new]
        exact le_max_right _ _
  chunkIds := by simp [join,candidateOf,told.chunkIds]
  contentHashes := by simp [join,candidateOf,told.contentHashes]

def blockOf (run : Run Ranked) : Placed := run.made placed joined

theorem shows_foldl {current : Placed} {members : List Ranked} (told : Shows current.1 members)
    (rest : List Ranked) (paths : ∀ m ∈ rest,m.1.path = current.1.path)
    (inOrder : (members ++ rest).Pairwise inLineOrder) :
    Shows (rest.foldl joined current).1 (members ++ rest) := by
  induction rest generalizing current members with
  | nil => simpa using told
  | cons m rest ih =>
    have split : members ++ m :: rest = (members ++ [m]) ++ rest := by simp
    have last : ∀ a ∈ members,inLineOrder a m := fun a inside =>
      (List.pairwise_append.mp inOrder).2.2 a inside m List.mem_cons_self
    rw [split] at inOrder ⊢
    exact ih (told.joined (paths m List.mem_cons_self) last)
      (fun a inside => paths a (List.mem_cons_of_mem _ inside)) inOrder

theorem shows_blockOf (run : Run Ranked) {path : Text} (paths : ∀ m ∈ run.members,m.1.path = path)
    (inOrder : run.members.Pairwise inLineOrder) : Shows (blockOf run).1 run.members := by
  have base : Shows (placed run.first).1 [run.first] := shows_single run.first
  refine shows_foldl base run.rest (fun m inside => ?_) inOrder
  exact (paths m (List.mem_cons_of_mem _ inside)).trans
    (paths run.first List.mem_cons_self).symm

def near (gap : Int) (a b : Ranked) : Prop := b.1.startLine - a.1.endLine ≤ gap

theorem endLine_foldl (current : Placed) (rest : List Ranked) (line : Int) :
    line ≤ (rest.foldl joined current).1.endLine ↔
      line ≤ current.1.endLine ∨ ∃ m ∈ rest,line ≤ m.1.endLine := by
  induction rest generalizing current with
  | nil => simp
  | cons m rest ih =>
    rw [List.foldl_cons,ih]
    simp [joined,join,candidateOf,or_assoc]

theorem joins_near (gap : Int) : JoinsNear placed (joins gap) joined (near gap) := by
  intro run m
  have reached := endLine_foldl (placed run.first) run.rest (m.1.startLine - gap)
  have shifted : joins gap (run.made placed joined) m ↔
      m.1.startLine - gap ≤ (run.rest.foldl joined (placed run.first)).1.endLine := by
    have cut : m.1.startLine - (run.made placed joined).1.endLine ≤ gap ↔
        m.1.startLine - gap ≤ (run.made placed joined).1.endLine := by omega
    exact decide_eq_true_iff.trans cut
  rw [shifted,reached]
  simp only [Run.members,List.mem_cons,exists_eq_or_imp,near,placed,candidateOf]
  constructor
  · rintro (first | ⟨a,inside,close⟩)
    · exact .inl (by omega)
    · exact .inr ⟨a,inside,by omega⟩
  · rintro (first | ⟨a,inside,close⟩)
    · exact .inl (by omega)
    · exact .inr ⟨a,inside,by omega⟩

theorem near_closer (gap : Int) (m a b : Ranked) (close : near gap m b) (before : inLineOrder a b) :
    near gap m a := by
  unfold near inLineOrder at *
  omega

instance : Std.Total inLineOrder where
  total a b := by
    unfold inLineOrder
    omega

instance : IsTrans Ranked inLineOrder where
  trans a b c := by
    unfold inLineOrder
    omega

/-! ### All blocks -/

def retained (results : List Retrieved) : List Retrieved := (collect results).ordered

def runsOf (gap : Int) (group : List Ranked) : List (Run Ranked) :=
  cut placed (joins gap) joined (group.insertionSort inLineOrder)

/-- The runs of retained results behind the blocks, in the order of the blocks. -/
def groups (budget : ContextBudget) (results : List Retrieved) : List (Run Ranked) :=
  let place (run : Run Ranked) := position (retained results) (blockOf run)
  if budget.mergeAdjacent then
    ((collect results).byDocument.flatMap fun entry =>
      runsOf budget.mergeGapLines entry.2).insertionSort fun a b => place a ≤ place b
  else (retained results).zipIdx.map fun m => ⟨m,[]⟩

theorem mergeGroup_eq (gap : Int) (group : List Ranked) :
    mergeGroup gap group = (runsOf gap group).map blockOf :=
  runs_eq placed (joins gap) joined _

theorem accumulate_eq (budget : ContextBudget) (results : List Retrieved) :
    accumulate budget results = (groups budget results).map fun run => (blockOf run).1 := by
  unfold accumulate groups
  split
  · simp only [mergeGroup_eq,← List.map_flatMap]
    rw [← List.map_insertionSort (fun a b => position (retained results) (blockOf a) ≤
      position (retained results) (blockOf b)) _ blockOf _ fun _ _ _ _ => Iff.rfl,List.map_map]
    rfl
  · have same := congrArg (List.map candidateOf) (List.zipIdx_map_fst 0 (retained results))
    rw [List.map_map] at same
    simpa [retained,blockOf,Run.made,placed,Function.comp_def] using same.symm

variable {budget : ContextBudget} {results : List Retrieved}

theorem members_runsOf (gap : Int) (group : List Ranked) :
    ((runsOf gap group).flatMap Run.members).Perm group := by
  rw [runsOf,members_cut]
  exact List.perm_insertionSort _ _

/-- Each retained result is in one run, once. -/
theorem groups_perm :
    ((groups budget results).flatMap Run.members).Perm (retained results).zipIdx := by
  unfold groups
  split
  · have unsorted := List.Perm.flatMap_right Run.members (List.perm_insertionSort
      (fun a b => position (retained results) (blockOf a) ≤ position (retained results) (blockOf b))
      ((collect results).byDocument.flatMap fun entry => runsOf budget.mergeGapLines entry.2))
    apply unsorted.trans
    rw [List.flatMap_assoc]
    apply List.Perm.trans _ (sound_collect results).grouped
    exact List.Perm.flatMap_left _ fun entry _ => members_runsOf _ entry.2
  · simp [List.flatMap_map,Run.members]

theorem nodup_zipIdx (l : List Retrieved) : l.zipIdx.Nodup := by
  apply List.Nodup.of_map Prod.snd
  rw [List.zipIdx_map_snd]
  exact List.nodup_range' 

/-- A run of the merged blocks comes from the group of one document. -/
theorem group_of_run {run : Run Ranked} (member : run ∈ groups budget results)
    (merging : budget.mergeAdjacent = true) : ∃ entry ∈ (collect results).byDocument,
      run ∈ runsOf budget.mergeGapLines entry.2 := by
  simpa [groups,merging] using member

/-- A run has its members from one document, in the order of their lines. -/
theorem group_sound {run : Run Ranked} (member : run ∈ groups budget results) :
    ∃ path,(∀ m ∈ run.members,m.1.path = path) ∧ run.members.Pairwise inLineOrder := by
  cases merging : budget.mergeAdjacent with
  | true =>
    obtain ⟨entry,there,inside⟩ := group_of_run member merging
    have part : run.members.Sublist (entry.2.insertionSort inLineOrder) := by
      have whole := members_cut placed (joins budget.mergeGapLines) joined
        (entry.2.insertionSort inLineOrder)
      obtain ⟨earlier,later,split⟩ := List.append_of_mem inside
      rw [← whole,show cut placed (joins budget.mergeGapLines) joined
        (entry.2.insertionSort inLineOrder) = earlier ++ run :: later from split]
      simp only [List.flatMap_append,List.flatMap_cons]
      exact (List.sublist_append_left _ _).trans (List.sublist_append_right _ _)
    refine ⟨entry.1,fun m found => ?_,(List.pairwise_insertionSort inLineOrder _).sublist part⟩
    exact (sound_collect results).paths entry there m
      ((List.mem_insertionSort _).mp (part.subset found))
  | false =>
    have single : ∃ a b,(a,b) ∈ (retained results).zipIdx ∧ (⟨(a,b),[]⟩ : Run Ranked) = run := by
      simpa [groups,merging] using member
    obtain ⟨a,b,_,rfl⟩ := single
    exact ⟨a.path,by simp [Run.members],by simp [Run.members]⟩

theorem group_shows {run : Run Ranked} (member : run ∈ groups budget results) :
    Shows (blockOf run).1 run.members := by
  obtain ⟨path,paths,inOrder⟩ := group_sound member
  exact shows_blockOf run paths inOrder

/-! ### Positions -/

/-- The results have ids, as the retrievers give them. -/
def Identified (results : List Retrieved) : Prop := ∀ item ∈ results,item.chunkId ≠ []

theorem foldl_ordered {state : Accumulation} (rest : List Retrieved) {item : Retrieved}
    (member : item ∈ (rest.foldl Accumulation.add state).ordered) :
    item ∈ state.ordered ∨ item ∈ rest := by
  induction rest generalizing state with
  | nil => exact .inl member
  | cons first rest ih =>
    rcases ih member with old | new
    · unfold Accumulation.add at old
      split at old
      · exact .inl old
      · rcases List.mem_append.mp old with earlier | same
        · exact .inl earlier
        · exact .inr (List.mem_singleton.mp same ▸ List.mem_cons_self)
    · exact .inr (List.mem_cons_of_mem _ new)

theorem mem_of_retained {item : Retrieved} (member : item ∈ retained results) : item ∈ results := by
  simpa using foldl_ordered results member

theorem differ_of_lt {i j : Nat} {x y : Retrieved} (atX : (retained results)[i]? = some x)
    (atY : (retained results)[j]? = some y) (before : i < j) (some_ : x.chunkId ≠ []) :
    x.chunkId ≠ y.chunkId := by
  obtain ⟨boundX,rfl⟩ := List.getElem?_eq_some_iff.mp atX
  obtain ⟨boundY,rfl⟩ := List.getElem?_eq_some_iff.mp atY
  exact List.pairwise_iff_getElem.mp (sound_collect results).distinct i j boundX boundY before some_

/-- The retained results are told apart by their ids. -/
theorem ranked_of_chunkId (identified : Identified results) {a b : Ranked}
    (first : a ∈ (retained results).zipIdx) (second : b ∈ (retained results).zipIdx)
    (same : a.1.chunkId = b.1.chunkId) : a = b := by
  have atA := List.mem_zipIdx_iff_getElem?.mp first
  have atB := List.mem_zipIdx_iff_getElem?.mp second
  rcases lt_trichotomy a.2 b.2 with before | equal | behind
  · exact absurd same (differ_of_lt atA atB before
      (identified _ (mem_of_retained (List.mem_of_getElem? atA))))
  · rw [equal,atB] at atA
    exact Prod.ext (Option.some.inj atA).symm equal
  · exact absurd same.symm (differ_of_lt atB atA behind
      (identified _ (mem_of_retained (List.mem_of_getElem? atB))))

theorem mem_ranked {run : Run Ranked} (member : run ∈ groups budget results) {m : Ranked}
    (inside : m ∈ run.members) : m ∈ (retained results).zipIdx :=
  groups_perm.subset (List.mem_flatMap.mpr ⟨run,member,inside⟩)

theorem joined_place {rest : List Ranked} (some_ : rest ≠ []) (current : Placed) :
    (rest.foldl joined current).2 = none := by
  obtain ⟨earlier,last,rfl⟩ := List.eq_nil_or_concat rest |>.resolve_left some_
  simp [joined]

/-- The results that share an id with a block are its members. -/
theorem shares_iff (identified : Identified results) {run : Run Ranked}
    (member : run ∈ groups budget results) {m : Ranked} (there : m ∈ (retained results).zipIdx) :
    ((candidateOf m.1).chunkIds.any (· ∈ (blockOf run).1.chunkIds)) = true ↔ m ∈ run.members := by
  have some_ : ∀ a ∈ (retained results).zipIdx,listOf a.1.chunkId = [a.1.chunkId] := by
    intro a inside
    have kept := List.mem_of_getElem? (List.mem_zipIdx_iff_getElem?.mp inside)
    exact if_neg (identified a.1 (mem_of_retained kept))
  simp only [candidateOf,some_ m there,(group_shows member).chunkIds,List.any_cons,List.any_nil,
    Bool.or_false,decide_eq_true_eq,List.mem_flatMap]
  constructor
  · rintro ⟨a,inside,found⟩
    have ranked := mem_ranked member inside
    rw [some_ a ranked,List.mem_singleton] at found
    rwa [ranked_of_chunkId identified there ranked found]
  · intro inside
    exact ⟨m,inside,by simp [some_ m there]⟩

theorem mergedPosition_least (identified : Identified results) {run : Run Ranked}
    (member : run ∈ groups budget results) :
    IsLeast {i | ∃ m ∈ run.members,i = m.2}
      (mergedPosition (blockOf run).1 (retained results)) := by
  let positions := ((retained results).zipIdx.filter fun item =>
    (candidateOf item.1).chunkIds.any (· ∈ (blockOf run).1.chunkIds)).map Prod.snd
  have mem_positions : ∀ i,i ∈ positions ↔ ∃ m ∈ run.members,i = m.2 := by
    intro i
    simp only [positions,List.mem_map,List.mem_filter]
    constructor
    · rintro ⟨m,⟨there,shared⟩,rfl⟩
      exact ⟨m,(shares_iff identified member there).mp shared,rfl⟩
    · rintro ⟨m,inside,rfl⟩
      have there := mem_ranked member inside
      exact ⟨m,⟨there,(shares_iff identified member there).mpr inside⟩,rfl⟩
  have first := (mem_positions run.first.2).mpr ⟨run.first,List.mem_cons_self,rfl⟩
  cases found : positions.min? with
  | none =>
    rw [List.min?_eq_none_iff.mp found] at first
    exact absurd first List.not_mem_nil
  | some least =>
    obtain ⟨inside,lower⟩ := List.min?_eq_some_iff.mp found
    have value : mergedPosition (blockOf run).1 (retained results) = least := by
      simp only [mergedPosition]
      rw [show ((retained results).zipIdx.filter fun item =>
        (candidateOf item.1).chunkIds.any (· ∈ (blockOf run).1.chunkIds)).map Prod.snd =
          positions from rfl,found]
      rfl
    rw [value]
    exact ⟨(mem_positions least).mp inside,fun i member' => lower i ((mem_positions i).mpr member')⟩

/-- A block stands at the place of its best-ranked result. -/
theorem position_least (identified : Identified results) {run : Run Ranked}
    (member : run ∈ groups budget results) :
    IsLeast {i | ∃ m ∈ run.members,i = m.2} (position (retained results) (blockOf run)) := by
  by_cases single : run.rest = []
  · simp [Run.members,single,position,blockOf,Run.made,placed]
  · have unplaced : (blockOf run).2 = none := joined_place single _
    simpa [position,unplaced] using mergedPosition_least identified member

def BestFirst (a b : List Ranked) : Prop := ∃ m ∈ a,∀ x ∈ b,m.2 < x.2

theorem groups_ascending : (groups budget results).Pairwise fun a b =>
    position (retained results) (blockOf a) ≤ position (retained results) (blockOf b) := by
  cases merging : budget.mergeAdjacent with
  | true =>
    let place (run : Run Ranked) := position (retained results) (blockOf run)
    have total : Std.Total fun a b : Run Ranked => place a ≤ place b := ⟨fun a b => le_total _ _⟩
    have trans : IsTrans (Run Ranked) fun a b => place a ≤ place b :=
      ⟨fun a b c => le_trans⟩
    simp only [groups,merging,if_true]
    exact List.pairwise_insertionSort (fun a b => place a ≤ place b) _
  | false =>
    simp only [groups,merging,Bool.false_eq_true,if_false,List.pairwise_map]
    have increasing : ((retained results).zipIdx.map Prod.snd).Pairwise (· ≤ ·) := by
      rw [List.zipIdx_map_snd]
      exact List.pairwise_le_range' 
    have pairs := List.pairwise_map.mp increasing
    simpa [position,blockOf,Run.made,placed] using pairs

theorem groups_bestFirst (identified : Identified results) :
    (groups budget results).Pairwise fun a b => BestFirst a.members b.members := by
  have distinct := (@groups_perm budget results).nodup_iff.mpr (nodup_zipIdx (retained results))
  have apart := (List.nodup_flatMap.mp distinct).2
  refine List.Pairwise.imp_of_mem (fun {a b} first second both => ?_)
    (groups_ascending.and apart)
  obtain ⟨⟨m,inside,attained⟩,_⟩ := position_least identified first
  refine ⟨m,inside,fun x found => lt_of_le_of_ne ?_ fun same => ?_⟩
  · rw [← attained]
    exact both.1.trans ((position_least identified second).2 ⟨x,found,rfl⟩)
  · have atM := List.mem_zipIdx_iff_getElem?.mp (mem_ranked first inside)
    have atX := List.mem_zipIdx_iff_getElem?.mp (mem_ranked second found)
    rw [same,atX] at atM
    have equal : m = x := Prod.ext (Option.some.inj atM).symm same
    exact both.2 inside (equal ▸ found)

/-! ### Provenance -/

/-- The blocks hold each retained result once and show what it says where it stands, they come in
the order of their best-ranked results, and a hit on a whole document stands alone. -/
structure Provenance (results : List Retrieved) (blocks : List EvidenceCandidate) : Prop where
  parts : ∃ members : List (List Ranked),members.flatten.Perm (retained results).zipIdx ∧
    List.Forall₂ Shows blocks members ∧ members.Pairwise BestFirst
  documentLevel : ∀ item ∈ retained results,item.documentLevel → ∀ block ∈ blocks,
    item.chunkId ∈ block.chunkIds → block.chunkIds = [item.chunkId]

/-- The first result ends more than `gap` lines before the second, whichever comes first. -/
def LinesApart (gap : Int) (a b : Ranked) : Prop :=
  if inLineOrder a b then gap < b.1.startLine - a.1.endLine
  else gap < a.1.startLine - b.1.endLine

/-- No hit on a whole document has another retained result of the document within the gap. -/
def DocumentsApart (budget : ContextBudget) (results : List Retrieved) : Prop :=
  budget.mergeAdjacent → ∀ hit ∈ (retained results).zipIdx,hit.1.documentLevel →
    ∀ other ∈ (retained results).zipIdx,other ≠ hit → other.1.path = hit.1.path →
      LinesApart budget.mergeGapLines other hit

theorem parts_kept (identified : Identified results) :
    ∃ members : List (List Ranked),members.flatten.Perm (retained results).zipIdx ∧
      List.Forall₂ Shows (accumulate budget results) members ∧ members.Pairwise BestFirst := by
  refine ⟨(groups budget results).map Run.members,?_,?_,?_⟩
  · rw [← List.flatMap_def]
    exact groups_perm
  · rw [accumulate_eq,List.forall₂_map_left_iff,List.forall₂_map_right_iff,List.forall₂_same]
    exact fun run member => group_shows member
  · exact List.pairwise_map.mpr (groups_bestFirst identified)

theorem chunkIds_eq (identified : Identified results) {run : Run Ranked}
    (member : run ∈ groups budget results) :
    (blockOf run).1.chunkIds = run.members.map fun m => m.1.chunkId := by
  have single : ∀ m ∈ run.members,listOf m.1.chunkId = [m.1.chunkId] := by
    intro m inside
    have there := List.mem_zipIdx_iff_getElem?.mp (mem_ranked member inside)
    exact if_neg (identified m.1 (mem_of_retained (List.mem_of_getElem? there)))
  rw [(group_shows member).chunkIds,List.flatMap_congr single,← List.flatMap_pure_eq_map]
  rfl

/-- The block of a run has one id if and only if the run has one member. -/
theorem chunkIds_single_iff (identified : Identified results) {run : Run Ranked}
    (member : run ∈ groups budget results) {hit : Ranked} (inside : hit ∈ run.members) :
    (blockOf run).1.chunkIds = [hit.1.chunkId] ↔ run.rest = [] := by
  rw [chunkIds_eq identified member]
  constructor
  · intro single
    have short := congrArg List.length single
    simpa [Run.members] using short
  · intro alone
    have members : run.members = [run.first] := by simp [Run.members,alone]
    rw [members] at inside ⊢
    rw [List.mem_singleton.mp inside]
    rfl

theorem documentLevel_iff_alone (identified : Identified results) :
    (∀ item ∈ retained results,item.documentLevel → ∀ block ∈ accumulate budget results,
      item.chunkId ∈ block.chunkIds → block.chunkIds = [item.chunkId]) ↔
    ∀ run ∈ groups budget results,∀ hit ∈ run.members,hit.1.documentLevel → run.rest = [] := by
  rw [accumulate_eq]
  constructor
  · intro kept run member hit inside whole
    have there := List.mem_of_getElem?
      (List.mem_zipIdx_iff_getElem?.mp (mem_ranked member inside))
    have among : hit.1.chunkId ∈ (blockOf run).1.chunkIds := by
      rw [chunkIds_eq identified member]
      exact List.mem_map.mpr ⟨hit,inside,rfl⟩
    exact (chunkIds_single_iff identified member inside).mp
      (kept hit.1 there whole _ (List.mem_map.mpr ⟨run,member,rfl⟩) among)
  · intro alone item there whole block listed among
    obtain ⟨run,member,rfl⟩ := List.mem_map.mp listed
    obtain ⟨i,at_⟩ := List.mem_iff_getElem?.mp there
    have ranked : (item,i) ∈ (retained results).zipIdx := List.mem_zipIdx_iff_getElem?.mpr at_
    rw [chunkIds_eq identified member] at among
    obtain ⟨m,inside,same⟩ := List.mem_map.mp among
    obtain rfl := ranked_of_chunkId identified (mem_ranked member inside) ranked same
    exact (chunkIds_single_iff identified member inside).mpr (alone run member _ inside whole)

theorem linesApart_before (gap : Int) {a b : Ranked} (before : inLineOrder a b) :
    LinesApart gap a b ↔ ¬near gap a b := by
  simp only [LinesApart,before,if_true,near]
  omega

theorem linesApart_behind (gap : Int) {a b : Ranked} (behind : inLineOrder b a) :
    LinesApart gap a b ↔ ¬near gap b a := by
  unfold LinesApart near
  split
  · next both =>
    unfold inLineOrder at both behind
    omega
  · omega

theorem entry_of_ranked {m : Ranked} (there : m ∈ (retained results).zipIdx) :
    ∃ entry ∈ (collect results).byDocument,m ∈ entry.2 :=
  List.mem_flatMap.mp ((sound_collect results).grouped.symm.subset there)

theorem nodup_group {entry : Text × List Ranked} (there : entry ∈ (collect results).byDocument) :
    entry.2.Nodup := by
  have distinct := (sound_collect results).grouped.nodup_iff.mpr (nodup_zipIdx _)
  exact (List.nodup_flatMap.mp distinct).1 entry there

/-- In the lines of its document, a result is a run of its own when the others are apart. -/
theorem alone_iff_linesApart {entry : Text × List Ranked}
    (there : entry ∈ (collect results).byDocument) {gap : Int} {run : Run Ranked}
    (member : run ∈ runsOf gap entry.2) {hit : Ranked} (inside : hit ∈ run.members) :
    run.rest = [] ↔ ∀ other ∈ entry.2,other ≠ hit → LinesApart gap other hit := by
  have listed : hit ∈ entry.2.insertionSort inLineOrder := by
    have whole := members_cut placed (joins gap) joined (entry.2.insertionSort inLineOrder)
    exact whole ▸ List.mem_flatMap.mpr ⟨run,member,inside⟩
  have sorted := List.pairwise_insertionSort inLineOrder entry.2
  have distinct := (List.perm_insertionSort inLineOrder entry.2).nodup_iff.mpr (nodup_group there)
  have mem_iff : ∀ other,other ∈ entry.2 ↔ other ∈ entry.2.insertionSort inLineOrder :=
    fun other => (List.mem_insertionSort _).symm
  obtain ⟨before,after,split⟩ := List.append_of_mem listed
  unfold runsOf at member
  simp only [mem_iff,split] at member sorted distinct ⊢
  rw [alone_iff (joins_near gap) (near_closer gap) sorted distinct member inside]
  have ⟨_,sortedAfter,ahead⟩ := List.pairwise_append.mp sorted
  have behind := (List.pairwise_cons.mp sortedAfter).1
  have ⟨_,freshAfter,freshBefore⟩ := List.nodup_append.mp distinct
  constructor
  · rintro ⟨first,last⟩ other found differs
    rcases List.mem_append.mp found with low | high
    · exact (linesApart_before gap (ahead other low hit List.mem_cons_self)).mpr (first other low)
    · have later := (List.mem_cons.mp high).resolve_left differs
      exact (linesApart_behind gap (behind other later)).mpr (last other later)
  · intro apart
    refine ⟨fun x low => ?_,fun x high => ?_⟩
    · have differs : x ≠ hit := freshBefore x low hit List.mem_cons_self
      exact (linesApart_before gap (ahead x low hit List.mem_cons_self)).mp
        (apart x (List.mem_append_left _ low) differs)
    · have differs : x ≠ hit := fun same => (List.nodup_cons.mp freshAfter).1 (same ▸ high)
      exact (linesApart_behind gap (behind x high)).mp
        (apart x (List.mem_append_right _ (List.mem_cons_of_mem _ high)) differs)

theorem group_alone {run : Run Ranked} (member : run ∈ groups budget results)
    (separate : budget.mergeAdjacent = false) : run.rest = [] := by
  have single : ∃ a b,(a,b) ∈ (retained results).zipIdx ∧ (⟨(a,b),[]⟩ : Run Ranked) = run := by
    simpa [groups,separate] using member
  obtain ⟨a,b,_,rfl⟩ := single
  rfl

/-- Two results of one document are in one group. -/
theorem mem_group_of_path {entry : Text × List Ranked}
    (there : entry ∈ (collect results).byDocument) {m : Ranked} (inside : m ∈ entry.2)
    {other : Ranked} (found : other ∈ (retained results).zipIdx) (same : other.1.path = m.1.path) :
    other ∈ entry.2 := by
  have sound := sound_collect results
  obtain ⟨second,there',inside'⟩ := entry_of_ranked found
  have key : second.1 = entry.1 := by
    rw [← sound.paths entry there m inside,← sound.paths second there' other inside',same]
  obtain rfl := List.inj_on_of_nodup_map sound.names there' there key
  exact inside'

theorem mem_of_runsOf {gap : Int} {group : List Ranked} {run : Run Ranked}
    (member : run ∈ runsOf gap group) {m : Ranked} (inside : m ∈ run.members) : m ∈ group :=
  (members_runsOf gap group).subset (List.mem_flatMap.mpr ⟨run,member,inside⟩)

theorem alone_iff_apart : (∀ run ∈ groups budget results,∀ hit ∈ run.members,
    hit.1.documentLevel → run.rest = []) ↔ DocumentsApart budget results := by
  cases merging : budget.mergeAdjacent with
  | false =>
    have vacuous : DocumentsApart budget results := fun merged => by simp [merging] at merged
    exact iff_of_true (fun run member _ _ _ => group_alone member merging) vacuous
  | true =>
    constructor
    · intro alone _ hit ranked whole other found differs same
      obtain ⟨run,member,inside⟩ := List.mem_flatMap.mp
        ((@groups_perm budget results).symm.subset ranked)
      obtain ⟨entry,there,part⟩ := group_of_run member merging
      exact (alone_iff_linesApart there part inside).mp (alone run member hit inside whole) other
        (mem_group_of_path there (mem_of_runsOf part inside) found same) differs
    · intro apart run member hit inside whole
      obtain ⟨entry,there,part⟩ := group_of_run member merging
      have paths := (sound_collect results).paths entry there
      refine (alone_iff_linesApart there part inside).mpr fun other found differs => ?_
      have ranked : other ∈ (retained results).zipIdx :=
        (sound_collect results).grouped.subset (List.mem_flatMap.mpr ⟨entry,there,found⟩)
      have same := (paths other found).trans (paths hit (mem_of_runsOf part inside)).symm
      exact apart merging hit (mem_ranked member inside) whole other ranked differs same

/-- The blocks keep provenance and rank if and only if no hit on a whole document is within the
gap of another result of its document. -/
theorem provenance_iff (budget : ContextBudget) (results : List Retrieved)
    (identified : Identified results) :
    Provenance results (accumulate budget results) ↔ DocumentsApart budget results := by
  rw [← alone_iff_apart,← documentLevel_iff_alone identified]
  exact ⟨Provenance.documentLevel,fun alone => ⟨parts_kept identified,alone⟩⟩

def twoChunks : List Retrieved :=
  [{chunkId := "c2".toList,path := "a.md".toList,content := "b".toList,startLine := 6,endLine := 9},
   {chunkId := "c1".toList,path := "a.md".toList,content := "a".toList,startLine := 1,endLine := 5}]

theorem twoChunks_provenance : Provenance twoChunks (accumulate {} twoChunks) :=
  (provenance_iff {} twoChunks (by unfold Identified; decide)).mpr (by
    intro _ hit ranked whole
    have all : ∀ item ∈ (retained twoChunks).zipIdx,item.1.documentLevel = false := by
      decide +kernel
    simp [all hit ranked] at whole)

def chunkAndDocument : List Retrieved :=
  [{chunkId := "c1".toList,path := "a.md".toList,content := "a".toList,startLine := 1,endLine := 5},
   {chunkId := "doc::a.md".toList,path := "a.md".toList,content := "a b".toList,
    documentLevel := true}]

theorem chunkAndDocument_joined :
    ¬∀ (budget : ContextBudget) (results : List Retrieved),Identified results →
      Provenance results (accumulate budget results) := by
  intro every
  have kept := (every {} chunkAndDocument (by unfold Identified; decide)).documentLevel
  revert kept
  decide +kernel

end LocalBook.Rag.Context
