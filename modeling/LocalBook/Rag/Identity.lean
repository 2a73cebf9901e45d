import LocalBook.Rag.Store

/-! Who owns a chunk row. An id is derived from the path and the content, survives a rename,
and a row that is inserted under a stored id is moved. -/
namespace LocalBook.Rag

section Insert

variable {table rows : List Chunk} {chunk : Chunk}

theorem mem_ids {id : Text} : id ∈ ids rows ↔ ∃ row ∈ rows, row.chunkId = id := List.mem_map

@[simp] theorem ids_cons (row : Chunk) (rows : List Chunk) :
    ids (row :: rows) = row.chunkId :: ids rows := rfl

/-- Inserting puts the row in the place of the one with its id. -/
theorem insertChunk_perm (distinct : (ids table).Nodup) (chunk : Chunk) :
    List.Perm (insertChunk table chunk)
      (chunk :: table.filter fun row => row.chunkId ≠ chunk.chunkId) := by
  induction table with
  | nil => exact List.Perm.refl _
  | cons row rest ih =>
    obtain ⟨fresh,others⟩ := List.nodup_cons.mp distinct
    rw [insertChunk]
    split
    · rename_i same
      rw [List.filter_cons_of_neg (by simpa using same),List.filter_eq_self.mpr]
      intro other member
      refine decide_eq_true fun equal => fresh ?_
      exact mem_ids.mpr ⟨other,member,equal.trans same.symm⟩
    · rename_i other
      rw [List.filter_cons_of_pos (by simpa using other)]
      exact ((ih others).cons row).trans (List.Perm.swap _ _ _)

theorem nodup_ids_insertChunk (distinct : (ids table).Nodup) (chunk : Chunk) :
    (ids (insertChunk table chunk)).Nodup := by
  refine (((insertChunk_perm distinct chunk).map Chunk.chunkId).nodup_iff).mpr ?_
  refine List.nodup_cons.mpr ⟨fun found => ?_,distinct.sublist (List.filter_sublist.map _)⟩
  obtain ⟨row,member,same⟩ := List.mem_map.mp found
  exact of_decide_eq_true (List.mem_filter.mp member).2 same

theorem nodup_ids_insertAll (distinct : (ids table).Nodup) (rows : List Chunk) :
    (ids (rows.foldl insertChunk table)).Nodup := by
  induction rows generalizing table with
  | nil => exact distinct
  | cons row rest ih => exact ih (nodup_ids_insertChunk distinct row)

/-- Rows with distinct ids displace the rows under these ids, and no others. -/
theorem insertAll_perm (distinct : (ids table).Nodup) (fresh : (ids rows).Nodup) :
    List.Perm (rows.foldl insertChunk table)
      (rows ++ table.filter fun row => row.chunkId ∉ ids rows) := by
  induction rows generalizing table with
  | nil => simp [ids]
  | cons row rest ih =>
    obtain ⟨new,others⟩ := List.nodup_cons.mp fresh
    have step := insertChunk_perm distinct row
    refine (ih (nodup_ids_insertChunk distinct row) others).trans ?_
    refine ((step.filter _).append_left rest).trans ?_
    rw [List.filter_cons_of_pos (by exact decide_eq_true new),List.filter_filter]
    refine List.perm_middle.trans (List.Perm.cons row (List.Perm.append_left rest ?_))
    refine List.Perm.of_eq (List.filter_congr fun other _ => ?_)
    simp only [ids_cons,List.mem_cons,not_or,← Bool.decide_and,decide_eq_decide]
    exact and_comm

end Insert

def Holds (table : List Chunk) (document : Text) (pieces : List Piece) : Prop :=
  (rowsOf table document).map Chunk.shape = (chunkDocument document pieces).map Chunk.shape

section Rows

variable {table : List Chunk} {document : Text}

theorem index_chunksFrom {path : Text} {n : Nat} {pieces : List Piece} {chunk : Chunk}
    (found : chunk ∈ chunksFrom path n pieces) : n ≤ chunk.chunkIndex := by
  induction pieces generalizing n with
  | nil => cases found
  | cons piece rest ih =>
    rcases List.mem_cons.mp found with rfl | later
    · exact le_rfl
    · exact (Nat.le_succ n).trans (ih later)

theorem sorted_chunksFrom (path : Text) (n : Nat) (pieces : List Piece) :
    (chunksFrom path n pieces).Pairwise fun a b => a.chunkIndex < b.chunkIndex := by
  induction pieces generalizing n with
  | nil => exact List.Pairwise.nil
  | cons piece rest ih =>
    exact List.pairwise_cons.mpr ⟨fun chunk found => index_chunksFrom found,ih (n + 1)⟩

theorem document_chunksFrom {path : Text} {n : Nat} {pieces : List Piece} {chunk : Chunk}
    (found : chunk ∈ chunksFrom path n pieces) :
    chunk.documentId = path ∧ chunk.path = path ∧
      chunk.chunkId = chunkId path chunk.piece.content := by
  induction pieces generalizing n with
  | nil => cases found
  | cons piece rest ih =>
    rcases List.mem_cons.mp found with rfl | later
    · exact ⟨rfl,rfl,rfl⟩
    · exact ih later

theorem chunkDocument_sorted (path : Text) (pieces : List Piece) :
    (chunkDocument path pieces).insertionSort Chunk.precedes = chunkDocument path pieces :=
  List.Pairwise.insertionSort_eq
    ((sorted_chunksFrom path 0 pieces).imp fun less => Nat.le_of_lt less)

/-- Rows that are the pieces of a document up to their order are its pieces in order. -/
theorem holds_of_perm {pieces : List Piece}
    (perm : List.Perm ((table.filter fun row => row.documentId = document).map Chunk.shape)
      ((chunkDocument document pieces).map Chunk.shape)) : Holds table document pieces := by
  have sorted : ((rowsOf table document).map Chunk.shape).Pairwise
      fun a b => a.2.2.1 ≤ b.2.2.1 := by
    have total : Std.Total Chunk.precedes := ⟨fun a b => Nat.le_total _ _⟩
    have trans : IsTrans Chunk Chunk.precedes := ⟨fun a b c => Nat.le_trans⟩
    exact List.pairwise_map.mpr (List.pairwise_insertionSort Chunk.precedes _)
  have strict : ((chunkDocument document pieces).map Chunk.shape).Pairwise
      fun a b => a.2.2.1 < b.2.2.1 := List.pairwise_map.mpr (sorted_chunksFrom _ _ _)
  have same : List.Perm ((rowsOf table document).map Chunk.shape)
      ((chunkDocument document pieces).map Chunk.shape) :=
    ((List.perm_insertionSort Chunk.precedes _).map Chunk.shape).trans perm
  refine List.Perm.eq_of_pairwise ?_ sorted (strict.imp fun less => Nat.le_of_lt less) same
  intro a b left right first second
  have indexes : (((chunkDocument document pieces).map Chunk.shape).map fun s => s.2.2.1).Nodup :=
    List.pairwise_map.mpr (strict.imp fun less => Nat.ne_of_lt less)
  exact List.inj_on_of_nodup_map indexes (same.subset left) right (Nat.le_antisymm first second)

end Rows

/-- Every document of the table holds its pieces, and ids are not shared. -/
structure Faithful (table : List Chunk) (pieces : Text → List Piece) : Prop where
  ids : (ids table).Nodup
  holds : ∀ document, Holds table document (pieces document)

theorem Holds.perm {table : List Chunk} {document : Text} {pieces : List Piece}
    (holds : Holds table document pieces) :
    List.Perm ((table.filter fun row => row.documentId = document).map Chunk.shape)
      ((chunkDocument document pieces).map Chunk.shape) :=
  ((List.perm_insertionSort Chunk.precedes _).map Chunk.shape).symm.trans (List.Perm.of_eq holds)

/-- The ids of the new chunks are distinct, and none is stored for another document. -/
def Unclaimed (table : List Chunk) (document : Text) (pieces : List Piece) : Prop :=
  (ids (chunkDocument document pieces)).Nodup ∧
    ∀ row ∈ table, row.chunkId ∈ ids (chunkDocument document pieces) → row.documentId = document

section Upsert

variable {table : List Chunk} {pieces : Text → List Piece} {document : Text} {new : List Piece}

/-- The table after an upsert holds the new chunks and the rows of the other documents. -/
theorem replaceChunks_perm (distinct : (ids table).Nodup)
    (unclaimed : Unclaimed table document new) :
    List.Perm (replaceChunks document (chunkDocument document new) table)
      (chunkDocument document new ++ table.filter fun row => row.documentId ≠ document) := by
  obtain ⟨fresh,free⟩ := unclaimed
  have kept : (ids (table.filter fun row => ¬ (row.documentId = document ∧
      row.chunkId ∉ ids (chunkDocument document new)))).Nodup :=
    distinct.sublist (List.filter_sublist.map _)
  refine (insertAll_perm kept fresh).trans (List.Perm.append_left _ (List.Perm.of_eq ?_))
  rw [List.filter_filter]
  refine List.filter_congr fun row member => ?_
  have owner := free row member
  simp only [← Bool.decide_and,decide_eq_decide]
  tauto

theorem faithful_upsert (faithful : Faithful table pieces)
    (unclaimed : Unclaimed table document new) :
    Faithful (replaceChunks document (chunkDocument document new) table)
      (Function.update pieces document new) := by
  have perm := replaceChunks_perm faithful.ids unclaimed
  have own : ∀ row ∈ chunkDocument document new, row.documentId = document :=
    fun row found => (document_chunksFrom found).1
  refine ⟨nodup_ids_insertAll (faithful.ids.sublist (List.filter_sublist.map _)) _,
    fun other => holds_of_perm ?_⟩
  refine ((perm.filter _).map Chunk.shape).trans ?_
  rw [List.filter_append,List.filter_filter]
  by_cases same : other = document
  · subst same
    rw [Function.update_self,List.filter_eq_self.mpr fun row found => by simp [own row found],
      List.filter_eq_nil_iff.mpr fun row _ => by simp,List.append_nil]
  · rw [Function.update_of_ne same,List.filter_eq_nil_iff.mpr fun row found => by
      simp [own row found,Ne.symm same],List.nil_append]
    refine (List.Perm.of_eq ?_).trans (faithful.holds other).perm
    congr 1
    refine List.filter_congr fun row _ => ?_
    simp only [← Bool.decide_and,decide_eq_decide]
    constructor
    · exact And.left
    · rintro rfl
      exact ⟨rfl,same⟩

end Upsert

section Others

variable {table : List Chunk} {pieces : Text → List Piece}

theorem faithful_delete (faithful : Faithful table pieces) (document : Text) :
    Faithful (table.filter fun row => row.documentId ≠ document)
      (Function.update pieces document []) := by
  refine ⟨faithful.ids.sublist (List.filter_sublist.map _),fun other => holds_of_perm ?_⟩
  rw [List.filter_filter]
  by_cases same : other = document
  · subst same
    rw [Function.update_self,List.filter_eq_nil_iff.mpr fun row _ => by simp]
    exact List.Perm.refl _
  · rw [Function.update_of_ne same]
    refine (List.Perm.of_eq ?_).trans (faithful.holds other).perm
    congr 1
    refine List.filter_congr fun row _ => ?_
    simp only [← Bool.decide_and,decide_eq_decide]
    constructor
    · exact And.left
    · rintro rfl
      exact ⟨rfl,same⟩

def movedPieces (pieces : Text → List Piece) (oldPath newPath : Text) : Text → List Piece :=
  Function.update (Function.update pieces newPath (pieces oldPath)) oldPath []

theorem shape_repoint {oldPath newPath : Text} {n : Nat} {group : List Piece} :
    (chunksFrom oldPath n group).map (Chunk.shape ∘ repoint oldPath newPath) =
      (chunksFrom newPath n group).map Chunk.shape := by
  induction group generalizing n with
  | nil => rfl
  | cons piece rest ih =>
    rw [chunksFrom,chunksFrom,List.map_cons,List.map_cons,ih]
    simp [chunkAt,repoint,Chunk.shape]

theorem repoint_documentId {oldPath newPath : Text} (row : Chunk) :
    (repoint oldPath newPath row).documentId =
      if row.documentId = oldPath then newPath else row.documentId := by
  unfold repoint
  split <;> rfl

def repointShape (oldPath newPath : Text) (shape : Text × Text × Nat × Piece) :
    Text × Text × Nat × Piece :=
  if shape.1 = oldPath then (newPath,newPath,shape.2.2) else shape

theorem shape_repoint_eq (oldPath newPath : Text) (row : Chunk) :
    (repoint oldPath newPath row).shape = repointShape oldPath newPath row.shape := by
  unfold repoint repointShape Chunk.shape
  split <;> simp_all

theorem faithful_rename (faithful : Faithful table pieces) {oldPath newPath : Text}
    (apart : oldPath ≠ newPath) (free : pieces newPath = []) :
    Faithful (table.map (repoint oldPath newPath)) (movedPieces pieces oldPath newPath) := by
  have sameIds : ids (table.map (repoint oldPath newPath)) = ids table := by
    rw [ids,List.map_map]
    refine List.map_congr_left fun row _ => ?_
    simp only [Function.comp_apply,repoint]
    split <;> rfl
  have vacant : ∀ row ∈ table, row.documentId ≠ newPath := by
    intro row found same
    have none_ := (faithful.holds newPath).perm
    rw [free] at none_
    have empty := List.map_eq_nil_iff.mp (List.Perm.eq_nil none_)
    have member : row ∈ table.filter fun row => row.documentId = newPath :=
      List.mem_filter.mpr ⟨found,decide_eq_true same⟩
    rw [empty] at member
    cases member
  refine ⟨sameIds ▸ faithful.ids,fun other => holds_of_perm ?_⟩
  rw [List.filter_map,List.map_map]
  by_cases gone : other = oldPath
  · subst gone
    rw [movedPieces,Function.update_self,List.filter_eq_nil_iff.mpr]
    · exact List.Perm.refl _
    · intro row _
      simp only [Function.comp_apply,repoint_documentId,decide_eq_true_eq]
      split
      · exact Ne.symm apart
      · assumption
  · rw [movedPieces,Function.update_of_ne gone]
    by_cases arrived : other = newPath
    · subst arrived
      rw [Function.update_self]
      have own := ((faithful.holds oldPath).perm).map (repointShape oldPath other)
      rw [List.map_map,List.map_map] at own
      refine (List.Perm.of_eq ?_).trans (own.trans (List.Perm.of_eq ?_))
      · rw [List.filter_congr (q := fun row => decide (row.documentId = oldPath)) fun row found => by
          have elsewhere := vacant row found
          simp only [Function.comp_apply,repoint_documentId,decide_eq_decide]
          by_cases old : row.documentId = oldPath <;> simp [old,elsewhere]]
        exact List.map_congr_left fun row _ => shape_repoint_eq _ _ _
      · refine Eq.trans (List.map_congr_left fun row _ => ?_) shape_repoint
        exact (shape_repoint_eq oldPath other row).symm
    · rw [Function.update_of_ne arrived]
      refine (List.Perm.of_eq ?_).trans (faithful.holds other).perm
      rw [List.filter_congr (q := fun row => decide (row.documentId = other)) fun row _ => by
        simp only [Function.comp_apply,repoint_documentId,decide_eq_decide]
        by_cases old : row.documentId = oldPath
        · simp [old,Ne.symm arrived,Ne.symm gone]
        · simp [old]]
      refine List.map_congr_left fun row found => ?_
      have elsewhere : row.documentId = other := of_decide_eq_true (List.mem_filter.mp found).2
      simp [repoint,elsewhere,gone]

end Others

inductive DocumentStep where
  | upsert (document : Text) (pieces : List Piece) (sha256 contentHash : Text) (pruneFts : Bool)
  | rename (oldPath newPath : Text)
  | delete (document : Text)

namespace DocumentStep

variable {α : Type}

def apply (store : Store α) : DocumentStep → Store α
  | .upsert document pieces sha256 contentHash pruneFts =>
    store.upsertChunks document (chunkDocument document pieces) sha256 contentHash pruneFts
  | .rename oldPath newPath =>
    match store.renameDocument oldPath newPath with
    | .ok (_,renamed) => renamed
    | .error _ => store
  | .delete document => store.deleteDocument document

def run (steps : List DocumentStep) (store : Store α) : Store α := steps.foldl apply store

def expected (pieces : Text → List Piece) : DocumentStep → Text → List Piece
  | .upsert document new _ _ _ => if new = [] then pieces else Function.update pieces document new
  | .rename oldPath newPath =>
    if oldPath = newPath ∨ pieces oldPath = [] ∨ pieces newPath ≠ [] then pieces
    else movedPieces pieces oldPath newPath
  | .delete document => Function.update pieces document []

def allExpected (steps : List DocumentStep) (pieces : Text → List Piece) : Text → List Piece :=
  steps.foldl expected pieces

def Conforms (store : Store α) : DocumentStep → Prop
  | .upsert document pieces _ _ _ => Unclaimed store.chunks document pieces
  | .rename _ _ | .delete _ => True

/-- Every operation of a run conforms where it finds the store. -/
def Conforming : List DocumentStep → Store α → Prop
  | [],_ => True
  | step :: rest,store => Conforms store step ∧ Conforming rest (apply store step)

/-- A store whose documents hold these pieces, with a row for each of them. -/
structure Tracks (store : Store α) (pieces : Text → List Piece) : Prop where
  faithful : Faithful store.chunks pieces
  stored : ∀ document, (store.document document).isSome ↔ pieces document ≠ []

theorem tracks_apply {store : Store α} {pieces : Text → List Piece} {step : DocumentStep}
    (tracks : Tracks store pieces) (conforms : Conforms store step) :
    Tracks (apply store step) (expected pieces step) := by
  cases step with
  | upsert document new sha256 contentHash pruneFts =>
    by_cases empty : new = []
    · subst empty
      simpa [apply,expected,Store.upsertChunks,chunkDocument,chunksFrom] using tracks
    · have some_ : chunkDocument document new ≠ [] := by
        cases new with
        | nil => exact absurd rfl empty
        | cons piece rest => simp [chunkDocument,chunksFrom]
      rw [expected,if_neg empty,apply,Store.upsertChunks,if_neg some_,chunkDocument_sorted]
      refine ⟨faithful_upsert tracks.faithful conforms,fun other => ?_⟩
      rw [Store.document]
      dsimp only
      rw [Dict.find_set,Function.update_apply]
      split
      · exact ⟨fun _ => empty,fun _ => rfl⟩
      · exact tracks.stored other
  | rename oldPath newPath =>
    have old := tracks.stored oldPath
    have new := tracks.stored newPath
    rw [expected,apply,Store.renameDocument]
    by_cases same : oldPath = newPath
    · simpa [same] using tracks
    · by_cases absent : (store.document oldPath).isNone
      · have none_ : pieces oldPath = [] := by
          by_contra some_
          have found := old.mpr some_
          simp_all
        simpa [same,absent,none_] using tracks
      · have some_ : pieces oldPath ≠ [] := old.mp (by
          rwa [Option.isNone_iff_eq_none,← ne_eq,Option.ne_none_iff_isSome] at absent)
        by_cases taken : (store.document newPath).isSome
        · have occupied := new.mp taken
          simpa [same,absent,taken,some_,occupied] using tracks
        · have free : pieces newPath = [] := by
            by_contra occupied
            exact taken (new.mpr occupied)
          have vacant : store.documents.find newPath = none :=
            Option.not_isSome_iff_eq_none.mp taken
          rw [if_neg same,if_neg absent,if_neg taken,if_neg (by simp [same,some_,free])]
          refine ⟨faithful_rename tracks.faithful same free,fun other => ?_⟩
          rw [Store.document]
          dsimp only
          rw [Dict.find_rekey _ _ vacant,movedPieces,Function.update_apply,
            Function.update_apply]
          by_cases gone : other = oldPath
          · rw [if_pos gone,if_pos gone,if_neg (gone ▸ same)]
            simp
          · rw [if_neg gone,if_neg gone]
            by_cases arrived : other = newPath
            · rw [if_pos arrived,if_pos arrived]
              exact old
            · rw [if_neg arrived,if_neg arrived]
              exact tracks.stored other
  | delete document =>
    refine ⟨faithful_delete tracks.faithful document,fun other => ?_⟩
    rw [apply,expected,Store.deleteDocument,Store.document]
    dsimp only
    rw [Dict.find_pop,Function.update_apply]
    split
    · simp
    · exact tracks.stored other

/-- In every run of upserts, renames and deletions from an empty store that conforms at each
step: each document has exactly the rows of its own pieces, in order, and no id has two
owners. -/
theorem faithful_run {steps : List DocumentStep} (conforming : Conforming steps ({} : Store α)) :
    Faithful (run steps ({} : Store α)).chunks (allExpected steps fun _ => []) := by
  have tracked : ∀ (steps : List DocumentStep) (store : Store α) (pieces : Text → List Piece),
      Tracks store pieces → Conforming steps store →
        Tracks (run steps store) (allExpected steps pieces) := by
    intro steps
    induction steps with
    | nil => exact fun _ _ tracks _ => tracks
    | cons step rest ih =>
      intro store pieces tracks conforming
      exact ih _ _ (tracks_apply tracks conforming.1) conforming.2
  have empty : Tracks ({} : Store α) fun _ => [] :=
    ⟨⟨List.nodup_nil,fun _ => rfl⟩,fun _ => by simp [Store.document]⟩
  exact (tracked steps {} _ empty conforming).faithful

end DocumentStep

def paragraph : Piece := {content := "Hello".toList}

def renamedNote : List DocumentStep :=
  [.upsert "a.md".toList [paragraph] [] [] true,.rename "a.md".toList "b.md".toList,
   .upsert "b.md".toList [paragraph,{content := "World".toList}] [] [] true]

/-- A note is written and renamed, and its text is written again under the old name. -/
def copiedNote : List DocumentStep :=
  [.upsert "a.md".toList [paragraph] [] [] true,.rename "a.md".toList "b.md".toList,
   .upsert "a.md".toList [paragraph] [] [] true]

theorem renamedNote_faithful :
    Faithful (DocumentStep.run renamedNote ({} : Store Nat)).chunks
      (DocumentStep.allExpected renamedNote fun _ => []) := by
  refine DocumentStep.faithful_run ⟨⟨?_,?_⟩,trivial,⟨?_,?_⟩,trivial⟩ <;> decide +kernel

/-- The row of the renamed note is taken over by the new one. -/
theorem copiedNote_takes_over :
    ¬ Faithful (DocumentStep.run copiedNote ({} : Store Nat)).chunks
      (DocumentStep.allExpected copiedNote fun _ => []) := by
  intro faithful
  have empty : rowsOf (DocumentStep.run copiedNote ({} : Store Nat)).chunks "b.md".toList = [] := by
    decide +kernel
  have holds := faithful.holds "b.md".toList
  rw [Holds,empty] at holds
  exact absurd holds (by decide +kernel)

end LocalBook.Rag
