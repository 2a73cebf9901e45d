import LocalBook.Rag.Search
import LocalBook.Rag.Syncing

/-! The stack of one Vault over changes of the RAG settings. The tables are those of the derived
database and outlive a stack; the paths that wait for a flush do not. -/
namespace LocalBook.Rag

section rebuilding

variable {α : Type} [Host] (settings : Settings) (provider : Provider α)

omit [Host] in
def storedBy (embed : List Text → Except Text (Batch α)) (batches : List (List Chunk)) : Nat :=
  (batches.map fun window =>
    match embed (window.map fun chunk => chunk.piece.embeddingText) with
    | .ok batch => if batch.vectors.length = window.length then window.length else 0
    | .error _ => 0).sum

omit [Host] in
/-- `_embed_pending`, which makes so many passes at most. -/
def embedPending : Nat → Store α → Store α
  | 0,store => store
  | passes + 1,store =>
    match provider with
    | none => store
    | some embed =>
      let size := max 1 settings.batchSize
      let chunks := store.chunksWithoutEmbeddings (size * 8) settings.model settings.version
      if chunks = [] then store
      else
        let known := reusable settings store chunks
        let pending := chunks.filter fun chunk => known.find chunk.chunkId ≠ some chunk.hash
        let after := embedChunks settings provider store chunks known
        if storedBy embed (windows size pending.length pending) = 0 then after
        else embedPending passes after

/-- What goes wrong in a full rebuild: the tables are not there, or an error after so many
notes. -/
inductive RebuildFault where
  | unavailable
  | raises (notes : Nat)
deriving DecidableEq

/-- `_markdown_paths`, of the paths in the Vault. -/
def markdownPaths (listed : List Text) : List Text :=
  (listed.filter fun path => isMarkdown path).insertionSort fun a b =>
    Host.casefold a ≤ Host.casefold b

omit [Host] in
def reindexAll (files : Files) (paths : List Text) (store : Store α) : Store α :=
  paths.foldl (fun store path => reindexDocument settings none files store path false false) store

omit [Host] in
/-- `rebuild`; the stack survives its errors. -/
def rebuild (fault : Option RebuildFault) (passes : Nat) (files : Files) (paths : List Text)
    (store : Store α) : Store α :=
  match fault with
  | some .unavailable => store
  | some (.raises notes) => reindexAll settings files (paths.take notes) store.reset
  | none => embedPending settings provider passes (reindexAll settings files paths store.reset)

end rebuilding

structure StackSettings extends Settings where
  enabled : Bool := true
  indexOnStartup : Bool := false

structure Stack where
  settings : StackSettings
  pendingPaths : List Text := []

/-- The Vault, with the paths in it, the derived database and the running stack. -/
structure VaultStack (α : Type) where
  files : Files := fun _ => none
  listed : List Text := []
  store : Store α := {}
  stack : Option Stack := none

/-- How the start of a stack goes: whether it can be made at all, whether the derived index is still
being built, the vector column of the saved state, and the full rebuild. -/
structure StackStart (α : Type) where
  works : Bool := true
  building : Bool := false
  column : Option Nat := none
  fault : Option RebuildFault := none
  passes : Nat := 0
  provider : Provider α := none

/-- A note event or a flush, new RAG settings, or the end of the indexing in the background. -/
inductive StackStep (α : Type) where
  | note (event : FileStep α)
  | reconfigure (settings : Option StackSettings) (start : StackStart α)
  | finishIndex (start : StackStart α)

namespace VaultStack

variable {α : Type} [Host] (w : VaultStack α)

/-- What the running stack works on; the paths of no stack wait nowhere. -/
def world : NoteWorld α where
  files := w.files
  service := {
    store := w.store
    pendingPaths := (w.stack.map Stack.pendingPaths).getD []}

omit [Host] in
def filesAfter (files : Files) : FileStep α → Files
  | .write path data => Function.update files path (some data)
  | .remove path => Function.update files path none
  | .rename oldPath newPath _ =>
    if FileStep.Renames files oldPath newPath then FileStep.moved files oldPath newPath else files
  | .flush _ => files

omit [Host] in
def listedAfter (files : Files) (listed : List Text) : FileStep α → List Text
  | .write path _ => if path ∈ listed then listed else path :: listed
  | .remove path => listed.erase path
  | .rename oldPath newPath _ =>
    if FileStep.Renames files oldPath newPath then newPath :: (listed.erase oldPath).erase newPath
    else listed
  | .flush _ => listed

def note (event : FileStep α) : VaultStack α :=
  match w.stack with
  | none => {w with
      files := filesAfter w.files event
      listed := listedAfter w.files w.listed event}
  | some stack =>
    let after := FileStep.step stack.settings.toSettings w.world event
    {files := after.files
     listed := listedAfter w.files w.listed event
     store := after.service.store
     stack := some {stack with pendingPaths := after.service.pendingPaths}}

def rebuilt (settings : StackSettings) (start : StackStart α) (store : Store α) : Store α :=
  rebuild settings.toSettings start.provider start.fault start.passes w.files
    (markdownPaths w.listed) store

def started (settings : Option StackSettings) (start : StackStart α) : Option StackSettings :=
  settings.filter fun settings => settings.enabled && start.works

/-- `reconfigure_rag`: what waits in the old stack is dropped with it. -/
def reconfigure (settings : Option StackSettings) (start : StackStart α) : VaultStack α :=
  match started settings start with
  | none => {w with stack := none}
  | some settings =>
    let store := {w.store with
      embeddingColumn := start.column
      idCache := []}
    {w with
      store := if settings.indexOnStartup && !start.building then w.rebuilt settings start store
        else store
      stack := some {settings}}

/-- The end of `_finish_background_index`. -/
def finishIndex (start : StackStart α) : VaultStack α :=
  match w.stack with
  | none => w
  | some stack =>
    if stack.settings.indexOnStartup then
      {w with store := w.rebuilt stack.settings start w.store}
    else w

def step (w : VaultStack α) : StackStep α → VaultStack α
  | .note event => w.note event
  | .reconfigure settings start => w.reconfigure settings start
  | .finishIndex start => w.finishIndex start

def run (steps : List (StackStep α)) (w : VaultStack α) : VaultStack α := steps.foldl step w

def Touches : FileStep α → Prop
  | .write path _ => isMarkdown path = true
  | .remove path => isMarkdown path = true
  | .rename oldPath newPath _ => isMarkdown oldPath = true ∨ isMarkdown newPath = true
  | .flush _ => False

abbrev Basis := (Text → List Piece) → Prop

def afterRebuild (settings : StackSettings) (start : StackStart α) (before : Basis) : Basis :=
  match start.fault with
  | none => fun segment => segment = settings.segment
  | some .unavailable => before
  | some (.raises _) => fun _ => False

/-- Whether nothing is lost for a stack that segments so: every note event has had a receiver, what
waited was not dropped, and no stack has segmented otherwise, since the last full rebuild. -/
def nothingLost (w : VaultStack α) (before : Basis) : StackStep α → Basis
  | .note event => fun segment => before segment ∧ (w.stack = none → ¬ Touches event)
  | .reconfigure settings start =>
    let kept : Basis := fun segment =>
      before segment ∧ ∀ stack,w.stack = some stack → stack.pendingPaths = []
    match started settings start with
    | none => kept
    | some settings =>
      let kept : Basis := fun segment => kept segment ∧ segment = settings.segment
      if settings.indexOnStartup && !start.building then afterRebuild settings start kept else kept
  | .finishIndex start =>
    match w.stack with
    | none => before
    | some stack =>
      if stack.settings.indexOnStartup then afterRebuild stack.settings start before else before

def RebuildConforms (settings : Settings) (files : Files) : List Text → Store α → Prop
  | [],_ => True
  | path :: rest,store =>
    (∀ data text,files path = some data → decodeUtf8 data = some text →
      Unclaimed store.chunks path (settings.segment text)) ∧
    RebuildConforms settings files rest
      (reindexDocument settings none files store path false false)

def Conforms (texts : Text → Prop) (w : VaultStack α) : StackStep α → Prop
  | .note event =>
    match w.stack with
    | some stack => FileStep.Conforms stack.settings.toSettings texts w.world event
    | none => ∀ path data text,event = .write path data → decodeUtf8 data = some text → texts text
  | .reconfigure settings start => ∀ settings',started settings start = some settings' →
      (settings'.indexOnStartup && !start.building) = true → start.fault = none →
      RebuildConforms settings'.toSettings w.files (markdownPaths w.listed) w.store.reset
  | .finishIndex start => ∀ stack,w.stack = some stack →
      stack.settings.indexOnStartup = true → start.fault = none →
      RebuildConforms stack.settings.toSettings w.files (markdownPaths w.listed) w.store.reset

/-- The steps conform, and at the end nothing is lost for these segments. -/
def Keeps (texts : Text → Prop) (segment : Text → List Piece) :
    List (StackStep α) → VaultStack α → Basis → Prop
  | [],_,kept => kept segment
  | s :: rest,w,kept => Conforms texts w s ∧ Keeps texts segment rest (w.step s) (nothingLost w kept s)

variable {w} {texts : Text → Prop} {kept : Basis} {store : Store α} {pieces : Text → List Piece}
  {files : Files}

omit [Host] in
theorem known_congr {settings settings' : Settings} (known : Known settings texts store pieces)
    (same : settings.segment = settings'.segment) : Known settings' texts store pieces :=
  ⟨known.tracks,known.owned,fun path hash stored => same ▸ known.hashes path hash stored⟩

omit [Host] in
theorem contents_congr {settings settings' : Settings} (same : settings.segment = settings'.segment)
    (files : Files) (path : Text) : contents settings files path = contents settings' files path := by
  unfold contents
  rw [same]

theorem synced_congr {settings settings' : Settings} {w : NoteWorld α}
    (synced : FileStep.Synced settings texts w pieces)
    (same : settings.segment = settings'.segment) : FileStep.Synced settings' texts w pieces where
  known := known_congr synced.known same
  met := synced.met
  markdown := synced.markdown
  current := by
    intro path flushed
    rw [synced.current path flushed,target,target,contents_congr same]

omit [Host] in
theorem embeds_embedPending (settings : Settings) (provider : Provider α) (passes : Nat)
    (store : Store α) : Embeds store (embedPending settings provider passes store) := by
  induction passes generalizing store with
  | zero => exact Embeds.refl store
  | succ passes ih =>
    unfold embedPending
    split
    · exact Embeds.refl store
    · dsimp only
      split
      · exact Embeds.refl store
      · split
        · exact embeds_embedChunks ..
        · exact (embeds_embedChunks ..).trans (ih _)

omit [Host] in
theorem known_reindexOne {settings : Settings} {path : Text}
    (known : Known settings texts store pieces) (met : Texts texts files)
    (fresh : pieces path = [])
    (conforms : ∀ data text,files path = some data → decodeUtf8 data = some text →
      Unclaimed store.chunks path (settings.segment text)) :
    Known settings texts (reindexDocument settings none files store path false false)
      (Function.update pieces path (contents settings files path)) := by
  have idle : Function.update pieces path [] = pieces := by
    rw [← fresh,Function.update_eq_self]
  unfold reindexDocument contents
  cases read : files path with
  | none =>
    dsimp only [Option.bind_none]
    rw [idle]
    exact known
  | some data =>
    dsimp only [Option.bind_some]
    cases decoded : decodeUtf8 data with
    | none =>
      dsimp only
      rw [idle]
      exact known.embeds (embeds_markDocumentFailed _ _ _)
    | some text =>
      dsimp only
      split
      · rename_i empty
        rw [chunkDocument_eq_nil.mp empty]
        exact known.delete path
      · rename_i some_
        rw [if_neg Bool.false_ne_true]
        exact known.upsert (met path data text read decoded) some_ (conforms data text read decoded) _ _

omit [Host] in
theorem known_reindexAll {settings : Settings} {paths : List Text}
    (known : Known settings texts store pieces) (met : Texts texts files) (distinct : paths.Nodup)
    (fresh : ∀ path ∈ paths,pieces path = [])
    (conforms : RebuildConforms settings files paths store) :
    ∃ pieces',Known settings texts (reindexAll settings files paths store) pieces' ∧
      (∀ path ∈ paths,pieces' path = contents settings files path) ∧
      ∀ path,path ∉ paths → pieces' path = pieces path := by
  induction paths generalizing store pieces with
  | nil => exact ⟨pieces,known,by simp,fun _ _ => rfl⟩
  | cons path rest ih =>
    obtain ⟨alone,others⟩ := List.nodup_cons.mp distinct
    have first := known_reindexOne known met (fresh path List.mem_cons_self) conforms.1
    obtain ⟨pieces',later,done,untouched⟩ := ih first others (by
      intro other member
      rw [Function.update_of_ne (fun same : other = path => alone (same ▸ member))]
      exact fresh other (List.mem_cons_of_mem _ member)) conforms.2
    refine ⟨pieces',later,fun other member => ?_,fun other missing => ?_⟩
    · rcases List.mem_cons.mp member with rfl | member
      · rw [untouched other alone,Function.update_self]
      · exact done other member
    · obtain ⟨apart,absent⟩ := not_or.mp (mt List.mem_cons.mpr missing)
      rw [untouched other absent,Function.update_of_ne apart]

/-- What holds between two steps: the tables and what waits account for every note, as long as
nothing is lost. -/
structure Follows (texts : Text → Prop) (w : VaultStack α) (kept : Basis) : Prop where
  met : Texts texts w.files
  listed : ∀ path,path ∈ w.listed ↔ w.files path ≠ none
  distinct : w.listed.Nodup
  markdown : ∀ stack,w.stack = some stack → ∀ path ∈ stack.pendingPaths,isMarkdown path = true
  running : ∀ stack,w.stack = some stack → ∀ segment,kept segment → segment = stack.settings.segment
  synced : ∀ settings : Settings,kept settings.segment →
    ∃ pieces,FileStep.Synced settings texts w.world pieces

theorem synced_rebuilt (store : Store α) {settings : StackSettings} {start : StackStart α}
    (follows : Follows texts w kept) (complete : start.fault = none)
    (conforms : RebuildConforms settings.toSettings w.files (markdownPaths w.listed) store.reset)
    {pending : List Text} (markdown : ∀ path ∈ pending,isMarkdown path = true) :
    ∃ pieces,FileStep.Synced settings.toSettings texts
      {files := w.files,service := ⟨w.rebuilt settings start store,pending⟩} pieces := by
  have distinct : (markdownPaths w.listed).Nodup :=
    (List.perm_insertionSort _ _).nodup_iff.mpr (follows.distinct.filter _)
  have member : ∀ path,path ∈ markdownPaths w.listed ↔
      w.files path ≠ none ∧ isMarkdown path = true := by
    intro path
    rw [markdownPaths,List.mem_insertionSort,List.mem_filter,follows.listed]
  have empty : Known settings.toSettings texts store.reset fun _ => [] :=
    FileStep.known_empty rfl rfl rfl rfl
  obtain ⟨pieces,known,done,untouched⟩ :=
    known_reindexAll empty follows.met distinct (fun _ _ => rfl) conforms
  refine ⟨pieces,?_,follows.met,markdown,fun path _ => ?_⟩
  · simp only [rebuilt,rebuild,complete]
    exact known.embeds (embeds_embedPending ..)
  · change pieces path =
      if isMarkdown path then contents settings.toSettings w.files path else []
    by_cases note : isMarkdown path = true
    · rw [if_pos note]
      by_cases there : w.files path = none
      · rw [untouched path (fun found => ((member path).mp found).1 there),contents,there]
        rfl
      · exact done path ((member path).mpr ⟨there,note⟩)
    · rw [if_neg note]
      exact untouched path fun found => note ((member path).mp found).2

omit [Host] in
theorem listed_after {listed : List Text} (follows : ∀ path,path ∈ listed ↔ files path ≠ none)
    (distinct : listed.Nodup) (event : FileStep α) :
    (∀ path,path ∈ listedAfter files listed event ↔ filesAfter files event path ≠ none) ∧
      (listedAfter files listed event).Nodup := by
  cases event with
  | write written data =>
    simp only [listedAfter,filesAfter,Function.update_apply]
    by_cases there : written ∈ listed
    · rw [if_pos there]
      refine ⟨fun path => ?_,distinct⟩
      by_cases same : path = written
      · simp [same,there]
      · rw [if_neg same,follows]
    · rw [if_neg there]
      refine ⟨fun path => ?_,List.nodup_cons.mpr ⟨there,distinct⟩⟩
      by_cases same : path = written
      · simp [same]
      · rw [if_neg same,List.mem_cons,follows]
        simp [same]
  | remove removed =>
    simp only [listedAfter,filesAfter,Function.update_apply]
    refine ⟨fun path => ?_,distinct.erase removed⟩
    rw [distinct.mem_erase_iff,follows]
    by_cases same : path = removed <;> simp [same]
  | rename oldPath newPath provider =>
    simp only [listedAfter,filesAfter]
    by_cases renames : FileStep.Renames files oldPath newPath
    · simp only [if_pos renames,FileStep.moved]
      have once := distinct.erase oldPath
      refine ⟨fun path => ?_,List.nodup_cons.mpr
        ⟨fun found => (once.mem_erase_iff.mp found).1 rfl,once.erase newPath⟩⟩
      rw [List.mem_cons,once.mem_erase_iff,distinct.mem_erase_iff,follows,Function.update_apply,
        Function.update_apply]
      by_cases old : path = oldPath
      · subst old
        simp [renames.1]
      · by_cases new : path = newPath
        · simp [new,renames.2.2.2]
          intro same
          exact absurd (new.trans same) old
        · simp [old,new]
    · simp only [if_neg renames]
      exact ⟨follows,distinct⟩
  | flush provider => exact ⟨follows,distinct⟩

theorem files_step (settings : Settings) (w : NoteWorld α) (event : FileStep α) :
    (FileStep.step settings w event).files = filesAfter w.files event := by
  cases event with
  | write => rfl
  | remove => rfl
  | flush => rfl
  | rename oldPath newPath provider =>
    simp only [FileStep.step,filesAfter]
    split <;> rfl

omit [Host] in
theorem texts_after {event : FileStep α} (met : Texts texts files)
    (written : ∀ path data text,event = .write path data → decodeUtf8 data = some text → texts text) :
    Texts texts (filesAfter files event) := by
  intro path data text read decoded
  cases event with
  | write target bytes =>
    simp only [filesAfter,Function.update_apply] at read
    split at read
    · obtain rfl := Option.some.inj read
      exact written target _ text rfl decoded
    · exact met path data text read decoded
  | remove target =>
    simp only [filesAfter,Function.update_apply] at read
    split at read
    · cases read
    · exact met path data text read decoded
  | rename oldPath newPath provider =>
    simp only [filesAfter] at read
    split at read
    · simp only [FileStep.moved,Function.update_apply] at read
      split at read
      · cases read
      · split at read
        · exact met oldPath data text read decoded
        · exact met path data text read decoded
    · exact met path data text read decoded
  | flush provider => exact met path data text read decoded

theorem markdown_step {settings : Settings} {w : NoteWorld α} {event : FileStep α}
    (markdown : ∀ path ∈ w.service.pendingPaths,isMarkdown path = true) :
    ∀ path ∈ (FileStep.step settings w event).service.pendingPaths,isMarkdown path = true := by
  have changed : ∀ path data,∀ other ∈ (FileStep.change settings w path data).service.pendingPaths,
      isMarkdown other = true := by
    intro path data other member
    simp only [FileStep.change,handleEvent] at member
    split at member
    · rename_i note
      rcases List.mem_cons.mp member with rfl | member
      · exact note
      · exact markdown other (List.mem_of_mem_erase member)
    · exact markdown other member
  intro path member
  cases event with
  | write target data => exact changed target _ path member
  | remove target => exact changed target _ path member
  | rename oldPath newPath provider =>
    simp only [FileStep.step,handleEvent] at member
    split at member
    · split at member
      · exact markdown path member
      · exact markdown path (List.mem_of_mem_erase member)
    · exact markdown path member
  | flush provider => simp [FileStep.step,Rag.flush] at member

theorem synced_untouched {settings : Settings} {event : FileStep α} {service : IndexService α}
    (synced : FileStep.Synced settings texts {files,service} pieces)
    (met : Texts texts (filesAfter files event)) (other : ¬ Touches event) :
    FileStep.Synced settings texts {files := filesAfter files event,service} pieces := by
  refine ⟨synced.known,met,synced.markdown,fun path flushed => ?_⟩
  rw [synced.current path flushed]
  by_cases note : isMarkdown path = true
  · apply FileStep.target_of_eq
    cases event with
    | write target data =>
      have apart : path ≠ target := fun same => other (same ▸ note)
      simp [filesAfter,apart]
    | remove target =>
      have apart : path ≠ target := fun same => other (same ▸ note)
      simp [filesAfter,apart]
    | rename oldPath newPath provider =>
      have old : path ≠ oldPath := fun same => other (.inl (same ▸ note))
      have new : path ≠ newPath := fun same => other (.inr (same ▸ note))
      simp only [filesAfter]
      split
      · simp [FileStep.moved,old,new]
      · rfl
    | flush provider => rfl
  · rw [FileStep.target_of_not_markdown note,FileStep.target_of_not_markdown note]

def HashesApart (texts : Text → Prop) : Prop :=
  ∀ a b,texts a → texts b → contentHash a = contentHash b → a = b

theorem follows_note {event : FileStep α} (follows : Follows texts w kept)
    (apart : HashesApart texts) (conforms : Conforms texts w (.note event)) :
    Follows texts (w.note event) (nothingLost w kept (.note event)) := by
  obtain ⟨listed,distinct⟩ := listed_after follows.listed follows.distinct event
  unfold note
  cases running : w.stack with
  | none =>
    simp only [Conforms,running] at conforms
    have met := texts_after follows.met conforms
    dsimp only
    refine ⟨met,listed,distinct,nofun,nofun,?_⟩
    rintro settings ⟨before,untouched⟩
    obtain ⟨pieces,synced⟩ := follows.synced settings before
    simp only [world,running,Option.map_none,Option.getD_none] at synced ⊢
    exact ⟨pieces,synced_untouched synced met (untouched running)⟩
  | some stack =>
    simp only [Conforms,running] at conforms
    have files := files_step stack.settings.toSettings w.world event
    have met : Texts texts (FileStep.step stack.settings.toSettings w.world event).files := by
      rw [files]
      apply texts_after follows.met
      intro path data text same decoded
      subst same
      exact conforms text decoded
    dsimp only
    refine ⟨met,?_,distinct,?_,?_,?_⟩
    · dsimp only
      rw [files]
      exact listed
    · intro other here
      obtain rfl := Option.some.inj here
      apply markdown_step
      simp only [world,running,Option.map_some,Option.getD_some]
      exact follows.markdown stack running
    · intro other here segment lasts
      obtain rfl := Option.some.inj here
      exact follows.running stack running segment lasts.1
    · rintro settings ⟨before,-⟩
      have same := follows.running stack running _ before
      obtain ⟨pieces,synced⟩ := follows.synced settings before
      obtain ⟨pieces',later⟩ := FileStep.synced_step (synced_congr synced same)
        (fun a b seen seen' equal => congrArg stack.settings.segment (apart a b seen seen' equal))
        conforms
      exact ⟨pieces',synced_congr later same.symm⟩

theorem synced_kept {settings : Settings} (follows : Follows texts w kept)
    (before : kept settings.segment)
    (idle : ∀ stack,w.stack = some stack → stack.pendingPaths = []) (embeds : Embeds w.store store) :
    ∃ pieces,FileStep.Synced settings texts {files := w.files,service := ⟨store,[]⟩} pieces := by
  have empty : (w.stack.map Stack.pendingPaths).getD [] = [] := by
    cases running : w.stack with
    | none => rfl
    | some stack => exact idle stack running
  obtain ⟨pieces,synced⟩ := follows.synced settings before
  simp only [world,empty] at synced
  exact ⟨pieces,synced.known.embeds embeds,synced.met,synced.markdown,synced.current⟩

theorem follows_reconfigure {settings : Option StackSettings} {start : StackStart α}
    (follows : Follows texts w kept) (conforms : Conforms texts w (.reconfigure settings start)) :
    Follows texts (w.reconfigure settings start) (nothingLost w kept (.reconfigure settings start)) := by
  simp only [Conforms] at conforms
  simp only [reconfigure,nothingLost]
  cases begins : started settings start with
  | none =>
    dsimp only
    refine ⟨follows.met,follows.listed,follows.distinct,nofun,nofun,?_⟩
    rintro settings ⟨before,idle⟩
    exact synced_kept (w := w) follows before idle (Embeds.refl _)
  | some settings =>
    have opened : Embeds w.store {w.store with
        embeddingColumn := start.column
        idCache := []} :=
      ⟨rfl,fun _ => rfl,fun owned => ⟨owned.embeddings,owned.fts⟩⟩
    have conforms := conforms settings begins
    dsimp only
    refine ⟨follows.met,follows.listed,follows.distinct,?_,?_,?_⟩
    · intro stack here path member
      obtain rfl := Option.some.inj here
      cases member
    · intro stack here segment
      obtain rfl := Option.some.inj here
      dsimp only
      split
      · unfold afterRebuild
        rcases start.fault with _ | _ | notes
        · exact id
        · exact And.right
        · exact False.elim
      · exact And.right
    · intro settings'
      dsimp only [world,Option.map_some,Option.getD_some]
      split
      · rename_i rebuilds
        unfold afterRebuild
        rcases fault : start.fault with _ | _ | notes
        · intro same
          obtain ⟨pieces,synced⟩ := synced_rebuilt {w.store with
              embeddingColumn := start.column
              idCache := []} follows fault (conforms rebuilds fault)
            (fun _ member => absurd member List.not_mem_nil)
          exact ⟨pieces,synced_congr synced same.symm⟩
        · rintro ⟨⟨before,idle⟩,-⟩
          simp only [rebuilt,rebuild,fault]
          exact synced_kept follows before idle opened
        · exact False.elim
      · rintro ⟨⟨before,idle⟩,-⟩
        exact synced_kept follows before idle opened

theorem follows_finishIndex {start : StackStart α} (follows : Follows texts w kept)
    (conforms : Conforms texts w (.finishIndex start)) :
    Follows texts (w.finishIndex start) (nothingLost w kept (.finishIndex start)) := by
  simp only [Conforms] at conforms
  simp only [finishIndex,nothingLost]
  cases running : w.stack with
  | none =>
    dsimp only
    exact follows
  | some stack =>
    have conforms := conforms stack running
    dsimp only
    split
    · rename_i rebuilds
      refine ⟨follows.met,follows.listed,follows.distinct,fun other here =>
        follows.markdown other (running.trans here),?_,?_⟩
      · intro other here segment
        obtain rfl := Option.some.inj here
        unfold afterRebuild
        rcases start.fault with _ | _ | notes
        · exact id
        · exact follows.running stack running segment
        · exact False.elim
      · intro settings
        unfold afterRebuild
        rcases fault : start.fault with _ | _ | notes
        · intro same
          obtain ⟨pieces,synced⟩ := synced_rebuilt w.store follows fault
            (conforms rebuilds fault)
            (follows.markdown stack running)
          exact ⟨pieces,synced_congr synced same.symm⟩
        · intro before
          simpa only [world,rebuilt,rebuild,fault,running] using follows.synced settings before
        · exact False.elim
    · exact follows

theorem follows_step {s : StackStep α} (follows : Follows texts w kept) (apart : HashesApart texts)
    (conforms : Conforms texts w s) : Follows texts (w.step s) (nothingLost w kept s) := by
  cases s with
  | note event => exact follows_note follows apart conforms
  | reconfigure settings start => exact follows_reconfigure follows conforms
  | finishIndex start => exact follows_finishIndex follows conforms

theorem follows_run {segment : Text → List Piece} {steps : List (StackStep α)}
    (follows : Follows texts w kept) (apart : HashesApart texts)
    (keeps : Keeps texts segment steps w kept) :
    ∃ kept',Follows texts (run steps w) kept' ∧ kept' segment := by
  induction steps generalizing w kept with
  | nil => exact ⟨kept,follows,keeps⟩
  | cons s rest ih => exact ih (follows_step follows apart keeps.1) keeps.2

theorem follows_start : Follows texts ({} : VaultStack α) fun _ => True := by
  refine ⟨by simp [Texts],by simp,List.nodup_nil,nofun,nofun,fun settings _ => ⟨fun _ => [],?_⟩⟩
  refine ⟨FileStep.known_empty rfl rfl rfl rfl,by simp [world,Texts],by simp [world],fun path _ => ?_⟩
  simp [target,contents,world]

end VaultStack

section switches

open scoped AsciiHost

def wholeStack : StackSettings := {wholeTexts with}

def heardNote : List (StackStep Nat) :=
  [.reconfigure (some wholeStack) {},.note (.write "a.md".toList (encodeUtf8 greeting))] ++
    [.note (.flush none)]

theorem heardNote_keeps : VaultStack.Keeps (fun text => text = greeting) wholeStack.segment
    heardNote {} fun _ => True := by
  refine ⟨?_,fun text decoded => ?_,?_,⟨⟨⟨trivial,?_⟩,rfl⟩,?_⟩,?_⟩
  · intro settings begins rebuilds
    obtain rfl : wholeStack = settings := Option.some.inj begins
    cases rebuilds
  · exact Option.some.inj (decoded.symm.trans decodeUtf8_greeting)
  · have waiting : (VaultStack.run [.reconfigure (some wholeStack) {},
        .note (.write "a.md".toList (encodeUtf8 greeting))]
        ({} : VaultStack Nat)).world.service.pendingPaths = ["a.md".toList] := by decide +kernel
    change FlushConforms _ _ _ (List.insertionSort (fun a b : Text => a ≤ b)
      (VaultStack.run [.reconfigure (some wholeStack) {},
        .note (.write "a.md".toList (encodeUtf8 greeting))]
        ({} : VaultStack Nat)).world.service.pendingPaths) _
    rw [waiting]
    refine ⟨fun data read => ?_,trivial⟩
    have written : Function.update (fun _ => none : Files) "a.md".toList
      (some (encodeUtf8 greeting)) "a.md".toList = some data := read
    obtain rfl : encodeUtf8 greeting = data := by
      simpa using written
    rw [Indexable,decodeUtf8_greeting]
    exact .inr ⟨by decide +kernel,fun row found => absurd found List.not_mem_nil⟩
  · intro stack running
    exact absurd running.symm (Option.some_ne_none _)
  · intro gone
    exact absurd gone (Option.some_ne_none _)
  · intro gone
    exact absurd gone (Option.some_ne_none _)

/-- A note is written, and the settings change before it is flushed. -/
def droppedNote : List (StackStep Nat) :=
  [.reconfigure (some wholeStack) {},.note (.write "a.md".toList (encodeUtf8 greeting)),
    .reconfigure (some wholeStack) {},.note (.flush none)]

end switches

end LocalBook.Rag
