import LocalBook.Relying
import LocalBook.Vault.Overwriting

/-! Uploads among other creators. A name may be taken after the body has been read once, so a
further attempt needs the body again: content and readers are replayed, an iterator is spent. -/
namespace LocalBook.Vault

open Effect

/-- What an upload is given: the whole content, a reader, or chunks that are handed out once. -/
inductive Body where
  | whole (data : Bytes)
  | reader (chunks : List Bytes)
  | iterable (chunks : List Bytes)

namespace Body

def upload : Body → Upload
  | .whole data => .content data
  | .reader chunks => .stream chunks
  | .iterable chunks => .stream chunks

def data (body : Body) : Bytes := body.upload.data

end Body

namespace VaultService

variable (v : VaultService)

def createBody (body : Body) (replayed : Bool) (target : Path) : Fs (Text × Nat) :=
  match body with
  | .whole data => v.createUpload (.content data) replayed target
  | .reader chunks => v.createUpload (.stream chunks) replayed target
  | .iterable chunks =>
    atomicCreateStream target (if replayed then [] else chunks) replayed v.maxFileBytes

/-- The `try` block of one attempt. -/
def storeBody (body : Body) (replayed : Bool) (displayName directory : Text)
    (directoryPath : Path) (relative : Text) : Fs UploadReceipt := do
  let stored ← v.createBody body replayed (relativeParts relative)
  liftM (uploadReceipt displayName directory directoryPath relative stored)

def bodyLoop [Host] (body : Body) (displayName directory : Text) (directoryPath : Path) :
    Nat → Bool → List Text → Exc → Fs UploadReceipt
  | 0, _, _, lastError => Proc.throw lastError
  | attempts + 1, replayed, taken, _ => do
    let (relative,free) ← liftM (chooseName displayName directory directoryPath taken)
    let name := (relativeParts relative).getLastD []
    if free then
      retryOnCollision
        (v.storeBody body replayed displayName directory directoryPath relative) fun reason =>
          bodyLoop body displayName directory directoryPath attempts true (name :: taken)
            (nameCollision relative reason)
    else
      bodyLoop body displayName directory directoryPath attempts replayed (name :: taken)
        (alreadyExists relative)

omit v in
theorem names_trans : IsTrans Text (· ≤ ·) := inferInstance

omit v in
theorem names_antisymm : Std.Antisymm (α := Text) (· ≤ ·) := inferInstance

omit v in
theorem names_total : Std.Total (α := Text) (· ≤ ·) := inferInstance

abbrev inOrder (names : Finset Text) : List Text :=
  @Finset.sort Text names (· ≤ ·) inferInstance names_trans names_antisymm names_total

/-- `upload_attachment_bytes` and `upload_attachment_stream`. -/
def uploadBody [Host] (body : Body) (originalName targetDirectory : Text) : Fs UploadReceipt := do
  let (directory,directoryPath,existing) ←
    liftM (v.uploadChecks body.upload originalName targetDirectory)
  liftM (refuseSymlinks directory directoryPath (inOrder existing))
  v.bodyLoop body (Text.strip originalName) directory directoryPath attachmentNameRetries
    false (inOrder existing) alreadyExists

end VaultService

/-- Other programs create names, and leave every name there is and the temporary files alone. -/
structure Creates (d d' : Disk) : Prop where
  names : ∀ p node,d.tree.get p = some node → d'.tree.get p = some node
  temps : ∀ token temp,d.temp? token = some temp → d'.temp? token = some temp

def MadeNew (events : List (Event FsOp Disk)) (target : Path) (data : Bytes) : Prop :=
  ∃ e ∈ events,e.before.tree.get target = none ∧
    (e.op.step e.before).2.tree.get target = some (.file data)

/-- The upload stored its body under a name that did not exist, and says so. -/
def Kept (data : Bytes) (events : List (Event FsOp Disk)) (receipt : UploadReceipt)
    (d : Disk) : Prop :=
  MadeNew events (relativeParts receipt.path) data ∧
    d.tree.get (relativeParts receipt.path) = some (.file data) ∧
    receipt.sha256 = some (sha256Bytes data) ∧ receipt.byteLength = some data.size

section Filling

variable {d : Disk} {token : Nat} {parent target : Path} {content data : Bytes}

abbrev Among (p : Fs α) (d : Disk)
    (Q : List (Event FsOp Disk) → Except Exc α → Disk → Prop) : Prop :=
  Relies FsOp.step Creates p d Q

def Holds (token : Nat) (parent : Path) (content : Bytes) (d : Disk) : Prop :=
  d.temp? token = some ⟨token,parent,content⟩

def Still (op : FsOp) : Prop := ∀ d : Disk,(op.step d).2 = d

def Apart (op : FsOp) : Prop := ∀ d : Disk,(op.step d).2.tree = d.tree

theorem Still.apart {op : FsOp} (still : Still op) : Apart op :=
  fun d => congrArg Disk.tree (still d)

theorem apart_unlinkTemp (token : Nat) : Apart (.unlinkTemp token) := by
  intro d
  simp only [FsOp.step,Disk.unlinkTemp]
  split <;> rfl

theorem still_call {op : FsOp} (still : Still op) :
    Every Still (Proc.perform op : Fs op.Res) := every_perform still

theorem still_look (p : Look α) : Every Still (liftM p : Fs α) :=
  (every_any p).lift fun _ _ _ => rfl

theorem Holds.among {p : Fs α} (every : Every Still p) (holds : Holds token parent content d) :
    Among p d fun _ _ t => Holds token parent content t := by
  apply relies_kept every _ _ holds
  · intro op t still here
    rwa [still t]
  · intro t t' creates here
    exact creates.temps _ _ here

def Stands (target : Path) (data : Bytes) (d : Disk) : Prop :=
  d.tree.get target = some (.file data)

theorem Stands.among {p : Fs α} (every : Every Apart p) (stands : Stands target data d) :
    Among p d fun _ _ t => Stands target data t := by
  apply relies_kept every _ _ stands
  · intro op t apart there
    rwa [Stands,apart t]
  · intro t t' creates there
    exact creates.names _ _ there

theorem still_nextChunk (replayed : Bool) : Every Still (nextChunk replayed) := by
  rw [nextChunk]
  split
  · trivial
  · apply (still_look _).bind
    intro received
    cases received <;> trivial

theorem still_writeFailed (result : Except Errno Unit) : Every Still (writeFailed result) := by
  cases result <;> trivial

theorem still_fsyncDirectory (directory : Path) : Every Still (fsyncDirectory directory) := by
  have outcome : ∀ result : Except Errno Unit,Every Still (syncOutcome result) := by
    intro result
    cases result with
    | ok value => trivial
    | error errno => by_cases quiet : tolerated errno <;> simp [syncOutcome,quiet]
  apply (still_call fun _ => rfl).bind
  intro opened
  cases opened with
  | error errno => exact outcome _
  | ok value =>
    exact (still_call fun _ => rfl).bind fun synced =>
      (still_call fun _ => rfl).bind fun _ => outcome synced

theorem apart_discardTemp (token : Nat) : Every Apart (discardTemp token) :=
  (every_perform (apart_unlinkTemp token)).bind fun _ => trivial

theorem holds_openTemp (opened : (d.openTemp parent).1 = .ok token) :
    Holds token parent .empty (d.openTemp parent).2 := by
  rw [Disk.openTemp] at opened ⊢
  split at opened
  · obtain rfl := Except.ok.inj opened
    exact Disk.temp?_addTemp d ⟨Disk.fresh d.temps,parent,.empty⟩
  · cases opened
  · cases opened

theorem Holds.write (holds : Holds token parent content d) (chunk : Bytes) :
    (d.writeTemp token chunk).1 = .ok () ∧
      Holds token parent (content ++ chunk) (d.writeTemp token chunk).2 := by
  have found : d.temp? token = some ⟨token,parent,content⟩ := holds
  rw [Disk.writeTemp,found]
  exact ⟨rfl,Disk.temp?_addTemp (d.dropTemp token) ⟨token,parent,content ++ chunk⟩⟩

theorem among_pour {maxBytes : Nat} {replayed : Bool} (chunks : List Bytes) (total : Nat)
    (holds : Holds token parent content d) :
    Among (pour token maxBytes replayed total chunks) d fun _ result t =>
      result = .ok () → Holds token parent (chunks.foldl (· ++ ·) content) t := by
  induction chunks generalizing total content d with
  | nil => exact (holds.among (still_nextChunk replayed)).mono fun _ _ _ here _ => here
  | cons chunk rest ih =>
    rw [pour]
    apply relies_bind.mpr
    apply (holds.among (still_nextChunk replayed)).mono
    intro events result t here
    cases result with
    | error reason => exact fun impossible => by cases impossible
    | ok value =>
      dsimp only
      split
      · next empty =>
        obtain rfl : chunk = .empty := ByteArray.size_eq_zero_iff.mp empty
        simpa using ih total here
      · split
        · exact fun impossible => by cases impossible
        · intro before creates
          obtain ⟨written,filled⟩ := Holds.write (creates.temps _ _ here) chunk
          change Among (do writeFailed (before.writeTemp token chunk).1; _) _ _
          rw [written]
          exact ih (total + chunk.size) filled

theorem among_fillStream {maxBytes : Nat} {replayed : Bool} (chunks : List Bytes)
    (holds : Holds token parent .empty d) :
    Among (fillStream token maxBytes replayed chunks) d fun _ result t =>
      result = .ok () → Holds token parent (payload chunks) t := by
  rw [fillStream]
  apply relies_bind.mpr
  apply relies_tryCatch.mpr
  apply relies_bind.mpr
  apply (among_pour chunks 0 holds).mono
  intro events poured t filled
  cases poured with
  | error reason => exact fun _ _ impossible => by cases impossible
  | ok value =>
    have rest : Every Still (do writeFailed (← Call.syncTemp token) : Fs Unit) :=
      (still_call fun _ => rfl).bind fun synced => still_writeFailed synced
    apply ((filled rfl).among rest).mono
    intro later synced u here
    cases synced with
    | error reason => exact fun _ _ impossible => by cases impossible
    | ok value =>
      have close : Every Still (do writeFailed (← Call.closeTemp token) : Fs Unit) :=
        (still_call fun _ => rfl).bind fun closed => still_writeFailed closed
      exact (here.among close).mono fun _ _ _ last _ => last

theorem Holds.link (holds : Holds token parent content d)
    (linked : (d.linkTemp token target).1 = .ok ()) :
    d.tree.get target = none ∧
      (d.linkTemp token target).2.tree.get target = some (.file content) := by
  have found : d.temp? token = some ⟨token,parent,content⟩ := holds
  rw [Disk.linkTemp,found] at linked ⊢
  have ok : (d.place target (some (.file content)) (d.occupied target)).1.isOk = true := by
    dsimp only at linked
    rw [linked]
    rfl
  have free := unrefused_of_place ok
  refine ⟨get_of_occupied free,?_⟩
  rw [free] at linked ⊢
  cases walked : d.tree.walk [] target with
  | error errno => simp [Disk.place,walked] at linked
  | ok reached => simp [Disk.place,walked]

theorem MadeNew.after {events : List (Event FsOp Disk)} (created : MadeNew events target data)
    (before : List (Event FsOp Disk)) : MadeNew (before ++ events) target data := by
  obtain ⟨e,member,made⟩ := created
  exact ⟨e,List.mem_append_right _ member,made⟩

theorem MadeNew.before {events : List (Event FsOp Disk)} (created : MadeNew events target data)
    (later : List (Event FsOp Disk)) : MadeNew (events ++ later) target data := by
  obtain ⟨e,member,made⟩ := created
  exact ⟨e,List.mem_append_left _ member,made⟩

theorem Holds.among_link {q : Except Errno Unit → Fs α} {token : Nat}
    (holds : Holds token parent data d) (quiet : ∀ result,Every Apart (q result))
    (refused : ∀ errno,Returns (fun _ => False) (q (.error errno))) :
    Among (do q (← Call.linkTemp token target)) d fun events result t =>
      ∀ value,result = .ok value → MadeNew events target data ∧ Stands target data t := by
  intro before creates
  have here : Holds token parent data before := creates.temps _ _ holds
  change Among (q (before.linkTemp token target).1) (before.linkTemp token target).2 _
  cases linked : (before.linkTemp token target).1 with
  | error errno =>
    apply (relies_of_returns (refused errno) (raises_any _)).mono
    exact fun _ result _ none' value same => (none'.1 value same).elim
  | ok value =>
    obtain ⟨free,stands⟩ := here.link linked
    have last : Stands target data (before.linkTemp token target).2 := stands
    apply (last.among (quiet (.ok value))).mono
    intro events result t there answer _
    exact ⟨⟨_,List.mem_cons_self,free,stands⟩,there⟩

theorem MadeNew.cons {events : List (Event FsOp Disk)} (created : MadeNew events target data)
    (e : Event FsOp Disk) : MadeNew (e :: events) target data := created.after [e]

def Makes (target : Path) (data : Bytes) (create : Fs (Text × Nat)) (d : Disk) : Prop :=
  Among create d fun events result t => ∀ stored,result = .ok stored →
    stored = (sha256Bytes data,data.size) ∧ MadeNew events target data ∧ Stands target data t

def answered (directory : Path) : Except Errno Unit → Fs Unit
  | .ok _ => fsyncDirectory directory
  | .error errno => Proc.throw (linkRefusal errno)

theorem apart_answered (directory : Path) (result : Except Errno Unit) :
    Every Apart (answered directory result) := by
  cases result with
  | error errno => trivial
  | ok value => exact (still_fsyncDirectory directory).mono fun _ => Still.apart

theorem among_stored {maxBytes : Nat} {replayed : Bool} (chunks : List Bytes) (target : Path)
    (holds : Holds token parent .empty d) :
    Among (do
      fillStream token maxBytes replayed chunks
      answered parent (← Call.linkTemp token target)) d fun events result t =>
        ∀ value,result = .ok value →
          MadeNew events target (payload chunks) ∧ Stands target (payload chunks) t := by
  apply relies_bind.mpr
  apply (among_fillStream chunks holds).mono
  intro events filled t full
  cases filled with
  | error reason => exact fun _ impossible => by cases impossible
  | ok value =>
    apply ((full rfl).among_link (apart_answered parent) fun _ => trivial).mono
    intro later result u made answer same
    obtain ⟨created,stands⟩ := made answer same
    exact ⟨created.after events,stands⟩

theorem among_raised {Q : List (Event FsOp Disk) → Except Exc α → Disk → Prop} (p : Fs Unit)
    (reason : Exc) (ends : ∀ events t failure,Q events (.error failure) t) :
    Among (do p; Proc.throw reason) d Q := by
  have none' : Returns (fun _ : α => False) (do p; Proc.throw reason : Fs α) :=
    Returns.last fun _ => trivial
  apply (relies_of_returns none' (raises_any _)).mono
  intro events result t nothing
  cases result with
  | ok value => exact (nothing.1 value rfl).elim
  | error failure => exact ends events t failure

theorem makes_atomicCreateStream {maxBytes : Nat} {replayed : Bool} (chunks : List Bytes)
    (d : Disk) : Makes target (payload chunks)
      (atomicCreateStream target chunks replayed maxBytes) d := by
  rw [Makes,atomicCreateStream]
  refine relies_perform.mpr fun before _ => ?_
  cases opened : (before.openTemp target.dropLast).1 with
  | error errno =>
    simp only [FsOp.step,opened]
    exact fun stored impossible => by cases impossible
  | ok token =>
    have holds := holds_openTemp opened
    simp only [FsOp.step,opened]
    refine relies_bind.mpr (relies_tryCatch.mpr ?_)
    refine (among_stored chunks target holds).mono ?_
    intro events stored t made
    cases stored with
    | error reason =>
      apply among_raised
      exact fun _ _ _ _ impossible => by cases impossible
    | ok value =>
      obtain ⟨created,stands⟩ := made value rfl
      apply relies_bind.mpr
      apply (stands.among (apart_discardTemp token)).mono
      intro later discarded u there
      cases discarded with
      | error reason => exact fun _ impossible => by cases impossible
      | ok value =>
        intro answer same
        refine ⟨(Except.ok.inj same).symm,?_,there⟩
        simpa using ((created.before later).cons _)

theorem among_fillTemp (holds : Holds token parent .empty d) (data : Bytes) :
    Among (fillTemp token data) d fun _ _ t => Holds token parent data t := by
  refine relies_perform.mpr fun before creates => ?_
  have here : Holds token parent .empty before := creates.temps _ _ holds
  obtain ⟨written,filled⟩ := here.write data
  rw [ByteArray.empty_append] at filled
  simp only [FsOp.step,written]
  apply filled.among
  apply (still_call fun _ => rfl).bind
  intro synced
  cases synced with
  | error errno => exact (still_call fun _ => rfl).bind fun _ => trivial
  | ok value => exact still_call fun _ => rfl

theorem among_writeTemp (parent : Path) (data : Bytes) (d : Disk) :
    Among (writeTemp parent data) d fun _ result t =>
      ∀ token,result = .ok token → Holds token parent data t := by
  refine relies_perform.mpr fun before _ => ?_
  cases opened : (before.openTemp parent).1 with
  | error errno =>
    simp only [FsOp.step,opened]
    exact fun token impossible => by cases impossible
  | ok token =>
    simp only [FsOp.step,opened]
    apply relies_bind.mpr
    apply (among_fillTemp (holds_openTemp opened) data).mono
    intro events filled t holds
    cases filled with
    | error reason => exact fun _ impossible => by cases impossible
    | ok answer =>
      cases answer with
      | ok value =>
        intro found same
        obtain rfl := Except.ok.inj same
        exact holds
      | error errno =>
        apply among_raised
        exact fun _ _ _ _ impossible => by cases impossible

theorem makes_atomicCreateBytes (data : Bytes) (replayed : Bool) (v : VaultService) (d : Disk) :
    Makes target data (v.createUpload (.content data) replayed target) d := by
  rw [Makes,VaultService.createUpload,atomicCreateBytes,atomicWriteBytes]
  apply relies_bind.mpr
  apply relies_bind.mpr
  apply (among_writeTemp target.dropLast data d).mono
  intro events prepared t ready
  cases prepared with
  | error reason => exact fun _ impossible => by cases impossible
  | ok token =>
    have holds := ready token rfl
    apply relies_bind.mpr
    apply relies_tryCatch.mpr
    have publishes : Among (do liftM (pure () : Look Unit); publish false token target : Fs Unit) t
        fun events result u => ∀ value,result = .ok value →
          MadeNew events target data ∧ Stands target data u := by
      apply holds.among_link
      · intro result
        apply (apart_discardTemp token).bind
        intro _
        cases result <;> trivial
      · intro errno
        exact Returns.last fun _ => trivial
    apply publishes.mono
    intro events published u made
    cases published with
    | error reason =>
      apply among_raised
      exact fun _ _ _ _ impossible => by cases impossible
    | ok value =>
      obtain ⟨created,stands⟩ := made value rfl
      have syncs : Every Apart (fsyncDirectory target.dropLast) :=
        (still_fsyncDirectory _).mono fun _ => Still.apart
      apply (stands.among syncs).mono
      intro later synced w there
      cases synced with
      | error reason => exact fun _ impossible => by cases impossible
      | ok value =>
        intro answer same
        obtain ⟨e,member,fresh⟩ := created
        exact ⟨(Except.ok.inj same).symm,⟨e,by simp [member],fresh⟩,there⟩

end Filling

structure Fails (p : Fs α) : Prop where
  returns : Returns (fun _ => False) p
  raises : Raises Exc.NoCollision p

section Fails

variable {p : Fs α}

theorem Fails.bind (fails : Fails p) (f : α → Fs β) : Fails (p >>= f) := by
  obtain ⟨returns,raises⟩ := fails
  induction p with
  | done result =>
    cases result with
    | ok value => exact returns.elim
    | error reason => exact ⟨trivial,raises⟩
  | call op next ih =>
    have later := fun response => ih response (returns response) (raises response)
    exact ⟨fun response => (later response).returns,fun response => (later response).raises⟩

theorem fails_last {f : α → Fs β} (raises : Raises Exc.NoCollision p)
    (fails : ∀ value,Fails (f value)) : Fails (p >>= f) :=
  ⟨Returns.last fun value => (fails value).returns,raises.bind fun value => (fails value).raises⟩

theorem Fails.tryCatch {handler : Exc → Fs α} (fails : Fails p)
    (handled : ∀ reason : Exc,reason.NoCollision → Fails (handler reason)) :
    Fails (p.tryCatch handler) := by
  obtain ⟨returns,raises⟩ := fails
  induction p with
  | done result =>
    cases result with
    | ok value => exact returns.elim
    | error reason => exact handled reason raises
  | call op next ih =>
    have later := fun response => ih response (returns response) (raises response)
    exact ⟨fun response => (later response).returns,fun response => (later response).raises⟩

theorem fails_perform {op : FsOp} {f : op.Res → Fs α} (fails : ∀ response,Fails (f response)) :
    Fails (Proc.perform op >>= f) :=
  ⟨fun response => (fails response).returns,fun response => (fails response).raises⟩

theorem fails_throw {reason : Exc} (other : reason.NoCollision) :
    Fails (Proc.throw reason : Fs α) := ⟨trivial,other⟩

end Fails

section Loop

variable {v : VaultService} {body : Body} {d : Disk}

/-- A create that stores the body whenever it succeeds, in every attempt that is reached. -/
structure Replays (v : VaultService) (body : Body) (ready : Bool → Prop) : Prop where
  first : ready false
  again : ∀ replayed,ready replayed → ready true ∨
    ∀ target,Fails (v.createBody body replayed target)
  makes : ∀ replayed,ready replayed → ∀ target d,
    Makes target body.data (v.createBody body replayed target) d

def Delivers (data : Bytes) (p : Fs UploadReceipt) (d : Disk) : Prop :=
  Among p d fun events result t => ∀ receipt,result = .ok receipt → Kept data events receipt t

theorem Delivers.after {p : Fs UploadReceipt} {data : Bytes} (delivers : Delivers data p d)
    (before : List (Event FsOp Disk)) : Among p d fun events result t =>
      ∀ receipt,result = .ok receipt → Kept data (before ++ events) receipt t := by
  apply Relies.mono delivers
  intro events result t stored receipt same
  obtain ⟨created,rest⟩ := stored receipt same
  exact ⟨created.after before,rest⟩

theorem delivers_storeBody {replayed : Bool} {displayName directory relative : Text}
    {directoryPath : Path} (makes : Makes (relativeParts relative) body.data
      (v.createBody body replayed (relativeParts relative)) d) :
    Delivers body.data
      (v.storeBody body replayed displayName directory directoryPath relative) d := by
  rw [Delivers,VaultService.storeBody]
  apply relies_bind.mpr
  apply makes.mono
  intro events created t made
  cases created with
  | error reason => exact fun _ impossible => by cases impossible
  | ok stored =>
    obtain ⟨same,fresh,stands⟩ := made stored rfl
    have told : Returns (fun receipt : UploadReceipt => receipt.path = relative ∧
        receipt.sha256 = some stored.1 ∧ receipt.byteLength = some stored.2)
        (VaultService.uploadReceipt displayName directory directoryPath relative stored) :=
      Returns.last fun _ => Returns.last fun _ => ⟨rfl,rfl,rfl⟩
    have looks := (still_look (VaultService.uploadReceipt displayName directory directoryPath
      relative stored)).mono fun _ => Still.apart
    apply ((stands.among looks).and (relies_of_returns told.lift (raises_any _))).mono
    rintro later result u ⟨there,answered,_⟩ receipt answer
    obtain ⟨path,digest,size⟩ := answered receipt answer
    rw [same] at digest size
    rw [← path] at fresh there
    exact ⟨fresh.before later,there,digest,size⟩

theorem refused_storeBody {replayed : Bool} {displayName directory relative : Text}
    {directoryPath : Path}
    (fails : Fails (v.createBody body replayed (relativeParts relative))) :
    Among (v.storeBody body replayed displayName directory directoryPath relative) d
      fun _ result _ => ∃ reason : Exc,result = .error reason ∧ reason.NoCollision := by
  rw [VaultService.storeBody]
  apply relies_bind.mpr
  apply (relies_of_returns fails.returns fails.raises).mono
  intro events created t ends
  cases created with
  | ok value => exact (ends.1 value rfl).elim
  | error reason => exact ⟨reason,rfl,ends.2 reason rfl⟩

theorem delivers_bodyLoop [Host] {ready : Bool → Prop} (replays : Replays v body ready)
    (displayName directory : Text) (directoryPath : Path) (attempts : Nat) (replayed : Bool)
    (reached : ready replayed) (taken : List Text) (lastError : Exc) (d : Disk) :
    Delivers body.data (v.bodyLoop body displayName directory directoryPath attempts replayed taken
      lastError) d := by
  induction attempts generalizing replayed taken lastError d with
  | zero => exact fun _ impossible => by cases impossible
  | succ attempts ih =>
    rw [Delivers,VaultService.bodyLoop]
    apply relies_bind.mpr
    apply (relies_any _).mono
    intro events chosen t _
    cases chosen with
    | error reason => exact fun _ impossible => by cases impossible
    | ok pair =>
      obtain ⟨relative,free⟩ := pair
      dsimp only
      split
      · apply relies_andThen.mpr
        rcases replays.again replayed reached with later | never
        · apply (delivers_storeBody (replays.makes replayed reached _ t)).mono
          intro made result u stored
          cases result with
          | ok receipt =>
            rintro answer same
            obtain rfl := Except.ok.inj same
            obtain ⟨created,rest⟩ := stored _ rfl
            refine ⟨?_,rest⟩
            simpa using created.after events
          | error reason =>
            dsimp only
            split
            · simpa using ((ih true later _ _ u).after (events ++ made))
            · exact fun _ impossible => by cases impossible
        · apply (refused_storeBody (never (relativeParts relative))).mono
          rintro made result u ⟨reason,rfl,other⟩
          dsimp only
          rw [if_neg other]
          exact fun _ impossible => by cases impossible
      · exact (ih replayed reached _ _ t).after events

theorem delivers_uploadBody [Host] {ready : Bool → Prop} (replays : Replays v body ready)
    (originalName targetDirectory : Text) (d : Disk) :
    Delivers body.data (v.uploadBody body originalName targetDirectory) d := by
  rw [Delivers,VaultService.uploadBody]
  apply relies_bind.mpr
  apply (relies_any _).mono
  intro events checked t _
  cases checked with
  | error reason => exact fun _ impossible => by cases impossible
  | ok found =>
    obtain ⟨directory,directoryPath,existing⟩ := found
    apply relies_bind.mpr
    apply (relies_any _).mono
    intro listed refused u _
    cases refused with
    | error reason => exact fun _ impossible => by cases impossible
    | ok value =>
      have loop := delivers_bodyLoop replays (Text.strip originalName) directory directoryPath
        attachmentNameRetries false replays.first (existing.sort (· ≤ ·)) alreadyExists u
      simpa using loop.after (events ++ listed)

end Loop

section Oversize

variable {token maxBytes : Nat}

theorem size_foldl (chunks : List Bytes) (content : Bytes) :
    (chunks.foldl (· ++ ·) content).size = content.size + (chunks.map ByteArray.size).sum := by
  induction chunks generalizing content with
  | nil => simp
  | cons chunk rest ih => simp [ih,Nat.add_assoc]

theorem size_payload (chunks : List Bytes) :
    (payload chunks).size = (chunks.map ByteArray.size).sum := by
  simp [payload,size_foldl]

theorem raises_nextChunk (replayed : Bool) : Raises Exc.NoCollision (nextChunk replayed) := by
  rw [nextChunk]
  split
  · trivial
  · intro received
    cases received with
    | ok value => trivial
    | error errno => exact fun impossible => by cases impossible

theorem fails_pour {replayed : Bool} (chunks : List Bytes) (total : Nat)
    (bounded : total ≤ maxBytes) (long : maxBytes < total + (chunks.map ByteArray.size).sum) :
    Fails (pour token maxBytes replayed total chunks) := by
  induction chunks generalizing total with
  | nil =>
    simp at long
    omega
  | cons chunk rest ih =>
    rw [pour]
    simp only [List.map_cons,List.sum_cons] at long
    apply fails_last (raises_nextChunk replayed)
    intro _
    split
    · next empty => exact ih total bounded (by omega)
    · split
      · exact fails_throw fun impossible => by cases impossible
      · apply fails_perform
        intro written
        cases written with
        | error errno => exact (fails_throw fun impossible => by cases impossible).bind _
        | ok value => exact ih _ (by omega) (by omega)

theorem fails_fillStream {replayed : Bool} (chunks : List Bytes)
    (long : maxBytes < (chunks.map ByteArray.size).sum) :
    Fails (fillStream token maxBytes replayed chunks) := by
  rw [fillStream]
  apply Fails.bind
  apply Fails.tryCatch
  · exact (fails_pour chunks 0 (by omega) (by omega)).bind _
  · intro reason other
    exact fails_perform fun _ => fails_throw other

theorem fails_atomicCreateStream {replayed : Bool} {target : Path} (chunks : List Bytes)
    (long : maxBytes < (payload chunks).size) :
    Fails (atomicCreateStream target chunks replayed maxBytes) := by
  have discards : ∀ token,Raises Exc.NoCollision (discardTemp token) := fun _ _ => trivial
  rw [size_payload] at long
  rw [atomicCreateStream]
  apply fails_perform
  intro opened
  cases opened with
  | error errno => exact fails_throw fun impossible => by cases impossible
  | ok token =>
    apply Fails.bind
    apply Fails.tryCatch
    · exact (fails_fillStream chunks long).bind _
    · intro reason other
      exact fails_last (discards token) fun _ => fails_throw other

end Oversize

/-- A further attempt finds the body again, or none is made. -/
def Restartable (v : VaultService) : Body → Prop
  | .iterable chunks => (payload chunks).size = 0 ∨ v.maxFileBytes < (payload chunks).size
  | _ => True

theorem exists_replays {v : VaultService} {body : Body} (restartable : Restartable v body) :
    ∃ ready,Replays v body ready := by
  cases body with
  | whole data =>
    exact ⟨fun _ => True,trivial,fun _ _ => .inl trivial,
      fun replayed _ target d => makes_atomicCreateBytes data replayed v d⟩
  | reader chunks =>
    exact ⟨fun _ => True,trivial,fun _ _ => .inl trivial,
      fun _ _ target d => makes_atomicCreateStream chunks d⟩
  | iterable chunks =>
    rcases restartable with empty | long
    · have nothing : payload chunks = payload [] := by
        rw [ByteArray.size_eq_zero_iff.mp empty]
        rfl
      refine ⟨fun _ => True,trivial,fun _ _ => .inl trivial,?_⟩
      rintro replayed - target d
      have same : payload (if replayed then [] else chunks) = payload chunks := by
        cases replayed <;> simp [nothing]
      have makes : Makes target (payload (if replayed then [] else chunks))
          (v.createBody (.iterable chunks) replayed target) d := makes_atomicCreateStream _ d
      rw [same] at makes
      exact makes
    · refine ⟨fun replayed => replayed = false,rfl,?_,?_⟩
      · rintro replayed rfl
        exact .inr fun target => fails_atomicCreateStream chunks long
      · rintro replayed rfl target d
        exact makes_atomicCreateStream chunks d

/-- Whatever other creators do, an upload that succeeds has stored its body. -/
def StoresBody [Host] (v : VaultService) (body : Body) : Prop :=
  ∀ originalName targetDirectory d events receipt t,
    Woven FsOp.step Creates (v.uploadBody body originalName targetDirectory) d events
      (.ok receipt) t → Kept body.data events receipt t

section Rival

def overtake (d : Disk) : Disk :=
  if (∃ temp ∈ d.temps,temp.data ≠ .empty) ∧ d.tree.get [['a']] = none then
    d.setTree [['a']] (some (.file .empty))
  else d

theorem creates_overtake (d : Disk) : Creates d (overtake d) := by
  rw [overtake]
  split
  · next taken =>
    refine ⟨?_,fun _ _ => id⟩
    intro p node here
    rw [Disk.setTree_tree,Tree.get_set_ne _ _ (by rintro rfl; simp [taken.2] at here)]
    exact here
  · exact ⟨fun _ _ => id,fun _ _ => id⟩

abbrev raced (op : FsOp) (d : Disk) : op.Res × Disk := op.step (overtake d)

def takenDisk : Disk := Disk.bare.setTree [['a']] (some (.file .empty))

theorem bare_vacant : Disk.bare.tree.get [['a']] = none := rfl

theorem taken_held : takenDisk.tree.get [['a']] = some (.file .empty) := rfl

theorem overtake_bare : overtake Disk.bare = Disk.bare := by
  rw [overtake,if_neg]
  rintro ⟨⟨temp,listed,_⟩,_⟩
  cases listed

theorem overtake_taken : overtake takenDisk = takenDisk := by
  rw [overtake,if_neg]
  rintro ⟨_,vacant⟩
  rw [taken_held] at vacant
  cases vacant

theorem run_look_raced {d : Disk} (waits : overtake d = d) (p : Look α) :
    run raced (liftM p : Fs α) d = (eval ReadOp.answer p d,d) := by
  change run raced (Effect.lift FsOp.look (fun _ response => response) p) d = _
  induction p with
  | done result => rfl
  | call op next ih =>
    change run raced (Effect.lift FsOp.look _ (next (op.answer (overtake d)))) (overtake d) = _
    rw [waits]
    exact ih _

variable (v : VaultService)

theorem checked_first (chunks : List Bytes) :
    eval ReadOp.answer (v.uploadChecks (.stream chunks) ['a'] []) Disk.bare = .ok ([],[],∅) := by
  change eval ReadOp.answer ((⟨100,hundred_pos⟩ : VaultService).uploadChecks (.stream []) ['a'] [])
    Disk.bare = _
  rfl

theorem stored_second (chunks : List Bytes) : (run raced
    (v.storeBody (.iterable chunks) true ['a'] [] [] ['a','-','2']) takenDisk).1.toOption.map
      (fun receipt => (receipt.path,receipt.byteLength)) = some (['a','-','2'],some 0) := by
  change (run raced ((⟨100,hundred_pos⟩ : VaultService).storeBody (.iterable []) true ['a'] [] []
    ['a','-','2']) takenDisk).1.toOption.map _ = _
  rfl

def Filled (content : Bytes) (d : Disk) : Prop :=
  d.temps = [⟨0,[],content⟩] ∧ (d.tree = Disk.bare.tree ∨ d.tree = takenDisk.tree)

theorem Filled.kept {content : Bytes} {d : Disk} (filled : Filled content d) :
    Filled content (overtake d) := by
  obtain ⟨temps,tree⟩ := filled
  rw [overtake]
  split
  · next waits =>
    refine ⟨temps,.inr ?_⟩
    rcases tree with free | taken
    · rw [Disk.setTree_tree,free]
      rfl
    · rw [taken,taken_held] at waits
      cases waits.2
  · exact ⟨temps,tree⟩

theorem Filled.taken {content : Bytes} {d : Disk} (filled : Filled content d)
    (some' : content ≠ .empty) : (overtake d).tree = takenDisk.tree := by
  obtain ⟨temps,tree⟩ := filled
  rcases tree with free | taken
  · have acts : (∃ temp ∈ d.temps,temp.data ≠ .empty) ∧ d.tree.get [['a']] = none := by
      refine ⟨⟨⟨0,[],content⟩,?_,some'⟩,by rw [free,bare_vacant]⟩
      rw [temps]
      exact List.mem_singleton_self _
    rw [overtake,if_pos acts,Disk.setTree_tree,free]
    rfl
  · rw [overtake,if_neg,taken]
    rintro ⟨_,vacant⟩
    rw [taken,taken_held] at vacant
    cases vacant

theorem Filled.write {content : Bytes} {d : Disk} (filled : Filled content d) (chunk : Bytes) :
    ∃ d',d.writeTemp 0 chunk = (.ok (),d') ∧ Filled (content ++ chunk) d' := by
  obtain ⟨temps,tree⟩ := filled
  have found : d.temp? 0 = some ⟨0,[],content⟩ := by simp [Disk.temp?,temps]
  refine ⟨(d.dropTemp 0).addTemp ⟨0,[],content ++ chunk⟩,by rw [Disk.writeTemp,found],?_,tree⟩
  simp [Disk.dropTemp,temps]

theorem run_pour_raced (maxBytes : Nat) (chunks : List Bytes) (total : Nat) {content : Bytes}
    {d : Disk} (filled : Filled content d)
    (short : total + (chunks.map ByteArray.size).sum ≤ maxBytes) :
    ∃ d',run raced (pour 0 maxBytes false total chunks) d = (.ok (),d') ∧
      Filled (chunks.foldl (· ++ ·) content) d' := by
  have next : ∀ d,run raced (nextChunk false) d = (.ok (),overtake d) := fun _ => rfl
  induction chunks generalizing total content d with
  | nil => exact ⟨_,next d,filled.kept⟩
  | cons chunk rest ih =>
    simp only [List.map_cons,List.sum_cons] at short
    rw [pour,run_bind_ok raced (next d)]
    split
    · next empty =>
      obtain rfl : chunk = .empty := ByteArray.size_eq_zero_iff.mp empty
      simpa using ih total filled.kept (by simpa using short)
    · rw [if_neg (by omega)]
      obtain ⟨d',written,later⟩ := filled.kept.kept.write chunk
      obtain ⟨d'',poured,last⟩ := ih (total + chunk.size) later (by omega)
      refine ⟨d'',?_,last⟩
      have wrote : run raced (Call.writeTemp 0 chunk) (overtake d) =
          (.ok (.ok ()),d') := by
        change (Except.ok ((overtake (overtake d)).writeTemp 0 chunk).1,
          ((overtake (overtake d)).writeTemp 0 chunk).2) = _
        rw [written]
      rw [run_bind_ok raced wrote]
      exact poured

theorem Filled.temp {content : Bytes} {d : Disk} (filled : Filled content d) :
    d.temp? 0 = some ⟨0,[],content⟩ := by
  simp [Disk.temp?,filled.1]

theorem run_fillStream_raced {maxBytes : Nat} (chunks : List Bytes) {d : Disk}
    (filled : Filled .empty d) (short : (payload chunks).size ≤ maxBytes) :
    ∃ d',run raced (fillStream 0 maxBytes false chunks) d = (.ok (),d') ∧
      Filled (payload chunks) d' := by
  rw [size_payload] at short
  obtain ⟨d',poured,full⟩ := run_pour_raced maxBytes chunks 0 filled (by omega)
  refine ⟨overtake (overtake d'),?_,full.kept.kept⟩
  have synced : run raced (Call.syncTemp 0) d' = (.ok (.ok ()),overtake d') := by
    change (Except.ok ((overtake d').syncTemp 0),_) = _
    rw [Disk.syncTemp,full.kept.temp]
    rfl
  rw [fillStream,run_bind,run_tryCatch,run_bind_ok raced poured,run_bind_ok raced synced]
  rfl

/-- The first attempt finds its name taken after the chunks have been handed out. -/
theorem run_first_raced {maxBytes : Nat} (chunks : List Bytes)
    (some' : (payload chunks).size ≠ 0) (short : (payload chunks).size ≤ maxBytes) :
    run raced (atomicCreateStream [['a']] chunks false maxBytes) Disk.bare =
      (.error alreadyExists,takenDisk) := by
  have content : payload chunks ≠ .empty := fun empty => some' (by rw [empty]; rfl)
  have opened : run raced (Call.openTemp []) Disk.bare =
      (.ok (.ok 0),Disk.bare.addTemp ⟨0,[],.empty⟩) := rfl
  have start : Filled .empty (Disk.bare.addTemp ⟨0,[],.empty⟩) := ⟨rfl,.inl rfl⟩
  obtain ⟨d,poured,full⟩ := run_fillStream_raced chunks start short
  have linked : run raced (Call.linkTemp 0 [['a']]) d =
      (.ok (.error .eexist),overtake d) := by
    have walked : takenDisk.tree.walk [] [['a']] = .ok () := rfl
    change (Except.ok ((overtake d).linkTemp 0 [['a']]).1,_) = _
    change (_,((overtake d).linkTemp 0 [['a']]).2) = _
    simp [Disk.linkTemp,full.kept.temp,Disk.place,Disk.occupied,full.taken content,walked,taken_held]
  have discarded : run raced (discardTemp 0) (overtake d) = (.ok (),takenDisk) := by
    have again := full.kept.kept
    have tree := full.kept.taken content
    have dropped : (overtake (overtake d)).unlinkTemp 0 =
        (.ok (),takenDisk) := by
      rw [Disk.unlinkTemp,again.temp]
      obtain ⟨temps,_⟩ := again
      generalize overtake (overtake d) = e at temps tree
      obtain ⟨tree',temps'⟩ := e
      dsimp only at temps tree
      subst temps tree
      rfl
    change (Except.ok (),((overtake (overtake d)).unlinkTemp 0).2) = _
    rw [dropped]
  rw [atomicCreateStream,List.dropLast_singleton,run_bind_ok raced opened]
  dsimp only
  rw [run_bind,run_tryCatch,run_bind_ok raced poured,run_bind_ok raced linked]
  dsimp only [run_throw]
  rw [run_bind_ok raced discarded]
  rfl

end Rival

section Spent

variable [Host] (v : VaultService)

theorem splitExtension_a : splitExtension ['a'] = (['a'],[]) := by
  have plain : Host.nfc ['a'] = ['a'] := Host.nfc_ascii _ (by decide)
  have upper : Host.upper ['a'] = ['A'] := Host.upper_ascii _ (by decide)
  have kept : (['a'].filter fun c => !isControl c).map
      (fun c => if c = backslash ∨ c = '/' then '-' else c) = ['a'] := by decide
  have alone : Text.strip (stem ['a']) = ['a'] := by decide
  have free : ['A'] ∉ windowsReserved := by decide
  have dotless : lastDot ['a'] = none := by decide
  rw [splitExtension]
  simp only [plain,kept,alone,upper,if_neg free,dotless]

theorem cleanBase_a : cleanBase ['a'] = ['a'] := by
  have plain : Host.nfc ['a'] = ['a'] := Host.nfc_ascii _ (by decide)
  have upper : Host.upper ['a'] = ['A'] := Host.upper_ascii _ (by decide)
  have kept : (['a'].filter fun c => !isControl c) = ['a'] := by decide
  have alone : stem ['a'] = ['a'] := by decide
  have free : ['A'] ∉ windowsReserved := by decide
  have same : Text.stripBy (fun c => c == '-') (foldRuns (fun c => c == '-') false
      (Text.rstripBy (fun c => c == '.' || c == '-' || c == ' ')
        (Text.lstripBy (fun c => c == '.' || c == '-') (foldRuns Text.isSpace false
          (['a'].map fun c => if c ∈ dangerousChars then '-' else c))))) = ['a'] := by decide
  rw [cleanBase]
  simp only [plain,kept,same,alone,upper,if_neg free]
  rfl

theorem cleanAttachmentBasename_a : cleanAttachmentBasename ['a'] = ['a'] := by
  have nothing : Host.nfc [] = [] := Host.nfc_ascii _ (by decide)
  have last : (Text.split '/' ((Text.strip ['a']).map fun c =>
      if c = backslash then '/' else c)).getLastD [] = ['a'] := by decide
  rw [cleanAttachmentBasename]
  simp only [last,splitExtension_a,nothing]
  have cleaned : isSafeExtension [] = false := rfl
  have short : ¬Text.utf8Length [] ≥ maxBasenameBytes := by decide
  simp only [cleaned,Bool.false_eq_true,if_false,if_neg short,cleanBase_a]
  decide

theorem named_first : safeAttachmentName ['a'] [] [] = .ok ['a'] := by
  simp only [safeAttachmentName,cleanAttachmentBasename_a]
  rfl

theorem named_second : safeAttachmentName ['a'] [] [['a']] = .ok ['a','-','2'] := by
  have second : withSuffix ['a'] ('-' :: decimal (0 + 2)) = ['a','-','2'] := by
    rw [withSuffix,splitExtension_a]
    decide
  have free : (['a','-','2'] : Text) ∉ [['a']].map existingBasename := by decide
  have range : List.range maxDedupAttempts = 0 :: (List.range 999).map Nat.succ :=
    List.range_succ_eq_map
  simp only [safeAttachmentName,cleanAttachmentBasename_a,range,List.map_cons,second]
  rw [List.find?_cons_of_pos (by simpa using free)]
  rfl

theorem chosen_first : eval ReadOp.answer (VaultService.chooseName ['a'] [] [] []) Disk.bare =
    .ok (['a'],true) := by
  rw [VaultService.chooseName,named_first]
  rfl

theorem chosen_second : eval ReadOp.answer (VaultService.chooseName ['a'] [] [] [['a']]) takenDisk =
    .ok (['a','-','2'],true) := by
  rw [VaultService.chooseName,named_second]
  rfl

variable (chunks : List Bytes) (some' : (payload chunks).size ≠ 0)
variable (short : (payload chunks).size ≤ v.maxFileBytes)

include some' short

theorem run_uploadBody_raced : (run raced (v.uploadBody (.iterable chunks) ['a'] [])
    Disk.bare).1.toOption.map (fun receipt => (receipt.path,receipt.byteLength)) =
      some (['a','-','2'],some 0) := by
  have checked := run_look_raced overtake_bare (v.uploadChecks (Body.iterable chunks).upload ['a'] [])
  rw [Body.upload,checked_first] at checked
  have kept : VaultService.inOrder ∅ = [] := Finset.sort_empty _
  have refused : run raced (liftM (refuseSymlinks [] [] (VaultService.inOrder ∅)) : Fs Unit)
      Disk.bare = (.ok (),Disk.bare) := by
    rw [run_look_raced overtake_bare,kept]
    rfl
  have first := run_look_raced overtake_bare (VaultService.chooseName ['a'] [] [] [])
  rw [chosen_first] at first
  have second := run_look_raced overtake_taken (VaultService.chooseName ['a'] [] [] [['a']])
  rw [chosen_second] at second
  have lost : run raced (v.storeBody (.iterable chunks) false ['a'] [] [] ['a']) Disk.bare =
      (.error alreadyExists,takenDisk) :=
    run_bind_error raced (run_first_raced chunks some' short)
  have strip : Text.strip ['a'] = ['a'] := by decide
  have name : (relativeParts ['a']).getLastD [] = ['a'] := by decide
  have code : alreadyExists.vaultCode? = some .alreadyExists := rfl
  have stored := stored_second v chunks
  rw [VaultService.uploadBody,Body.upload,run_bind_ok raced checked]
  dsimp only
  rw [run_bind_ok raced refused,strip,kept,show attachmentNameRetries = 3 + 1 + 1 from rfl,
    VaultService.bodyLoop,run_bind_ok raced first]
  dsimp only
  rw [if_pos rfl,VaultService.retryOnCollision,run_andThen,lost]
  dsimp only
  rw [if_pos code,name,VaultService.bodyLoop,run_bind_ok raced second]
  dsimp only
  rw [if_pos rfl,VaultService.retryOnCollision,run_andThen]
  cases outcome : (run raced (v.storeBody (.iterable chunks) true ['a'] [] [] ['a','-','2'])
      takenDisk).1 with
  | error reason => simp [outcome,Except.toOption] at stored
  | ok receipt => simpa [outcome,Except.toOption] using stored

theorem not_storesBody : ¬StoresBody v (.iterable chunks) := by
  intro stores
  have lost := run_uploadBody_raced v chunks some' short
  obtain ⟨events,woven⟩ := woven_run creates_overtake (v.uploadBody (.iterable chunks) ['a'] [])
    Disk.bare
  change Woven FsOp.step Creates _ _ events (run raced _ _).1 (run raced _ _).2 at woven
  cases outcome : (run raced (v.uploadBody (.iterable chunks) ['a'] []) Disk.bare).1 with
  | error reason => simp [outcome,Except.toOption] at lost
  | ok receipt =>
    rw [outcome] at woven lost
    obtain ⟨_,_,_,size⟩ := stores _ _ _ _ _ _ woven
    simp only [Except.toOption,Option.map_some,Option.some.injEq,Prod.mk.injEq] at lost
    rw [lost.2,Option.some.injEq] at size
    exact some' size.symm

end Spent

/-- An upload stores the body it is given, whatever other creators do, exactly when a further
attempt finds the body again. -/
theorem storesBody_iff [Host] (v : VaultService) (body : Body) :
    StoresBody v body ↔ Restartable v body := by
  constructor
  · intro stores
    cases body with
    | whole data => trivial
    | reader chunks => trivial
    | iterable chunks =>
      by_contra lost
      rw [Restartable,not_or,Nat.not_lt] at lost
      exact not_storesBody v chunks lost.1 lost.2 stores
  · intro restartable originalName targetDirectory d events receipt t woven
    obtain ⟨ready,replays⟩ := exists_replays restartable
    have delivers := delivers_uploadBody replays originalName targetDirectory d
    exact relies_iff.mp delivers _ _ _ woven receipt rfl

section Example

open scoped AsciiHost

/-- One byte that is handed out once: the rival takes the name, and an empty file is stored. -/
theorem byte_lost : ¬∀ body : Body,StoresBody ⟨100,hundred_pos⟩ body := by
  intro stores
  have size : (payload ["a".toUTF8]).size = 1 := by decide +kernel
  exact not_storesBody ⟨100,hundred_pos⟩ ["a".toUTF8] (by rw [size]; decide)
    (by rw [size]; decide) (stores _)

end Example

end LocalBook.Vault
