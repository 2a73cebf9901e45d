import LocalBook.Interleaving
import LocalBook.Vault.Upload

/-! Operations among outside writers. A hard link never takes the place of a file; the rename
of an update does, and what it replaces is what the operation read last unless an outside
writer comes between the two. -/
namespace LocalBook.Vault

open Effect

inductive Request where
  | create (path : Text) (data : Bytes)
  | write (path : Text) (data : Bytes) (expected : Option Text)
  | move (source destination : Text) (expected : Option Text)
  | upload (content : Upload) (name directory : Text)

/-- The calls of an operation, with the changes of the outside before each. -/
def Request.trace [Host] (v : VaultService) (outside : List (Disk → Disk)) (d : Disk) :
    Request → List (Event FsOp Disk)
  | .create path data => weave FsOp.step outside (v.createBytes path data) d
  | .write path data expected => weave FsOp.step outside (v.writeBytes path data expected) d
  | .move source destination expected =>
    weave FsOp.step outside (v.moveFile source destination expected) d
  | .upload content name directory =>
    weave FsOp.step outside (v.uploadAttachment content name directory) d

namespace FsOp

def placed : FsOp → Option Path
  | .linkTemp _ target | .replaceTemp _ target | .link _ target | .mkdir target => some target
  | _ => none

def renames : FsOp → Bool
  | .replaceTemp _ _ => true
  | _ => false

end FsOp

def Replaces (e : Event FsOp Disk) (data : Bytes) : Prop :=
  (e.op.step e.before).1.isOk = true ∧
    ∃ target, e.op.placed = some target ∧ e.before.tree.get target = some (.file data)

def Request.Permits [Host] : Request → Bytes → Prop
  | .write _ _ expected, data => Expects expected data
  | _, _ => False

def NoSilentOverwrite [Host] (v : VaultService) (outside : List (Disk → Disk)) (d : Disk)
    (request : Request) : Prop :=
  ∀ e ∈ request.trace v outside d, ∀ data, Replaces e data → request.Permits data

def readLast (seen : Option Bytes) : (op : ReadOp) → op.Res → Option Bytes
  | .read _, response => Except.toOption response
  | _, _ => seen

def lastRead (seen : Option Bytes) : (op : FsOp) → op.Res → Option Bytes
  | .look op, response => readLast seen op response
  | _, _ => seen

/-- What a rename replaces has the digest of what was read last. -/
def Undisturbed : Option Bytes → List (Event FsOp Disk) → Prop
  | _, [] => True
  | seen, e :: rest =>
    (∀ data, Replaces e data → seen.map sha256Bytes = some (sha256Bytes data)) ∧
      Undisturbed (lastRead seen e.op (e.op.step e.before).1) rest

/-- When a file is replaced, what was read last is content that the request permits. -/
def Verified [Host] (request : Request) : Option Bytes → List (Event FsOp Disk) → Prop
  | _, [] => True
  | seen, e :: rest =>
    (∀ data, Replaces e data → ∃ old, seen = some old ∧ request.Permits old) ∧
      Verified request (lastRead seen e.op (e.op.step e.before).1) rest

section Calls

theorem unrefused_of_place {d : Disk} {p : Path} {node : Option Node} {refusal : Option Errno}
    (placed : (d.place p node refusal).1.isOk = true) : refusal = none := by
  unfold Disk.place at placed
  split at placed
  · cases placed
  · cases placed
  · rfl

/-- A link succeeds only where nothing is. -/
theorem get_of_occupied {d : Disk} {p : Path} (free : d.occupied p = none) :
    d.tree.get p = none := by
  rw [Disk.occupied] at free
  split at free
  · assumption
  · cases free

/-- Only a rename replaces a file. -/
theorem renames_of_replaces {e : Event FsOp Disk} {data : Bytes} (replaces : Replaces e data) :
    e.op.renames = true := by
  obtain ⟨before,op⟩ := e
  obtain ⟨ok,target,placed,held⟩ := replaces
  have free (there : before.tree.get target = none) : False := by
    rw [there] at held
    cases held
  cases op with
  | replaceTemp token target => rfl
  | linkTemp token p =>
    cases placed
    refine (free ?_).elim
    simp only [FsOp.step,Disk.linkTemp] at ok
    split at ok
    · exact get_of_occupied (unrefused_of_place ok)
    · cases ok
  | link source p =>
    cases placed
    refine (free ?_).elim
    simp only [FsOp.step,Disk.link] at ok
    split at ok
    · exact get_of_occupied (unrefused_of_place ok)
    · cases ok
  | mkdir p =>
    cases placed
    exact (free (get_of_occupied (unrefused_of_place ok))).elim
  | look | openTemp | writeTemp | syncTemp | closeTemp | unlinkTemp | unlink | openDir | syncDir
  | closeDir => cases placed

end Calls

section Operations

variable {v : VaultService} {P : FsOp → Prop}

def Linking (op : FsOp) : Prop := op.renames = false

theorem linking_call {op : FsOp} (links : op.renames = false) :
    Every Linking (Proc.perform op : Fs op.Res) := every_perform links

theorem linking_look (p : Look α) : Every Linking (liftM p : Fs α) :=
  (every_any p).lift fun _ _ => rfl

theorem linking_fsyncDirectory (directory : Path) : Every Linking (fsyncDirectory directory) := by
  have outcome (result : Except Errno Unit) : Every Linking (syncOutcome result) := by
    cases result with
    | ok value => trivial
    | error errno => by_cases quiet : tolerated errno <;> simp [syncOutcome,quiet]
  refine (linking_call rfl).bind fun opened => ?_
  cases opened with
  | error errno => exact outcome _
  | ok value =>
    exact (linking_call rfl).bind fun synced => (linking_call rfl).bind fun _ => outcome synced

theorem linking_discardTemp (token : Nat) : Every Linking (discardTemp token) :=
  (linking_call rfl).bind fun _ => trivial

theorem linking_fillTemp (token : Nat) (data : Bytes) : Every Linking (fillTemp token data) := by
  refine (linking_call rfl).bind fun written => ?_
  cases written with
  | error errno => exact (linking_call rfl).bind fun _ => trivial
  | ok value =>
    refine (linking_call rfl).bind fun synced => ?_
    cases synced with
    | error errno => exact (linking_call rfl).bind fun _ => trivial
    | ok value => exact linking_call rfl

theorem linking_writeTemp (parent : Path) (data : Bytes) :
    Every Linking (writeTemp parent data) := by
  refine (linking_call rfl).bind fun opened => ?_
  cases opened with
  | error errno => trivial
  | ok token =>
    refine (linking_fillTemp token data).bind fun filled => ?_
    cases filled with
    | ok value => trivial
    | error errno => exact (linking_discardTemp token).bind fun _ => trivial

/-- `os.link` and the removal of the temporary name. -/
theorem linking_publish (token : Nat) (target : Path) :
    Every Linking (publish false token target) := by
  refine (linking_call rfl).bind fun linked => ?_
  refine (linking_discardTemp token).bind fun _ => ?_
  cases linked <;> trivial

theorem linking_atomicCreateBytes (target : Path) (data : Bytes) :
    Every Linking (atomicCreateBytes target data) := by
  refine (linking_writeTemp _ _).bind fun token => ?_
  refine Every.bind ?_ fun _ => linking_fsyncDirectory _
  refine Every.tryCatch ?_ fun reason => (linking_discardTemp token).bind fun _ => trivial
  exact (linking_look _).bind fun _ => linking_publish token target

theorem linking_createBytes (value : Text) (data : Bytes) :
    Every Linking (v.createBytes value data) := by
  rw [VaultService.createBytes]
  split
  · trivial
  · refine (linking_look _).bind fun ⟨relative,parent,target⟩ => ?_
    refine (linking_look _).bind fun _ => ?_
    refine Every.bind ?_ fun _ => linking_look _
    exact (linking_atomicCreateBytes target data).tryCatch fun _ => trivial

theorem linking_finishMove (sourceRelative destinationRelative actual : Text)
    (source destination : Path) : Every Linking
      (v.finishMove sourceRelative source destinationRelative destination actual) := by
  refine Every.tryCatch ?_ fun reason => (linking_call rfl).bind fun _ => trivial
  refine (linking_look _).bind fun _ => (linking_call rfl).bind fun unlinked => ?_
  cases unlinked <;> trivial

theorem linking_moveFile [Host] (source destination : Text) (expected : Option Text) :
    Every Linking (v.moveFile source destination expected) := by
  refine (linking_look _).bind fun ⟨sourceRelative,source⟩ => ?_
  refine (linking_look _).bind fun ⟨destinationRelative,parent,destination⟩ => ?_
  dsimp only
  split
  · trivial
  · refine (linking_look _).bind fun actual => ?_
    refine (linking_look _).bind fun _ => ?_
    refine Every.bind ?_ fun _ => linking_look _
    refine (linking_call rfl).bind fun linked => ?_
    cases linked with
    | error errno => trivial
    | ok value => exact linking_finishMove ..

theorem linking_pour (token maxBytes : Nat) (replayed : Bool) (total : Nat)
    (chunks : List Bytes) : Every Linking (pour token maxBytes replayed total chunks) := by
  have next : Every Linking (nextChunk replayed) := by
    rw [nextChunk]
    split
    · trivial
    · refine (linking_look _).bind fun received => ?_
      cases received <;> trivial
  induction chunks generalizing total with
  | nil => exact next
  | cons chunk rest ih =>
    refine next.bind fun _ => ?_
    split
    · exact ih total
    · split
      · trivial
      · refine (linking_call rfl).bind fun written => ?_
        refine Every.bind ?_ fun _ => ih _
        cases written <;> trivial

theorem linking_atomicCreateStream (target : Path) (chunks : List Bytes) (replayed : Bool)
    (maxBytes : Nat) : Every Linking (atomicCreateStream target chunks replayed maxBytes) := by
  have checked (result : Except Errno Unit) : Every Linking (writeFailed result) := by
    cases result <;> trivial
  refine (linking_call rfl).bind fun opened => ?_
  cases opened with
  | error errno => trivial
  | ok token =>
    refine Every.bind ?_ fun _ => (linking_discardTemp token).bind fun _ => trivial
    refine Every.tryCatch ?_ fun reason => (linking_discardTemp token).bind fun _ => trivial
    refine Every.bind ?_ fun _ => (linking_call rfl).bind fun linked => ?_
    · refine Every.bind ?_ fun _ => (linking_call rfl).bind fun closed => checked closed
      refine Every.tryCatch ?_ fun reason => (linking_call rfl).bind fun _ => trivial
      exact (linking_pour ..).bind fun _ => (linking_call rfl).bind fun synced => checked synced
    · cases linked with
      | ok value => exact linking_fsyncDirectory _
      | error errno => trivial

theorem linking_storeUpload (content : Upload) (replayed : Bool)
    (displayName directory relative : Text) (directoryPath : Path) : Every Linking
      (v.storeUpload content replayed displayName directory directoryPath relative) := by
  refine Every.bind ?_ fun stored => linking_look _
  cases content with
  | content data => exact (linking_atomicCreateBytes _ data).bind fun _ => trivial
  | stream chunks => exact linking_atomicCreateStream ..

theorem linking_uploadLoop [Host] (content : Upload) (displayName directory : Text)
    (directoryPath : Path) (attempts : Nat) (replayed : Bool) (taken : List Text)
    (lastError : Exc) : Every Linking
      (v.uploadLoop content displayName directory directoryPath attempts replayed taken
        lastError) := by
  induction attempts generalizing replayed taken lastError with
  | zero => trivial
  | succ attempts ih =>
    refine (linking_look _).bind fun ⟨relative,free⟩ => ?_
    dsimp only
    split
    · refine (linking_storeUpload ..).andThen fun result => ?_
      cases result with
      | ok receipt => trivial
      | error reason =>
        dsimp only
        split
        · exact ih ..
        · trivial
    · exact ih ..

theorem linking_uploadAttachment [Host] (content : Upload) (name directory : Text) :
    Every Linking (v.uploadAttachment content name directory) :=
  (linking_look _).bind fun ⟨_,_,_⟩ => (linking_look _).bind fun _ => linking_uploadLoop ..

end Operations

section Update

variable {v : VaultService} {relative : Text} {p : Path} {seen : Option Bytes}

def Request.Allows [Host] (request : Request) (seen : Option Bytes) (op : FsOp) : Prop :=
  op.renames = true → ∃ old, seen = some old ∧ request.Permits old

abbrev Looks (seen : Option Bytes) (look : Look α) (Q : Option Bytes → Except Exc α → Prop) :
    Prop :=
  Monitored (fun _ _ => True) readLast seen look Q

def IsRead : ReadOp → Bool
  | .read _ => true
  | _ => false

def Inspecting (op : ReadOp) : Prop := IsRead op = false

theorem inspecting_call {op : ReadOp} (inspects : IsRead op = false) :
    Every Inspecting (Proc.perform op : Look op.Res) := every_perform inspects

theorem looks_inspecting {look : Look α} (every : Every Inspecting look) :
    Looks seen look fun seen' _ => seen' = seen := by
  refine monitored_steady every (fun _ _ _ => trivial) fun seen op response inspects => ?_
  cases op with
  | read => cases inspects
  | lstat | size | realpath | scandir | receive => rfl

theorem inspecting_checkExistingChain (missing : Bool) (current path : Path)
    (relative : Option Text) :
    Every Inspecting (checkExistingChain relative missing current path) := by
  induction path generalizing current with
  | nil => trivial
  | cons part rest ih =>
    refine (inspecting_call rfl).bind fun found => ?_
    split
    · split <;> trivial
    · trivial
    · trivial
    · split
      · trivial
      · exact ih _

theorem inspecting_assertSafeExisting (relative : Option Text) :
    Every Inspecting (assertSafeExisting p relative) := by
  refine Every.bind ((inspecting_call rfl).bind fun found => ?_) fun _ =>
    (inspecting_checkExistingChain ..).bind fun _ =>
      Every.bind ((inspecting_call rfl).bind fun found => ?_) fun _ =>
        (inspecting_call rfl).bind fun found => ?_
  · cases found with
    | error errno => trivial
    | ok info =>
      dsimp only
      split <;> trivial
  · split <;> trivial
  · split
    · trivial
    · trivial
    · split <;> trivial

/-- `_read_file` returns what it read last. -/
theorem looks_readFile : Looks seen (v.readFile p) fun seen' result =>
    ∀ data, result = .ok data → seen' = some data := by
  refine monitored_perform trivial fun size => ?_
  cases size with
  | error errno => exact fun data impossible => by cases impossible
  | ok size =>
    dsimp only
    split
    · exact fun data impossible => by cases impossible
    · refine monitored_perform trivial fun response => ?_
      cases response with
      | error errno => exact fun data impossible => by cases impossible
      | ok content =>
        dsimp only
        split
        · exact fun data impossible => by cases impossible
        · exact fun data same => congrArg some (Except.ok.inj same)

theorem looks_snapshot : Looks seen (v.snapshot relative p) fun seen' result =>
    ∀ data digest, result = .ok (data,digest) → seen' = some data ∧ digest = sha256Bytes data := by
  have safe (seen : Option Bytes) := @looks_inspecting seen _ _ (@inspecting_assertSafeExisting p
    (some relative))
  refine (safe seen).bind (fun _ _ _ => ?_) fun _ _ _ _ _ impossible => by cases impossible
  refine looks_readFile.bind (fun seen' data read => ?_) fun _ _ _ _ _ impossible => by
    cases impossible
  refine (safe seen').bind (fun seen'' _ same => ?_) fun _ _ _ _ _ impossible => by
    cases impossible
  intro data' digest both
  obtain ⟨rfl,rfl⟩ := Prod.mk.inj (Except.ok.inj both)
  exact ⟨same.trans (read _ rfl),rfl⟩

/-- After a content check that passes, what was read last has the digest. -/
theorem looks_unchanged (expected : Text) :
    Looks seen (v.unchanged relative p expected) fun seen' result =>
      result = .ok () → ∃ old, seen' = some old ∧ sha256Bytes old = expected := by
  refine (looks_inspecting (inspecting_assertSafeExisting _)).bind (fun seen' _ _ => ?_)
    fun _ _ _ impossible => by cases impossible
  refine looks_snapshot.bind (fun seen'' both snapped => ?_) fun _ _ _ impossible => by
    cases impossible
  obtain ⟨data,digest⟩ := both
  obtain ⟨read,same⟩ := snapped data digest rfl
  dsimp only
  by_cases differs : digest ≠ expected
  · rw [Proc.raiseIf,if_pos differs]
    exact fun impossible => by cases impossible
  · rw [Proc.raiseIf,if_neg differs]
    exact fun _ => ⟨data,read,same ▸ not_not.mp differs⟩

theorem looks_beforeReplace (expected : Text) :
    Looks seen (v.beforeReplace relative p expected) fun seen' result =>
      result = .ok () → ∃ old, seen' = some old ∧ sha256Bytes old = expected :=
  (looks_unchanged expected).bind (fun _ _ _ => looks_unchanged expected)
    fun _ _ _ impossible => by cases impossible

/-- An update goes on only with the digest that is expected. -/
theorem returns_expectedContent [Host] (expected : Option Text) :
    Returns (fun digest => requireExpectedHash relative expected = .ok digest)
      (v.expectedContent relative p expected) := by
  refine Returns.last fun ⟨data,actual⟩ => ?_
  refine Returns.bind (P := fun digest => requireExpectedHash relative expected = .ok digest)
    (Returns.ofExcept fun _ => id) fun digest required => ?_
  by_cases differs : digest ≠ actual
  · rw [Proc.raiseIf,if_pos differs]
    trivial
  · rw [Proc.raiseIf,if_neg differs]
    exact not_not.mp differs ▸ required

theorem monitored_look [Host] {request : Request} {look : Look α}
    {Q : Option Bytes → Except Exc α → Prop} (looks : Looks seen look Q) :
    Monitored request.Allows lastRead seen (liftM look : Fs α) Q := by
  change Monitored request.Allows lastRead seen (Effect.lift FsOp.look _ look) Q
  induction look generalizing seen with
  | done result => exact looks
  | call op next ih =>
    exact ⟨fun impossible => (by cases impossible),fun response => ih _ (looks.2 response)⟩

theorem monitored_linking [Host] {request : Request} {p : Fs α} (linking : Every Linking p) :
    Monitored request.Allows lastRead seen p fun _ _ => True :=
  monitored_of_every linking fun _ _ links renames => absurd renames (by rw [links]; decide)

/-- `atomic_replace_bytes` renames right after the check of what is there. -/
theorem monitored_atomicReplaceBytes [Host] {request : Request} {target : Path} {data : Bytes}
    {expected : Text} (permits : ∀ old, sha256Bytes old = expected → request.Permits old) :
    Monitored request.Allows lastRead seen
      (atomicReplaceBytes target data (v.beforeReplace relative p expected)) fun _ _ => True := by
  refine (monitored_linking (linking_writeTemp _ _)).bind (fun _ token _ => ?_) fun _ _ _ => trivial
  refine Monitored.bind (Q := fun _ _ => True) ?_
    (fun _ _ _ => monitored_linking (linking_fsyncDirectory _)) fun _ _ _ => trivial
  refine monitored_andThen.mpr (Monitored.mono (Q := fun _ _ => True) ?_ fun seen' result _ => ?_)
  · refine (monitored_look (looks_beforeReplace expected)).bind (fun seen' _ checked => ?_)
      fun _ _ _ => trivial
    obtain ⟨old,read,same⟩ := checked rfl
    refine ⟨fun _ => ⟨old,read,permits old same⟩,fun renamed => ?_⟩
    cases renamed <;> trivial
  · cases result with
    | ok value => trivial
    | error reason =>
      exact monitored_linking ((linking_discardTemp token).bind fun _ => trivial)

theorem monitored_writeBytes [Host] (value : Text) (data : Bytes) (expected : Option Text) :
    Monitored (Request.write value data expected).Allows lastRead seen
      (v.writeBytes value data expected) fun _ _ => True := by
  rw [VaultService.writeBytes]
  split
  · trivial
  · refine Monitored.bind (Q := fun _ result => ∀ value : Text × Path × Text,
      result = .ok value → requireExpectedHash value.1 expected = .ok value.2.2)
      (monitored_look (monitored_of_returns (Returns.last fun found => ?_) fun _ _ => trivial))
      (fun _ result required => ?_) fun _ _ _ => trivial
    · obtain ⟨relative,path⟩ := found
      exact (returns_expectedContent expected).bind fun actual required => required
    obtain ⟨relative,path,actual⟩ := result
    obtain ⟨text,given_,nonempty,digest⟩ := requireExpectedHash_iff.mp (required _ rfl)
    refine (monitored_atomicReplaceBytes fun old same => ?_).bind
      (fun _ _ _ => monitored_linking (linking_look _)) fun _ _ _ => trivial
    exact ⟨text,given_,nonempty,digest.trans same.symm⟩

end Update

section Runs

variable [Host] {request : Request}

theorem verified_of_watched {seen : Option Bytes} {events : List (Event FsOp Disk)}
    (watched : Watched FsOp.step request.Allows lastRead seen events) :
    Verified request seen events := by
  induction events generalizing seen with
  | nil => trivial
  | cons e rest ih => exact ⟨fun data replaces => watched.1 (renames_of_replaces replaces),
      ih watched.2⟩

theorem verified_trace (v : VaultService) (outside : List (Disk → Disk)) (d : Disk)
    (request : Request) : Verified request none (request.trace v outside d) := by
  refine verified_of_watched ?_
  cases request with
  | create path data =>
    exact watched_of_monitored (monitored_linking (linking_createBytes path data)) outside d
  | write path data expected =>
    exact watched_of_monitored (monitored_writeBytes path data expected) outside d
  | move source destination expected =>
    exact watched_of_monitored (monitored_linking (linking_moveFile source destination expected))
      outside d
  | upload content name directory =>
    exact watched_of_monitored (monitored_linking (linking_uploadAttachment content name directory))
      outside d

/-- Among contents with one digest a request permits all or none. -/
theorem permits_iff {old data : Bytes} (permits : request.Permits old) :
    request.Permits data ↔ sha256Bytes old = sha256Bytes data := by
  cases request with
  | write path new expected =>
    obtain ⟨text,rfl,nonempty,digest⟩ := permits
    constructor
    · rintro ⟨_,⟨⟩,-,digest'⟩
      exact digest.symm.trans digest'
    · exact fun same => ⟨text,rfl,nonempty,digest.trans same⟩
  | create | move | upload => exact permits.elim

theorem permitted_iff_undisturbed {seen : Option Bytes} {events : List (Event FsOp Disk)}
    (verified : Verified request seen events) :
    (∀ e ∈ events, ∀ data, Replaces e data → request.Permits data) ↔ Undisturbed seen events := by
  induction events generalizing seen with
  | nil => exact iff_of_true (fun _ member => by cases member) trivial
  | cons e rest ih =>
    rw [List.forall_mem_cons,Undisturbed,ih verified.2]
    refine and_congr_left fun _ => forall_congr' fun data => forall_congr' fun replaces => ?_
    obtain ⟨old,rfl,permits⟩ := verified.1 data replaces
    rw [permits_iff permits,Option.map_some,Option.some.injEq]

/-- Over every interleaving with outside writers: what an operation replaces, it read last in a
state that the request permits (so only an update replaces anything), and it overwrites nothing
silently exactly when the file keeps its digest between that last read and the rename. -/
theorem overwrites_verified (v : VaultService) (outside : List (Disk → Disk)) (d : Disk)
    (request : Request) :
    Verified request none (request.trace v outside d) ∧
      (NoSilentOverwrite v outside d request ↔
        Undisturbed none (request.trace v outside d)) :=
  ⟨verified_trace v outside d request,permitted_iff_undisturbed (verified_trace v outside d request)⟩

end Runs

section LateWriter

open scoped AsciiHost

def oneFile : Disk := ⟨Disk.bare.tree.set ["a.md".toList] (some (.file "a".toUTF8)),[]⟩

/-- Another program writes the file after the last content check, before the rename. -/
def lateWriter : List (Disk → Disk) :=
  List.replicate 52 id ++ [fun d => d.setTree ["a.md".toList] (some (.file "b".toUTF8))]

/-- What the other program wrote is lost, and the update is reported as a success. -/
theorem lateWriter_overwritten : ¬ NoSilentOverwrite ⟨100,hundred_pos⟩ lateWriter oneFile
    (.write "a.md".toList "c".toUTF8 (some (sha256Bytes "a".toUTF8))) := by
  intro kept
  let calls := (Request.write "a.md".toList "c".toUTF8 (some (sha256Bytes "a".toUTF8))).trace
    ⟨100,hundred_pos⟩ lateWriter oneFile
  have renamed : (calls[52]?.map fun e => (e.op,e.before.tree.get ["a.md".toList],
      (e.op.step e.before).1.isOk)) =
      some (.replaceTemp 0 ["a.md".toList],some (.file "b".toUTF8),true) := by decide +kernel
  obtain ⟨e,found,facts⟩ := Option.map_eq_some_iff.mp renamed
  obtain ⟨call,held,ok⟩ : e.op = .replaceTemp 0 ["a.md".toList] ∧
      e.before.tree.get ["a.md".toList] = some (.file "b".toUTF8) ∧
      (e.op.step e.before).1.isOk = true := by simpa using facts
  have replaces : Replaces e "b".toUTF8 := ⟨ok,_,by rw [call]; rfl,held⟩
  obtain ⟨text,same,-,digest⟩ := kept e (List.mem_of_getElem? found) _ replaces
  rw [← Option.some.inj same,canonicalDigest_sha256Bytes] at digest
  exact absurd digest (by decide +kernel)

end LateWriter

end LocalBook.Vault
