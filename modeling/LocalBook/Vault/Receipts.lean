import LocalBook.Relying
import LocalBook.Vault.Overwriting

/-! The receipts of operations among outside writers: an operation that hashes what it was given
tells the truth, one that reads the file once more tells what it finds there. -/
namespace LocalBook.Vault

open Effect

/-- How an operation ends, with the changes of the outside before each call. -/
def Request.answer [Host] (v : VaultService) (outside : List (Disk → Disk)) (d : Disk) :
    Request → Except Exc Receipt
  | .create path data => outcome FsOp.step outside (v.createBytes path data) d
  | .write path data expected => outcome FsOp.step outside (v.writeBytes path data expected) d
  | .move source destination expected =>
    outcome FsOp.step outside (v.moveFile source destination expected) d
  | .upload content name directory =>
    (outcome FsOp.step outside (v.uploadAttachment content name directory) d).map
      UploadReceipt.toReceipt

/-! ### What is read on the way -/

def gatherLook (met : List Bytes) : (op : ReadOp) → op.Res → List Bytes
  | .read _, response => met ++ (Except.toOption response : Option Bytes).toList
  | _, _ => met

def gather (met : List Bytes) : (op : FsOp) → op.Res → List Bytes
  | .look op, response => gatherLook met op response
  | _, _ => met

/-- The contents that the reads of a run find. -/
def contentsRead (events : List (Event FsOp Disk)) : List Bytes :=
  followed FsOp.step gather [] events

section Gathering

variable {v : VaultService} {relative : Text} {p : Path} {met : List Bytes}

abbrev Gathers (met : List Bytes) (look : Look α) (Q : List Bytes → Except Exc α → Prop) : Prop :=
  Monitored (fun _ _ => True) gatherLook met look Q

abbrev Collects (met : List Bytes) (p : Fs α) (Q : List Bytes → Except Exc α → Prop) : Prop :=
  Monitored (fun _ _ => True) gather met p Q

theorem collects_look {look : Look α} {Q : List Bytes → Except Exc α → Prop}
    (gathers : Gathers met look Q) : Collects met (liftM look : Fs α) Q := by
  change Monitored _ gather met (Effect.lift FsOp.look _ look) Q
  induction look generalizing met with
  | done result => exact gathers
  | call op next ih => exact ⟨trivial,fun response => ih _ (gathers.2 response)⟩

theorem prefix_gather (met : List Bytes) (op : FsOp) (response : op.Res) :
    met <+: gather met op response := by
  cases op with
  | look op =>
    cases op with
    | read p => exact List.prefix_append _ _
    | lstat | size | realpath | scandir | receive => exact List.prefix_refl _
  | openTemp | writeTemp | syncTemp | closeTemp | linkTemp | replaceTemp | unlinkTemp | link
  | unlink | mkdir | openDir | syncDir | closeDir => exact List.prefix_refl _

theorem collects_grow (p : Fs α) : Collects met p fun met' _ => met <+: met' := by
  induction p generalizing met with
  | done result => exact List.prefix_refl met
  | call op next ih =>
    exact ⟨trivial,fun response => (ih response).mono fun _ _ grows =>
      (prefix_gather met op response).trans grows⟩

theorem gathers_inspecting {look : Look α} (every : Every Inspecting look) :
    Gathers met look fun met' _ => met' = met := by
  refine monitored_steady every (fun _ _ _ => trivial) fun met op response inspects => ?_
  cases op with
  | read => cases inspects
  | lstat | size | realpath | scandir | receive => rfl

/-- `_read_file` returns what it adds. -/
theorem gathers_readFile : Gathers met (v.readFile p) fun met' result =>
    ∀ data,result = .ok data → met' = met ++ [data] := by
  refine monitored_perform trivial fun size => ?_
  cases size with
  | error errno => exact fun data impossible => by cases impossible
  | ok size =>
    dsimp only
    split
    · exact fun data impossible => by cases impossible
    · refine monitored_perform trivial fun response => ?_
      cases response with
      | error errno => exact fun data impossible => by cases impossible
      | ok content =>
        dsimp only
        split
        · exact fun data impossible => by cases impossible
        · exact fun data same => congrArg (met ++ [·]) (Except.ok.inj same)

theorem gathers_snapshot : Gathers met (v.snapshot relative p) fun met' result =>
    ∀ data digest,result = .ok (data,digest) → met' = met ++ [data] ∧
      digest = sha256Bytes data := by
  have safe (met : List Bytes) := @gathers_inspecting met _ _ (@inspecting_assertSafeExisting p
    (some relative))
  refine (safe met).bind (fun _ _ same => ?_) fun _ _ _ _ _ impossible => by cases impossible
  subst same
  refine gathers_readFile.bind (fun met' data read => ?_) fun _ _ _ _ _ impossible => by
    cases impossible
  refine (safe met').bind (fun met'' _ same => ?_) fun _ _ _ _ _ impossible => by
    cases impossible
  intro data' digest both
  obtain ⟨rfl,rfl⟩ := Prod.mk.inj (Except.ok.inj both)
  exact ⟨same.trans (read _ rfl),rfl⟩

theorem gathers_expectedContent [Host] (expected : Option Text) :
    Gathers met (v.expectedContent relative p expected) fun met' result =>
      ∀ actual,result = .ok actual → ∃ data,met' = met ++ [data] ∧ actual = sha256Bytes data := by
  refine gathers_snapshot.bind (fun met' both snapped => ?_) fun _ _ _ _ impossible => by
    cases impossible
  obtain ⟨data,digest⟩ := both
  obtain ⟨read,same⟩ := snapped data digest rfl
  dsimp only
  cases required : requireExpectedHash relative expected with
  | error reason => exact fun _ impossible => by cases impossible
  | ok wanted =>
    change Gathers met' (Proc.raiseIf (wanted ≠ digest) _ >>= fun _ => pure digest) _
    by_cases differs : wanted ≠ digest
    · rw [Proc.raiseIf,if_pos differs]
      exact fun _ impossible => by cases impossible
    · rw [Proc.raiseIf,if_neg differs]
      intro actual answer
      exact ⟨data,read,(Except.ok.inj answer).symm.trans same⟩

/-! ### Looks that read nothing -/

theorem inspecting_assertRootAvailable : Every Inspecting assertRootAvailable := by
  refine (inspecting_call rfl).bind fun found => ?_
  cases found with
  | error errno => trivial
  | ok info =>
    dsimp only
    split <;> trivial

theorem inspecting_checkContainment (relative : Option Text) (p : Path) :
    Every Inspecting (checkContainment relative p) := by
  refine (inspecting_call rfl).bind fun found => ?_
  split <;> trivial

theorem inspecting_resolve (value : Text) (flags : ResolveFlags) :
    Every Inspecting (resolve value flags) := by
  refine inspecting_assertRootAvailable.bind fun _ => (every_ofExcept _).bind fun relative => ?_
  refine (inspecting_checkExistingChain ..).bind fun _ => ?_
  refine Every.bind ((inspecting_call rfl).bind fun found => ?_) fun _ => ?_
  · split
    · simp
    · trivial
    · trivial
    · split
      · trivial
      · split
        · trivial
        · simp
  refine (inspecting_checkContainment ..).bind fun _ => ?_
  exact (inspecting_checkExistingChain ..).bind fun _ =>
    (inspecting_checkContainment ..).bind fun _ => trivial

theorem inspecting_resolveFile (value : Text) : Every Inspecting (resolveFile value) :=
  (every_ofExcept _).bind fun _ => (inspecting_resolve ..).bind fun _ =>
    (inspecting_assertSafeExisting _).bind fun _ => trivial

theorem inspecting_resolveParentAndTarget (value : Text) :
    Every Inspecting (resolveParentAndTarget value) := by
  refine (every_ofExcept _).bind fun relative => Every.bind ?_ fun _ =>
    (inspecting_assertSafeExisting _).bind fun _ => trivial
  refine (every_ofExcept _).bind fun _ => (inspecting_resolve ..).bind fun _ =>
    (inspecting_resolve ..).bind fun _ => trivial

end Gathering

/-! ### What is answered -/

namespace Receipt

def Describes (receipt : Receipt) (data : Bytes) : Prop :=
  receipt.sha256 = some (sha256Bytes data) ∧ receipt.byteLength = some data.size

end Receipt

namespace Request

/-- The bytes that an operation publishes: those it was given, and for a move the content that it
read and verified first. -/
def published (met : List Bytes) : Request → Option Bytes
  | .create _ data | .write _ data _ => some data
  | .move _ _ _ => met.head?
  | .upload content _ _ => some content.data

def Answers (met : List Bytes) (receipt : Receipt) : Request → Prop
  | .create _ data => receipt.Describes data
  | .write _ _ _ => ∃ final,met.getLast? = some final ∧ receipt.Describes final
  | .move _ _ _ => ∃ old final,met.head? = some old ∧ met.getLast? = some final ∧
    receipt.sha256 = some (sha256Bytes old) ∧ receipt.byteLength = some final.size
  | .upload content _ _ => receipt.Describes content.data

/-- The receipt describes what was published, and the next update that names its digest goes
ahead over contents with that digest only. -/
def Truthful [Host] (request : Request) (met : List Bytes) (receipt : Receipt) : Prop :=
  ∃ data,request.published met = some data ∧ receipt.Describes data ∧
    ∀ path new content,(Request.write path new receipt.sha256).Permits content →
      sha256Bytes content = sha256Bytes data

/-- What is read last is still what an update put there, or as long as what a move took. -/
def Settled (met : List Bytes) : Request → Prop
  | .write _ data _ => ∀ final,met.getLast? = some final →
    sha256Bytes final = sha256Bytes data ∧ final.size = data.size
  | .move _ _ _ => met.getLast?.map ByteArray.size = met.head?.map ByteArray.size
  | .create _ _ | .upload _ _ _ => True

end Request

section Answering

variable {v : VaultService}

theorem returns_createBytes (value : Text) (data : Bytes) :
    Returns (fun receipt => receipt.Describes data) (v.createBytes value data) := by
  rw [VaultService.createBytes]
  split
  · trivial
  · refine Returns.last fun place => ?_
    obtain ⟨_,_,_⟩ := place
    exact Returns.last fun _ => Returns.last fun _ =>
      Returns.lift (Returns.last fun _ => ⟨rfl,rfl⟩)

theorem returns_createUpload (content : Upload) (replayed : Bool) (target : Path) :
    Returns (fun stored => stored = (sha256Bytes content.data,content.data.size))
      (v.createUpload content replayed target) := by
  cases content with
  | content data => exact Returns.last fun _ => rfl
  | stream chunks =>
    refine Returns.last fun opened => ?_
    cases opened with
    | error errno => trivial
    | ok token => exact Returns.last fun _ => Returns.last fun _ => rfl

theorem returns_storeUpload (content : Upload) (replayed : Bool)
    (displayName directory : Text) (directoryPath : Path) (relative : Text) :
    Returns (fun receipt => receipt.toReceipt.Describes content.data)
      (v.storeUpload content replayed displayName directory directoryPath relative) := by
  refine (returns_createUpload ..).bind fun stored same => ?_
  subst same
  exact Returns.lift (Returns.last fun _ => Returns.last fun _ => ⟨rfl,rfl⟩)

theorem returns_retryOnCollision {R : UploadReceipt → Prop} {attempt : Fs UploadReceipt}
    {retry : Exc → Fs UploadReceipt} (first : Returns R attempt)
    (again : ∀ reason,Returns R (retry reason)) :
    Returns R (VaultService.retryOnCollision attempt retry) := by
  rw [VaultService.retryOnCollision]
  induction attempt with
  | done result =>
    cases result with
    | ok receipt => exact first
    | error reason =>
      change Returns R (if _ then retry reason else Proc.throw reason)
      split
      · exact again reason
      · trivial
  | call op next ih => exact fun response => ih response (first response)

theorem returns_uploadLoop [Host] (content : Upload) (displayName directory : Text)
    (directoryPath : Path) (attempts : Nat) (replayed : Bool) (taken : List Text)
    (lastError : Exc) : Returns (fun receipt => receipt.toReceipt.Describes content.data)
      (v.uploadLoop content displayName directory directoryPath attempts replayed taken
        lastError) := by
  induction attempts generalizing replayed taken lastError with
  | zero => trivial
  | succ attempts ih =>
    refine Returns.last fun ⟨relative,free⟩ => ?_
    dsimp only
    split
    · refine returns_retryOnCollision (returns_storeUpload ..) fun reason => ih ..
    · exact ih ..

theorem returns_uploadAttachment [Host] (content : Upload) (name directory : Text) :
    Returns (fun receipt => receipt.toReceipt.Describes content.data)
      (v.uploadAttachment content name directory) :=
  Returns.last fun ⟨_,_,_⟩ => Returns.last fun _ => returns_uploadLoop ..

end Answering

section Reading

variable {v : VaultService} {met : List Bytes}

theorem collects_writeBytes [Host] (value : Text) (data : Bytes) (expected : Option Text) :
    Collects met (v.writeBytes value data expected) fun met' result => ∀ receipt,
      result = .ok receipt → (Request.write value data expected).Answers met' receipt := by
  rw [VaultService.writeBytes]
  split
  · exact fun _ impossible => by cases impossible
  · refine (collects_grow _).bind (fun _ found _ => ?_) fun _ _ _ _ impossible => by
      cases impossible
    refine (collects_grow _).bind (fun _ _ _ => ?_) fun _ _ _ _ impossible => by
      cases impossible
    refine collects_look ?_
    refine (gathers_inspecting (inspecting_assertSafeExisting _)).bind (fun _ _ _ => ?_)
      fun _ _ _ _ impossible => by cases impossible
    refine gathers_readFile.bind (fun met' final read => ?_) fun _ _ _ _ impossible => by
      cases impossible
    rintro receipt ⟨⟩
    exact ⟨final,by rw [read final rfl,List.getLast?_concat],rfl,rfl⟩

theorem collects_moveFile [Host] (source destination : Text) (expected : Option Text) :
    Collects [] (v.moveFile source destination expected) fun met result => ∀ receipt,
      result = .ok receipt → (Request.move source destination expected).Answers met receipt := by
  refine (collects_look (gathers_inspecting (inspecting_resolveFile source))).bind
    (fun _ names same => ?_) fun _ _ _ _ impossible => by cases impossible
  subst same
  refine (collects_look (gathers_inspecting (inspecting_resolveParentAndTarget destination))).bind
    (fun _ target same => ?_) fun _ _ _ _ impossible => by cases impossible
  subst same
  dsimp only
  split
  · exact fun _ impossible => by cases impossible
  · refine (collects_look (gathers_expectedContent expected)).bind (fun met' actual read => ?_)
      fun _ _ _ _ impossible => by cases impossible
    obtain ⟨old,rfl,rfl⟩ := read actual rfl
    refine (collects_grow _).bind (fun checked _ grown => ?_) fun _ _ _ _ impossible => by
      cases impossible
    refine (collects_grow _).bind (fun linked _ grown' => ?_) fun _ _ _ _ impossible => by
      cases impossible
    refine collects_look (gathers_readFile.bind (fun met'' final read => ?_)
      fun _ _ _ _ impossible => by cases impossible)
    rintro receipt ⟨⟩
    obtain ⟨rest,rfl⟩ := grown.trans grown'
    exact ⟨old,final,by rw [read final rfl]; rfl,by rw [read final rfl,List.getLast?_concat],
      rfl,rfl⟩

end Reading

section Runs

variable [Host]

theorem answers_of_ok (v : VaultService) (outside : List (Disk → Disk)) (d : Disk)
    (request : Request) {receipt : Receipt} (ok : request.answer v outside d = .ok receipt) :
    request.Answers (contentsRead (request.trace v outside d)) receipt := by
  cases request with
  | create path data =>
    exact outcome_of_returns (returns_createBytes path data) outside d ok
  | write path data expected =>
    exact ends_of_monitored (collects_writeBytes path data expected) outside d receipt ok
  | move source destination expected =>
    exact ends_of_monitored (collects_moveFile source destination expected) outside d receipt ok
  | upload content name directory =>
    obtain ⟨uploaded,ended,rfl⟩ : ∃ uploaded,outcome FsOp.step outside
        (v.uploadAttachment content name directory) d = .ok uploaded ∧
          uploaded.toReceipt = receipt := by
      change Except.map _ _ = _ at ok
      generalize outcome FsOp.step outside (v.uploadAttachment content name directory) d =
        result at ok ⊢
      cases result with
      | error reason => cases ok
      | ok uploaded => exact ⟨uploaded,rfl,Except.ok.inj ok⟩
    exact outcome_of_returns (returns_uploadAttachment content name directory) outside d ended

theorem truthful_iff_describes {request : Request} {met : List Bytes} {receipt : Receipt} :
    request.Truthful met receipt ↔
      ∃ data,request.published met = some data ∧ receipt.Describes data := by
  refine exists_congr fun data => and_congr_right fun _ => and_iff_left_of_imp ?_
  intro describes path new content permits
  obtain ⟨text,same,-,digest⟩ := permits
  rw [describes.1] at same
  rw [← digest,← Option.some.inj same,canonicalDigest_sha256Bytes]

/-- For every interleaving of outside writers with an operation that succeeds: its receipt
describes what it published exactly when what it reads last is still what it put there (an
update) or as long as what it took (a move); a create and an upload answer from their
argument. -/
theorem receipt_truthful_iff (v : VaultService) (outside : List (Disk → Disk)) (d : Disk)
    (request : Request) (receipt : Receipt) (ok : request.answer v outside d = .ok receipt) :
    request.Truthful (contentsRead (request.trace v outside d)) receipt ↔
      request.Settled (contentsRead (request.trace v outside d)) := by
  have answers := answers_of_ok v outside d request ok
  generalize contentsRead (request.trace v outside d) = met at answers ⊢
  rw [truthful_iff_describes]
  cases request with
  | create path data => exact iff_of_true ⟨data,rfl,answers⟩ trivial
  | upload content name directory => exact iff_of_true ⟨content.data,rfl,answers⟩ trivial
  | write path data expected =>
    obtain ⟨final,last,digest,length⟩ := answers
    constructor
    · rintro ⟨_,⟨⟩,digest',length'⟩ final' last'
      obtain rfl := Option.some.inj (last.symm.trans last')
      exact ⟨Option.some.inj (digest.symm.trans digest'),
        Option.some.inj (length.symm.trans length')⟩
    · intro settled
      obtain ⟨same,sized⟩ := settled final last
      exact ⟨data,rfl,same ▸ digest,sized ▸ length⟩
  | move source destination expected =>
    obtain ⟨old,final,first,last,digest,length⟩ := answers
    rw [Request.Settled,first,last,Option.map_some,Option.map_some,Option.some.injEq]
    constructor
    · rintro ⟨data,same,-,length'⟩
      obtain rfl := Option.some.inj (first.symm.trans same)
      exact Option.some.inj (length.symm.trans length')
    · exact fun same => ⟨old,first,digest,same ▸ length⟩

end Runs

section Overtaken

open scoped AsciiHost

def overtaker : List (Disk → Disk) :=
  List.replicate 53 id ++ [fun d => d.setTree ["a.md".toList] (some (.file "b".toUTF8))]

def overtaken : Request := .write "a.md".toList "c".toUTF8 (some (sha256Bytes "a".toUTF8))

theorem answer_overtaken : overtaken.answer ⟨100,hundred_pos⟩ overtaker oneFile =
    .ok ⟨"a.md".toList,some (sha256Bytes "b".toUTF8),some 1,.updated⟩ := by decide +kernel

theorem overtaken_truthful_iff : overtaken.Truthful
      (contentsRead (overtaken.trace ⟨100,hundred_pos⟩ overtaker oneFile))
      ⟨"a.md".toList,some (sha256Bytes "b".toUTF8),some 1,.updated⟩ ↔
    overtaken.Settled (contentsRead (overtaken.trace ⟨100,hundred_pos⟩ overtaker oneFile)) :=
  receipt_truthful_iff _ _ _ _ _ answer_overtaken

/-- The next update that names this digest goes ahead over what nobody has seen. -/
theorem overtaken_untruthful : ¬ ∀ receipt,
    overtaken.answer ⟨100,hundred_pos⟩ overtaker oneFile = .ok receipt →
      overtaken.Truthful (contentsRead (overtaken.trace ⟨100,hundred_pos⟩ overtaker oneFile))
        receipt := by
  intro truthful
  obtain ⟨data,same,-,seen⟩ := truthful _ answer_overtaken
  obtain rfl : "c".toUTF8 = data := Option.some.inj same
  have collides := seen [] .empty "b".toUTF8 ⟨_,rfl,by decide +kernel,
    canonicalDigest_sha256Bytes _⟩
  exact absurd collides (by decide +kernel)

end Overtaken

end LocalBook.Vault
