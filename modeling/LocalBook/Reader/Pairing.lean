import LocalBook.Reader.Tables
import LocalBook.Sha256

/-! Pairing: a code is created, approved in the settings, and used by a device to register.
Approval and registration each read the code first and write later, so that requests
interleave between the two. -/
namespace LocalBook.Reader

inductive DeviceType where
  | macos
  | ios
  | android
deriving Repr,DecidableEq

/-- A row of `pairing_tokens`. -/
structure PairingToken where
  deviceName : Text
  deviceType : DeviceType
  expiresAt : Int
  usedAt : Option Int := none
  usedByDeviceId : Option Text := none
  approvedAt : Option Int := none
deriving Repr,DecidableEq

/-- A row of `devices`. -/
structure Device where
  deviceName : Text
  deviceType : DeviceType
  publicKey : Option Text
  createdAt : Int
  lastSeen : Int
deriving Repr,DecidableEq

structure PairingDb where
  tokens : Table PairingToken := fun _ => none
  devices : Table Device := fun _ => none

inductive PairingErrorCode where
  | invalidPairingToken
  | pairingTokenExpired
  | pairingApprovalRequired
  | deviceAlreadyRegistered
deriving Repr,DecidableEq

structure PairingError where
  code : PairingErrorCode
  message : String
  status : Nat
deriving Repr,DecidableEq

structure RegisterRequest where
  deviceId : Text
  deviceName : Text
  deviceType : DeviceType
  pairingToken : Text
  publicKey : Option Text := none
deriving Repr,DecidableEq

def tokenHash (pairingToken : Text) : Text := Sha256.hexdigest (encodeUtf8 pairingToken)

namespace PairingDb

/-- `create_pairing_token`, of a code that is not stored yet. -/
def createPairingToken (db : PairingDb) (token deviceName : Text) (deviceType : DeviceType)
    (time : Int) : PairingDb :=
  if (db.tokens (tokenHash token)).isSome then db
  else {db with tokens := Function.update db.tokens (tokenHash token) (some
    {deviceName,deviceType,expiresAt := time + 300})}

/-- The query of `approve_pairing_token`, with its checks. -/
def checkApproval (db : PairingDb) (pairingToken : Text) (time : Int) :
    Except PairingError PairingToken :=
  match db.tokens (tokenHash pairingToken) with
  | none => .error ⟨.invalidPairingToken,"Invalid pairing token",404⟩
  | some row =>
    if row.usedAt ≠ none ∨ row.expiresAt < time then
      .error ⟨.pairingTokenExpired,"Pairing token has expired",410⟩
    else .ok row

/-- The update of `approve_pairing_token`: an approved or used code stays as it is. -/
def writeApproval (db : PairingDb) (hash : Text) (time : Int) : PairingDb :=
  {db with tokens := db.tokens.modify hash fun row =>
    if row.approvedAt = none ∧ row.usedAt = none then {row with approvedAt := some time}
    else row}

/-- The query of `verify_and_register_device`, with its checks in order. -/
def checkRegistration (db : PairingDb) (request : RegisterRequest) (time : Int) :
    Except PairingError PairingToken :=
  match db.tokens (tokenHash request.pairingToken) with
  | none => .error ⟨.invalidPairingToken,"Invalid pairing token",401⟩
  | some row =>
    if row.usedAt ≠ none then .error ⟨.pairingTokenExpired,"Pairing token already used",401⟩
    else if row.expiresAt < time then
      .error ⟨.pairingTokenExpired,"Pairing token has expired",401⟩
    else if row.deviceName ≠ request.deviceName ∨ row.deviceType ≠ request.deviceType then
      .error ⟨.invalidPairingToken,"Device info does not match pairing token",401⟩
    else if row.approvedAt = none then
      .error ⟨.pairingApprovalRequired,"Pairing code requires approval in LocalBook settings",403⟩
    else .ok row

/-- The transaction of `verify_and_register_device`: the device is inserted, and the code
marked as used, whatever it is by then. -/
def writeRegistration (db : PairingDb) (request : RegisterRequest) (time : Int) :
    Except PairingError PairingDb :=
  if (db.devices request.deviceId).isSome then
    .error ⟨.deviceAlreadyRegistered,
      "Device with id '" ++ String.ofList request.deviceId ++ "' already exists",400⟩
  else .ok {
    devices := Function.update db.devices request.deviceId (some
      {deviceName := request.deviceName,deviceType := request.deviceType,
       publicKey := request.publicKey,createdAt := time,lastSeen := time}),
    tokens := db.tokens.modify (tokenHash request.pairingToken) fun row =>
      {row with usedAt := some time,usedByDeviceId := some request.deviceId}}

end PairingDb

inductive PendingRequest where
  | approving (hash : Text)
  | registering (request : RegisterRequest)

/-- A registration that was committed: the code's row as it found it, and when. -/
structure Registration where
  request : RegisterRequest
  token : Option PairingToken
  time : Int

def Registration.hash (registration : Registration) : Text :=
  tokenHash registration.request.pairingToken

/-- The server, its clock, the requests in flight, and the registrations so far. -/
structure PairingWorld where
  db : PairingDb := {}
  now : Int := 0
  pending : Nat → Option PendingRequest := fun _ => none
  registered : List Registration := []

inductive PairingStep where
  | tick (seconds : Nat)
  | create (token deviceName : Text) (deviceType : DeviceType)
  | approve (id : Nat) (pairingToken : Text)
  | register (id : Nat) (request : RegisterRequest)
  | finish (id : Nat)

namespace PairingStep

def queue (w : PairingWorld) (id : Nat) (request : PendingRequest)
    (checked : Except PairingError PairingToken) : PairingWorld :=
  match checked with
  | .ok _ => {w with pending := Function.update w.pending id (some request)}
  | .error _ => w

def registrationOf (w : PairingWorld) (request : RegisterRequest) : Registration where
  request := request
  token := w.db.tokens (tokenHash request.pairingToken)
  time := w.now

def complete (w : PairingWorld) (id : Nat) : PendingRequest → PairingWorld
  | .approving hash =>
    {w with db := w.db.writeApproval hash w.now,
            pending := Function.update w.pending id none}
  | .registering request =>
    let pending := Function.update w.pending id none
    match w.db.writeRegistration request w.now with
    | .error _ => {w with pending}
    | .ok db => {w with db,pending,registered := registrationOf w request :: w.registered}

/-- One statement or transaction. A request starts under a number that is not in use. -/
def step (w : PairingWorld) : PairingStep → PairingWorld
  | .tick seconds => {w with now := w.now + seconds}
  | .create token deviceName deviceType =>
    {w with db := w.db.createPairingToken token deviceName deviceType w.now}
  | .approve id pairingToken =>
    if (w.pending id).isSome then w
    else queue w id (.approving (tokenHash pairingToken)) (w.db.checkApproval pairingToken w.now)
  | .register id request =>
    if (w.pending id).isSome then w
    else queue w id (.registering request) (w.db.checkRegistration request w.now)
  | .finish id =>
    match w.pending id with
    | none => w
    | some request => complete w id request

def run (steps : List PairingStep) (w : PairingWorld) : PairingWorld := steps.foldl step w

end PairingStep

def Registration.Legitimate (registration : Registration) : Prop :=
  ∃ token, registration.token = some token ∧ token.approvedAt ≠ none ∧
    registration.time ≤ token.expiresAt ∧
    token.deviceName = registration.request.deviceName ∧
    token.deviceType = registration.request.deviceType

/-- Each code led to one registration at most, and to a legitimate one. -/
structure SingleUse (w : PairingWorld) : Prop where
  once : (w.registered.map Registration.hash).Nodup
  legitimate : ∀ registration ∈ w.registered, registration.Legitimate

structure Recorded (w : PairingWorld) : Prop where
  used : ∀ hash, (∃ token, w.db.tokens hash = some token ∧ token.usedAt ≠ none) ↔
    hash ∈ w.registered.map Registration.hash
  checked : ∀ id request, w.pending id = some (.registering request) →
    ∃ token, w.db.tokens (tokenHash request.pairingToken) = some token ∧
      token.approvedAt ≠ none ∧ token.deviceName = request.deviceName ∧
      token.deviceType = request.deviceType

namespace PairingStep

/-- The registration that is written finds its code as unused and unexpired as its query did,
or is refused because of its device. -/
def Conforms (w : PairingWorld) : PairingStep → Prop
  | .finish id => ∀ request, w.pending id = some (.registering request) →
      (w.db.devices request.deviceId).isSome ∨
      ∀ token, w.db.tokens (tokenHash request.pairingToken) = some token →
        token.usedAt = none ∧ w.now ≤ token.expiresAt
  | _ => True

def Conforming : List PairingStep → PairingWorld → Prop
  | [],_ => True
  | s :: rest,w => Conforms w s ∧ Conforming rest (step w s)

section Steps

variable {w : PairingWorld} {id : Nat}

theorem recorded_write (recorded : Recorded w) {db : PairingDb}
    {pending : Nat → Option PendingRequest}
    (used : ∀ hash, (∃ token, db.tokens hash = some token ∧ token.usedAt ≠ none) ↔
      ∃ token, w.db.tokens hash = some token ∧ token.usedAt ≠ none)
    (kept : ∀ hash token, w.db.tokens hash = some token → ∃ token', db.tokens hash = some token' ∧
      (token.approvedAt ≠ none → token'.approvedAt ≠ none) ∧
      token'.deviceName = token.deviceName ∧ token'.deviceType = token.deviceType)
    (fewer : ∀ id request, pending id = some (.registering request) →
      w.pending id = some (.registering request)) :
    Recorded {w with db,pending} := by
  refine ⟨fun hash => (used hash).trans (recorded.used hash),fun id request waits => ?_⟩
  obtain ⟨token,found,approved,name,type⟩ := recorded.checked id request (fewer id request waits)
  obtain ⟨token',found',approved',name',type'⟩ := kept _ token found
  exact ⟨token',found',approved' approved,name'.trans name,type'.trans type⟩

theorem kept_self (token : PairingToken) {db : PairingDb} {hash : Text}
    (found : db.tokens hash = some token) : ∃ token', db.tokens hash = some token' ∧
      (token.approvedAt ≠ none → token'.approvedAt ≠ none) ∧
      token'.deviceName = token.deviceName ∧ token'.deviceType = token.deviceType :=
  ⟨token,found,id,rfl,rfl⟩

theorem recorded_modify (recorded : Recorded w) {hash : Text} {change : PairingToken → PairingToken}
    {pending : Nat → Option PendingRequest}
    (used : ∀ token, (change token).usedAt = token.usedAt)
    (kept : ∀ token, (token.approvedAt ≠ none → (change token).approvedAt ≠ none) ∧
      (change token).deviceName = token.deviceName ∧ (change token).deviceType = token.deviceType)
    (fewer : ∀ id request, pending id = some (.registering request) →
      w.pending id = some (.registering request)) :
    Recorded {w with db := {w.db with tokens := w.db.tokens.modify hash change},pending} := by
  refine recorded_write recorded (fun other => ?_) (fun other token found => ?_) fewer
  · dsimp only [Table.modify]
    by_cases same : other = hash
    · subst same
      rw [Function.update_self]
      cases w.db.tokens other <;> simp [used]
    · rw [Function.update_of_ne same]
  · dsimp only [Table.modify]
    by_cases same : other = hash
    · subst same
      rw [Function.update_self,found]
      exact ⟨change token,rfl,kept token⟩
    · rw [Function.update_of_ne same]
      exact kept_self token found

theorem recorded_admit (recorded : Recorded w) {request : PendingRequest}
    {checked : Except PairingError PairingToken}
    (known : ∀ token, checked = .ok token → ∀ registering, request = .registering registering →
      w.db.tokens (tokenHash registering.pairingToken) = some token ∧ token.approvedAt ≠ none ∧
        token.deviceName = registering.deviceName ∧ token.deviceType = registering.deviceType) :
    Recorded (queue w id request checked) := by
  cases checked with
  | error error => exact recorded
  | ok token =>
    refine ⟨recorded.used,fun other registering waits => ?_⟩
    dsimp only [queue] at waits
    rw [Function.update_apply] at waits
    split at waits
    · exact ⟨token,known token rfl registering (Option.some.inj waits)⟩
    · exact recorded.checked other registering waits

theorem checkRegistration_ok {db : PairingDb} {request : RegisterRequest} {time : Int}
    {token : PairingToken} (passed : db.checkRegistration request time = .ok token) :
    db.tokens (tokenHash request.pairingToken) = some token ∧ token.approvedAt ≠ none ∧
      token.deviceName = request.deviceName ∧ token.deviceType = request.deviceType := by
  unfold PairingDb.checkRegistration at passed
  cases found : db.tokens (tokenHash request.pairingToken) with
  | none => simp [found] at passed
  | some row =>
    rw [found] at passed
    dsimp only at passed
    split at passed
    · cases passed
    · split at passed
      · cases passed
      · split at passed
        · cases passed
        · rename_i info
          split at passed
          · cases passed
          · rename_i approved
            obtain rfl := Except.ok.inj passed
            obtain ⟨name,type⟩ := not_or.mp info
            exact ⟨rfl,approved,not_not.mp name,not_not.mp type⟩

theorem fewer_update (pending : Nat → Option PendingRequest) (id : Nat) :
    ∀ other request, Function.update pending id none other = some (.registering request) →
      pending other = some (.registering request) := by
  intro other request waits
  rw [Function.update_apply] at waits
  split at waits
  · cases waits
  · exact waits

theorem writeRegistration_cases {db : PairingDb} (request : RegisterRequest) (time : Int) :
    ((db.devices request.deviceId).isSome = true ∧
      ∃ error, db.writeRegistration request time = .error error) ∨
    ((db.devices request.deviceId).isSome = false ∧
      ∃ db', db.writeRegistration request time = .ok db' ∧
        db'.tokens = db.tokens.modify (tokenHash request.pairingToken) fun row =>
          {row with usedAt := some time,usedByDeviceId := some request.deviceId}) := by
  unfold PairingDb.writeRegistration
  split
  · rename_i taken
    exact .inl ⟨taken,_,rfl⟩
  · rename_i free
    exact .inr ⟨Bool.eq_false_iff.mpr free,_,rfl,rfl⟩

theorem recorded_complete (recorded : Recorded w) {request : PendingRequest}
    (waits : w.pending id = some request) : Recorded (complete w id request) := by
  cases request with
  | approving hash =>
    refine recorded_modify recorded (fun token => ?_) (fun token => ?_) (fewer_update _ _)
    · split <;> rfl
    · split
      · exact ⟨fun _ => Option.some_ne_none _,rfl,rfl⟩
      · exact ⟨fun approved => approved,rfl,rfl⟩
  | registering request =>
    rw [complete]
    rcases @writeRegistration_cases w.db request w.now with
      ⟨-,error,refused⟩ | ⟨-,db,written,tokens⟩
    · rw [refused]
      exact recorded_write recorded (fun _ => Iff.rfl) (fun _ token found => kept_self token found)
        (fewer_update _ _)
    · rw [written]
      dsimp only
      obtain ⟨token,found,approved,name,type⟩ := recorded.checked id request waits
      refine ⟨fun hash => ?_,fun other later waiting => ?_⟩
      · dsimp only
        rw [tokens,List.map_cons,List.mem_cons,← recorded.used hash,Table.modify,
          Function.update_apply]
        by_cases same : hash = tokenHash request.pairingToken
        · rw [if_pos same,found]
          exact iff_of_true ⟨_,rfl,Option.some_ne_none _⟩ (.inl same)
        · rw [if_neg same]
          exact (or_iff_right same).symm
      · obtain ⟨row,stored,fine,named,typed⟩ :=
          recorded.checked other later (fewer_update _ _ other later waiting)
        dsimp only
        rw [tokens,Table.modify,Function.update_apply]
        split
        · rename_i same
          rw [← same,stored]
          exact ⟨_,rfl,fine,named,typed⟩
        · exact ⟨row,stored,fine,named,typed⟩

theorem recorded_step (recorded : Recorded w) (s : PairingStep) : Recorded (step w s) := by
  cases s with
  | tick seconds => exact ⟨recorded.used,recorded.checked⟩
  | create token deviceName deviceType =>
    rw [step,PairingDb.createPairingToken]
    split
    · exact recorded
    · rename_i free
      have absent : w.db.tokens (tokenHash token) = none := Option.not_isSome_iff_eq_none.mp free
      refine recorded_write recorded (fun hash => ?_) (fun hash row found => ?_) fun _ _ => id
      · dsimp only
        rw [Function.update_apply]
        split
        · rename_i same
          rw [same,absent]
          simp
        · rfl
      · dsimp only
        have other : hash ≠ tokenHash token := by
          rintro rfl
          rw [absent] at found
          cases found
        rw [Function.update_of_ne other]
        exact kept_self row found
  | approve id pairingToken =>
    rw [step]
    split
    · exact recorded
    · exact recorded_admit recorded fun _ _ _ same => by cases same
  | register id request =>
    rw [step]
    split
    · exact recorded
    · refine recorded_admit recorded fun token passed registering same => ?_
      obtain rfl := PendingRequest.registering.inj same
      exact checkRegistration_ok passed
  | finish id =>
    rw [step]
    cases waits : w.pending id with
    | none => exact recorded
    | some request => exact recorded_complete recorded waits

theorem registered_step (w : PairingWorld) (s : PairingStep) :
    (step w s).registered = w.registered ∨ ∃ id request, s = .finish id ∧
      w.pending id = some (.registering request) ∧
      (w.db.devices request.deviceId).isSome = false ∧
      (step w s).registered = registrationOf w request :: w.registered := by
  cases s with
  | tick seconds => exact .inl rfl
  | create token deviceName deviceType => exact .inl rfl
  | approve id pairingToken =>
    rw [step]
    split
    · exact .inl rfl
    · unfold queue
      split <;> exact .inl rfl
  | register id request =>
    rw [step]
    split
    · exact .inl rfl
    · unfold queue
      split <;> exact .inl rfl
  | finish id =>
    rw [step]
    cases waits : w.pending id with
    | none => exact .inl rfl
    | some pending =>
      cases pending with
      | approving hash => exact .inl rfl
      | registering request =>
        dsimp only
        rw [complete]
        rcases @writeRegistration_cases w.db request w.now with
          ⟨-,error,refused⟩ | ⟨free,db,written,-⟩
        · rw [refused]
          exact .inl rfl
        · rw [written]
          exact .inr ⟨id,request,rfl,waits,free,rfl⟩

/-- A step keeps single use exactly when it conforms. -/
theorem singleUse_step (recorded : Recorded w) (s : PairingStep) :
    SingleUse (step w s) ↔ SingleUse w ∧ Conforms w s := by
  rcases registered_step w s with same | ⟨id,request,rfl,waits,free,added⟩
  · have kept : SingleUse (step w s) ↔ SingleUse w := by
      constructor
      · exact fun single => ⟨same ▸ single.once,same ▸ single.legitimate⟩
      · exact fun single => ⟨same.symm ▸ single.once,same.symm ▸ single.legitimate⟩
    refine kept.trans (and_iff_left ?_).symm
    cases s with
    | finish id =>
      intro request waits
      refine .inl ?_
      by_contra free
      rw [step,waits] at same
      dsimp only at same
      rw [complete] at same
      rcases @writeRegistration_cases w.db request w.now with ⟨taken,-⟩ | ⟨-,db,written,-⟩
      · exact free taken
      · rw [written] at same
        exact List.cons_ne_self _ _ same
    | _ => trivial
  · obtain ⟨token,found,approved,name,type⟩ := recorded.checked id request waits
    have conforms : Conforms w (.finish id) ↔
        token.usedAt = none ∧ w.now ≤ token.expiresAt := by
      constructor
      · intro conforms
        exact (conforms request waits).resolve_left (by simp [free]) token found
      · intro good other again
        rw [waits] at again
        obtain rfl := PendingRequest.registering.inj (Option.some.inj again)
        refine .inr fun row stored => ?_
        rw [found] at stored
        exact Option.some.inj stored ▸ good
    have unused : token.usedAt = none ↔
        tokenHash request.pairingToken ∉ w.registered.map Registration.hash := by
      rw [← recorded.used,found]
      simp
    have fine : (registrationOf w request).Legitimate ↔ w.now ≤ token.expiresAt := by
      constructor
      · rintro ⟨row,stored,-,live,-⟩
        rw [registrationOf,found] at stored
        exact Option.some.inj stored ▸ live
      · exact fun live => ⟨token,found,approved,live,name,type⟩
    rw [conforms,unused,← fine]
    constructor
    · rintro ⟨once,legitimate⟩
      rw [added] at once legitimate
      obtain ⟨fresh,before⟩ := List.nodup_cons.mp once
      obtain ⟨new,old⟩ := List.forall_mem_cons.mp legitimate
      exact ⟨⟨before,old⟩,fresh,new⟩
    · rintro ⟨⟨before,old⟩,fresh,new⟩
      refine ⟨?_,?_⟩
      · rw [added]
        exact List.nodup_cons.mpr ⟨fresh,before⟩
      · rw [added]
        exact List.forall_mem_cons.mpr ⟨new,old⟩

theorem singleUse_run {steps : List PairingStep} (recorded : Recorded w) :
    SingleUse (run steps w) ↔ SingleUse w ∧ Conforming steps w := by
  induction steps generalizing w with
  | nil => exact (and_iff_left trivial).symm
  | cons s rest ih =>
    rw [run,List.foldl_cons,Conforming,← and_assoc,← singleUse_step recorded s]
    exact ih (recorded_step recorded s)

/-- Over every interleaving: each code leads to one legitimate registration at most exactly
when each registration is written while its code is as it was checked. -/
theorem singleUse_iff (steps : List PairingStep) :
    SingleUse (run steps {}) ↔ Conforming steps {} := by
  have empty : Recorded {} := ⟨fun hash => by simp,fun _ _ waits => by cases waits⟩
  have none_ : SingleUse {} := ⟨List.nodup_nil,fun _ found => by cases found⟩
  exact (singleUse_run empty).trans (and_iff_right none_)

end Steps

end PairingStep

def phone (deviceId : Text) : RegisterRequest where
  deviceId := deviceId
  deviceName := "Phone".toList
  deviceType := .ios
  pairingToken := "123456".toList

def pairedTwice : List PairingStep :=
  [.create "123456".toList "Phone".toList .ios,.approve 0 "123456".toList,.finish 0,
   .register 1 (phone "a".toList),.register 2 (phone "b".toList),.finish 1,.finish 2]

theorem pairedTwice_not_singleUse : ¬ SingleUse (PairingStep.run pairedTwice {}) := by
  intro single
  have hashes : (PairingStep.run pairedTwice {}).registered.map Registration.hash =
      [tokenHash "123456".toList,tokenHash "123456".toList] := by decide +kernel
  have once := single.once
  rw [hashes] at once
  simp at once

end LocalBook.Reader
