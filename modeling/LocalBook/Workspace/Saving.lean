import LocalBook.Workspace.Tabs

/-! What a save may rest on. A session is derived from versions of its file on the server, and
its base is to be the digest of one of them; a save that replaces text on the server then
replaces text that the session has seen. -/
namespace LocalBook.Workspace

/-- Where the session of a path comes from: the digests of the versions that its content was
derived from, or that the user overrides with it; the content that the server last returned or
acknowledged for it; and the path of the save under way that was sent from this very session,
which a rename takes along. -/
structure Provenance where
  seen : List Digest := []
  known : Option Text := none
  sentTo : Option Path := none

abbrev Ledger := Path → Provenance

namespace Provenance

def took (text : Option Text) (sha256 : Digest) : Provenance := ⟨[sha256],some (text.getD []),none⟩

def overriding (p : Provenance) (text : Option Text) (sha256 : Digest) : Provenance :=
  {p with seen := sha256 :: p.seen,known := some (text.getD [])}

def sentFrom (p : Provenance) (path : Path) : Bool := p.sentTo = some path

/-- The server has acknowledged a content for a path. It is a version that the session is derived
from if it was sent from this session. -/
def acknowledging (p : Provenance) (path : Path) (content : Option Text) (sha256 : Digest) :
    Provenance :=
  {p with seen := if p.sentFrom path then sha256 :: p.seen else p.seen,known := content}

def release (path : Path) (p : Provenance) : Provenance :=
  if p.sentFrom path then {p with sentTo := none} else p

def sending (p : Provenance) (path : Path) (sent : Bool) : Provenance :=
  if sent then {p with sentTo := some path} else p

/-- A session that its provenance accounts for: its base is a digest that it has seen, and
unless it is dirty its content is the one that the server has. -/
def Accounts (p : Provenance) : Option Session → Prop
  | none => p.known = none ∧ p.sentTo = none
  | some session => (∀ sha256, session.baseSha256 = some sha256 → sha256 ∈ p.seen) ∧
      (session.dirty ≠ some true → session.content = p.known) ∧
      (p.sentTo.isSome → session.dirty = some true)

end Provenance

namespace Ledger

/-- The ledger after the answer to a save, with the provenance of its path, and whether another
save follows at once. -/
def finished (l : Ledger) (path : Path) (own : Provenance) (again : Bool) : Ledger := fun key =>
  if key = path then (own.release path).sending path again else (l key).release path

/-- The ledger after an event that leads from one store to another. -/
def step (l : Ledger) (s t : Store) : Event → Ledger
  | .closeTab path confirmed =>
    if s.declined path confirmed then l else fun key => if key = path then {} else l key
  | .save path _ => Function.update l path
      ((l path).sending path ((t.saveQueues path).running && !(s.saveQueues path).running))
  | .reply index answer =>
    match s.inFlight[index]?,answer with
    | some (.load path version),.file text sha256 =>
      if s.isCurrent path version then Function.update l path (.took text sha256) else l
    | some (.reload path version),.file text sha256 =>
      if s.isCurrent path version then Function.update l path (.took text sha256) else l
    | some (.keep path version),.file text sha256 =>
      if s.isCurrent path version && (s.sessions path).isSome then
        Function.update l path ((l path).overriding text sha256)
      else l
    | some (.patch path _ content _),.patched sha256 =>
      let own := if (s.sessions path).isSome then (l path).acknowledging path content sha256
        else l path
      l.finished path own (t.saveQueues path).running
    | some (.patch path _ _ _),.conflict => l.finished path (l path) (t.saveQueues path).running
    | some (.patch path _ _ _),.failed => l.finished path (l path) (t.saveQueues path).running
    | some (.move source _),.moved target =>
      if (s.sessions source).isSome then
        Function.update (Function.update l source {}) target.val (l source)
      else l
    | some (.trash removed),.trashed => fun key => if Store.gone removed.val key then {} else l key
    | some (.delete _),.deleted removed => fun key => if Store.gone removed.val key then {} else l key
    | _,_ => l
  | _ => l

end Ledger

def Grounded (l : Ledger) (s : Store) : Prop := ∀ path, (l path).Accounts (s.sessions path)

def timely (l : Ledger) (s : Store) : Event → Bool
  | .reply index (.patched _) =>
    match s.inFlight[index]? with
    | some (.patch path _ _ _) => !(s.sessions path).isSome || (l path).sentFrom path
    | _ => true
  | _ => true

namespace Store

variable {s : Store}

def shown (session : Session) : Option Text × Option Digest × Option Bool :=
  (session.content,session.baseSha256,session.dirty)

def SameShown (t s : Store) : Prop :=
  ∀ path, (t.sessions path).map shown = (s.sessions path).map shown

theorem SameShown.refl (s : Store) : SameShown s s := fun _ => rfl

theorem SameShown.trans {r t : Store} (first : SameShown r t) (second : SameShown t s) :
    SameShown r s := fun path => (first path).trans (second path)

theorem sameShown_update {t : Store} {path : Path} {old new : Session}
    (here : s.sessions path = some old)
    (sessions : t.sessions = Function.update s.sessions path (some new))
    (same : shown new = shown old) : SameShown t s := by
  intro key
  rw [sessions,Function.update_apply]
  split
  · rename_i equal
    rw [equal,here,Option.map_some,Option.map_some,same]
  · rfl

theorem sameShown_save (path : Path) (manual : Bool) : SameShown (s.save path manual) s := by
  unfold save
  split
  · exact .refl s
  · simp only
    split
    · exact fun _ => rfl
    · split
      · exact .refl s
      · rename_i session here
        split
        · split
          · exact sameShown_update here rfl rfl
          · exact fun _ => rfl
        · exact .refl s

theorem sameShown_saveFinished (path : Path) : SameShown (s.saveFinished path) s := by
  unfold saveFinished
  simp only
  split
  · split
    · exact fun _ => rfl
    · split
      · exact SameShown.trans (sameShown_save _ _) fun _ => rfl
      · exact fun _ => rfl
  · exact fun _ => rfl

theorem sameShown_fail (path : Path) (saveState : SaveState) :
    SameShown (s.fail path saveState) s := by
  unfold fail
  split
  · exact .refl s
  · rename_i session here
    exact sameShown_update here rfl rfl

def Dirty (s : Store) (path : Path) : Prop :=
  ∃ session, s.sessions path = some session ∧ session.dirty = some true

theorem Dirty.congr {t : Store} {path : Path} (dirty : s.Dirty path) (same : SameShown t s) :
    t.Dirty path := by
  obtain ⟨session,here,isDirty⟩ := dirty
  have there := same path
  rw [here,Option.map_some] at there
  obtain ⟨new,found,equal⟩ := Option.map_eq_some_iff.mp there
  simp only [shown,Prod.mk.injEq] at equal
  exact ⟨new,found,equal.2.2.trans isDirty⟩

theorem dirty_of_save {path : Path} {manual : Bool}
    (running : ((s.save path manual).saveQueues path).running = true)
    (idle : (s.saveQueues path).running = false) : s.Dirty path := by
  unfold save at running
  split at running
  · rw [idle] at running
    cases running
  · simp only [idle,Bool.false_eq_true,if_false] at running
    split at running
    · rw [idle] at running
      cases running
    · rename_i session here
      split at running
      · rename_i ready
        simp only [savable,Bool.and_eq_true,decide_eq_true_eq] at ready
        exact ⟨session,here,ready.1.1.1⟩
      · rw [idle] at running
        cases running

theorem dirty_of_saveFinished {path : Path}
    (running : ((s.saveFinished path).saveQueues path).running = true) : s.Dirty path := by
  unfold saveFinished at running
  simp only at running
  split at running
  · split at running
    · simp [setQueue] at running
    · split at running
      · exact (dirty_of_save running (by simp [setQueue])).congr fun _ => rfl
      · simp [setQueue] at running
  · simp [setQueue] at running

end Store

namespace Provenance

variable {p : Provenance} {session : Session}

theorem Accounts.congr {before after : Option Session} (accounts : p.Accounts before)
    (same : after.map Store.shown = before.map Store.shown) : p.Accounts after := by
  cases before with
  | none =>
    rw [Option.map_none,Option.map_eq_none_iff] at same
    rwa [same]
  | some old =>
    obtain ⟨new,rfl,equal⟩ := Option.map_eq_some_iff.mp same
    simp only [Store.shown,Prod.mk.injEq] at equal
    obtain ⟨content,base,dirty⟩ := equal
    simp only [Accounts] at accounts ⊢
    rwa [content,base,dirty]

theorem Accounts.release {session : Option Session} (accounts : p.Accounts session) (path : Path) :
    (p.release path).Accounts session := by
  unfold Provenance.release
  split
  · cases session with
    | none => exact ⟨accounts.1,rfl⟩
    | some session => exact ⟨accounts.1,accounts.2.1,nofun⟩
  · exact accounts

theorem Accounts.sending {session : Option Session} (accounts : p.Accounts session) (path : Path)
    {sent : Bool} (honest : sent → ∃ own, session = some own ∧ own.dirty = some true) :
    (p.sending path sent).Accounts session := by
  cases sent with
  | false => exact accounts
  | true =>
    obtain ⟨own,rfl,dirty⟩ := honest rfl
    exact ⟨accounts.1,accounts.2.1,fun _ => dirty⟩

theorem accounts_took (session : Session) (text : Option Text) (sha256 : Digest) :
    (took text sha256).Accounts (some (Store.decoded session text sha256)) :=
  ⟨fun _ same => by simpa [took,Store.decoded] using same.symm,fun _ => rfl,nofun⟩

theorem release_acknowledging {path : Path} (own : p.sentFrom path) (content : Option Text)
    (sha256 : Digest) : (p.acknowledging path content sha256).release path =
      ⟨sha256 :: p.seen,content,none⟩ := by
  have still : (p.acknowledging path content sha256).sentFrom path = true := own
  simp only [Provenance.release,still,if_true]
  simp only [acknowledging,own,if_true]

theorem Accounts.acknowledged (accounts : p.Accounts (some session)) {path : Path}
    (own : p.sentFrom path) (sentVersion : Version) (content : Option Text) (sha256 : Digest) :
    ((p.acknowledging path content sha256).release path).Accounts
      (some (Store.acknowledged session sentVersion content sha256)) := by
  obtain ⟨-,-,dirty⟩ := accounts
  rw [release_acknowledging own]
  refine ⟨fun base same => ?_,fun clean => ?_,nofun⟩
  · cases same
    exact List.mem_cons_self
  · -- What was edited since the save was sent is dirty still.
    simp only [Store.acknowledged] at clean ⊢
    split at clean
    · rename_i unchanged
      simp only [Bool.and_eq_true,decide_eq_true_eq] at unchanged
      exact unchanged.2
    · have sent : p.sentTo = some path := by simpa [sentFrom] using own
      exact absurd (dirty (by rw [sent]; rfl)) clean

end Provenance

namespace Store

variable {s : Store} {l : Ledger}

theorem grounded_of_same {t : Store} (grounded : Grounded l s) (same : SameShown t s) :
    Grounded l t := fun path => (grounded path).congr (same path)

theorem grounded_update {t : Store} (grounded : Grounded l s) {path : Path} {session : Session}
    {p : Provenance} (sessions : t.sessions = Function.update s.sessions path (some session))
    (accounts : p.Accounts (some session)) : Grounded (Function.update l path p) t := by
  intro key
  rw [sessions,Function.update_apply,Function.update_apply]
  split
  · exact accounts
  · exact grounded key

theorem grounded_rewrite {t : Store} (grounded : Grounded l s) {path : Path} {session : Session}
    (sessions : t.sessions = Function.update s.sessions path (some session))
    (accounts : (l path).Accounts (some session)) : Grounded l t := by
  have updated := grounded_update grounded sessions accounts
  rwa [Function.update_eq_self] at updated

theorem grounded_amend (grounded : Grounded l s) {path : Path} {p : Provenance}
    (accounts : p.Accounts (s.sessions path)) : Grounded (Function.update l path p) s := by
  intro key
  rw [Function.update_apply]
  split
  · rename_i same
    rwa [same]
  · exact grounded key

theorem grounded_close {t : Store} (grounded : Grounded l s) {away : Path → Bool}
    (sessions : t.sessions = fun key => if away key then none else s.sessions key) :
    Grounded (fun key => if away key then {} else l key) t := by
  intro key
  rw [sessions]
  by_cases gone : away key = true
  · simp only [gone,if_true]
    exact ⟨rfl,rfl⟩
  · simp only [gone]
    exact grounded key

theorem grounded_updateContent (grounded : Grounded l s) (path : Path) (content : Text) :
    Grounded l (s.updateContent path content) := by
  unfold updateContent
  split
  · exact grounded
  · rename_i session here
    split
    · exact grounded
    · split
      · exact grounded
      · have accounts := grounded path
        rw [here] at accounts
        exact grounded_rewrite grounded rfl
          ⟨accounts.1,fun clean => absurd rfl clean,fun _ => rfl⟩

theorem grounded_save (grounded : Grounded l s) (path : Path) (manual : Bool) :
    Grounded (l.step s (s.save path manual) (.save path manual)) (s.save path manual) := by
  have same := sameShown_save (s := s) path manual
  have saved := grounded_of_same grounded same
  refine grounded_amend saved ((saved path).sending path fun flag => ?_)
  simp only [Bool.and_eq_true,Bool.not_eq_true'] at flag
  exact (dirty_of_save flag.1 flag.2).congr same

theorem grounded_loaded (grounded : Grounded l s) (path : Path) (version : Version)
    (text : Option Text) (sha256 : Digest) :
    Grounded (if s.isCurrent path version then Function.update l path (.took text sha256) else l)
      (s.loaded path version text sha256) := by
  unfold loaded
  cases current : s.isCurrent path version with
  | true =>
    have same : ({s with openRequests := Function.update s.openRequests path false} : Store).isCurrent
        path version = true := current
    simp only [same,if_true]
    exact grounded_update grounded rfl (Provenance.accounts_took _ text sha256)
  | false =>
    have same : ({s with openRequests := Function.update s.openRequests path false} : Store).isCurrent
        path version = false := current
    simp only [same]
    exact grounded

theorem grounded_reloaded (grounded : Grounded l s) (path : Path) (version : Version)
    (text : Option Text) (sha256 : Digest) :
    Grounded (if s.isCurrent path version then Function.update l path (.took text sha256) else l)
      (s.reloaded path version text sha256) := by
  unfold reloaded
  cases s.isCurrent path version with
  | true =>
    have took := Provenance.accounts_took ((s.sessions path).getD {}) text sha256
    exact grounded_update grounded rfl (took.congr rfl)
  | false => exact grounded

theorem grounded_reloadFailed (grounded : Grounded l s) (path : Path) (version : Version) :
    Grounded l (s.reloadFailed path version) := by
  unfold reloadFailed
  split
  · have accounts := grounded path
    cases here : s.sessions path with
    | none =>
      -- The session that the error makes shows nothing.
      rw [here] at accounts
      refine grounded_rewrite grounded rfl ⟨nofun,fun _ => accounts.1.symm,fun sent => ?_⟩
      rw [accounts.2] at sent
      cases sent
    | some session => exact grounded_of_same grounded (sameShown_update here rfl rfl)
  · exact grounded

theorem grounded_kept (grounded : Grounded l s) (path : Path) (version : Version)
    (text : Option Text) (sha256 : Digest) :
    Grounded (if s.isCurrent path version && (s.sessions path).isSome then
        Function.update l path ((l path).overriding text sha256) else l)
      (s.kept path version sha256) := by
  unfold kept
  cases s.isCurrent path version with
  | false => exact grounded
  | true =>
    cases here : s.sessions path with
    | none => exact grounded
    | some session =>
      refine grounded_update grounded rfl ⟨fun base same => ?_,fun clean => absurd rfl clean,
        fun _ => rfl⟩
      cases same
      exact List.mem_cons_self

theorem grounded_keepFailed (grounded : Grounded l s) (path : Path) (version : Version) :
    Grounded l (s.keepFailed path version) := by
  unfold keepFailed
  split
  · exact grounded_of_same grounded (sameShown_fail path .error)
  · exact grounded

theorem grounded_saveFinished (grounded : Grounded l s) {path : Path} {p : Provenance} {t : Store}
    (others : ∀ key, key ≠ path → t.sessions key = s.sessions key)
    (own : (p.release path).Accounts (t.sessions path)) :
    Grounded (l.finished path p ((t.saveFinished path).saveQueues path).running)
      (t.saveFinished path) := by
  have same := sameShown_saveFinished (s := t) path
  intro key
  refine Provenance.Accounts.congr ?_ (same key)
  unfold Ledger.finished
  split
  · rename_i equal
    subst equal
    exact own.sending key dirty_of_saveFinished
  · rename_i other
    rw [others key other]
    exact (grounded key).release path

theorem grounded_repoint (grounded : Grounded l s) (source target : Path) :
    Grounded (if (s.sessions source).isSome then
        Function.update (Function.update l source {}) target (l source)
      else l) (s.repoint source target) := by
  unfold repoint
  cases here : s.sessions source with
  | none =>
    simp only [Option.isSome_none,Bool.false_or,Bool.false_eq_true,if_false]
    split
    · exact grounded
    · exact grounded
  | some session =>
    simp only [Option.isSome_some,Bool.true_or,if_true]
    have accounts := grounded source
    rw [here] at accounts
    intro key
    simp only [Function.update_apply]
    split
    · exact accounts
    · split
      · exact ⟨rfl,rfl⟩
      · exact grounded key

theorem grounded_patched (grounded : Grounded l s) {path : Path}
    (own : (s.sessions path).isSome → (l path).sentFrom path) (sentVersion : Version)
    (content : Option Text) (sha256 : Digest) :
    Grounded (l.finished path
        (if (s.sessions path).isSome then (l path).acknowledging path content sha256 else l path)
        ((s.patched path sentVersion content sha256).saveQueues path).running)
      (s.patched path sentVersion content sha256) := by
  unfold patched
  have accounts := grounded path
  refine grounded_saveFinished grounded (fun key other => ?_) ?_
  · cases s.sessions path with
    | none =>
      simp only
      split <;> rfl
    | some session =>
      simp only
      split
      · exact Function.update_of_ne other ..
      · exact Function.update_of_ne other ..
  · cases here : s.sessions path with
    | none =>
      rw [here] at accounts
      have released := accounts.release path
      rw [← here] at released
      simp only [Option.isSome_none,Bool.false_eq_true,if_false]
      split
      · exact released
      · exact released
    | some session =>
      rw [here] at accounts own
      have acknowledges := accounts.acknowledged (own rfl) sentVersion content sha256
      simp only [Option.isSome_some,if_true]
      split
      · simpa only [setQueue,Function.update_self] using acknowledges
      · simpa only [Function.update_self] using acknowledges

theorem grounded_patchFailed (grounded : Grounded l s) (path : Path) (saveState : SaveState) :
    Grounded (l.finished path (l path) ((s.patchFailed path saveState).saveQueues path).running)
      (s.patchFailed path saveState) := by
  unfold patchFailed
  have same := sameShown_fail (s := s) path saveState
  refine grounded_saveFinished grounded (fun key other => ?_) ?_
  · simp only [setQueue,fail]
    split
    · rfl
    · exact Function.update_of_ne other ..
  · exact ((grounded path).congr (same path)).release path

theorem grounded_alike {t : Store} (grounded : Grounded l s) (alike : Alike t s) : Grounded l t := by
  intro path
  rw [alike.sessions]
  exact grounded path

theorem grounded_loadFailed (grounded : Grounded l s) (path : Path) (version : Version) :
    Grounded l (s.loadFailed path version) := by
  unfold loadFailed
  simp only
  split
  · exact grounded
  · exact grounded

theorem grounded_reply (grounded : Grounded l s) (index : Nat) (answer : Answer)
    (inTime : timely l s (.reply index answer)) :
    Grounded (l.step s (s.step (.reply index answer)) (.reply index answer))
      (s.step (.reply index answer)) := by
  cases waiting : s.inFlight[index]? with
  | none =>
    simp only [Ledger.step,Store.step,waiting]
    exact grounded
  | some request =>
    rw [step_reply waiting]
    have before : Grounded l {s with inFlight := s.inFlight.eraseIdx index} := grounded
    simp only [Ledger.step,waiting]
    cases request with
    | patch path sentVersion content sentBase =>
      cases answer with
      | patched sha256 =>
        simp only [timely,waiting,Bool.or_eq_true,Bool.not_eq_true'] at inTime
        refine grounded_patched before (fun some_ => ?_) sentVersion content sha256
        rcases inTime with absent | sent
        · exact absurd some_ (by simp [absent])
        · exact sent
      | conflict => exact grounded_patchFailed before path .conflict
      | failed => exact grounded_patchFailed before path .error
      | _ => exact before
    | load path version =>
      cases answer with
      | file text sha256 => exact grounded_loaded before path version text sha256
      | failed => exact grounded_loadFailed before path version
      | _ => exact before
    | reload path version =>
      cases answer with
      | file text sha256 => exact grounded_reloaded before path version text sha256
      | failed => exact grounded_reloadFailed before path version
      | _ => exact before
    | keep path version =>
      cases answer with
      | file text sha256 => exact grounded_kept before path version text sha256
      | failed => exact grounded_keepFailed before path version
      | _ => exact before
    | move source destination =>
      cases answer with
      | moved target => exact grounded_repoint before source target.val
      | _ => exact before
    | trash removed =>
      cases answer with
      | trashed => exact grounded_close before rfl
      | _ => exact before
    | delete path =>
      cases answer with
      | deleted removed => exact grounded_close before rfl
      | _ => exact before

/-- Every event keeps the ledger in accord with the sessions, if the acknowledgement of a save
finds the session that it was sent from. -/
theorem grounded_step (grounded : Grounded l s) (event : Event) (inTime : timely l s event) :
    Grounded (l.step s (s.step event) event) (s.step event) := by
  cases event with
  | openFile path =>
    simp only [Store.step,openFile]
    split
    · exact grounded
    · split
      · exact grounded
      · exact grounded
  | closeTab path confirmed =>
    simp only [Ledger.step,Store.step,closeTab]
    cases s.declined path confirmed with
    | true => exact grounded
    | false =>
      have closed := grounded_close (t := {s with
        sessions := fun key => if decide (key = path) then none else s.sessions key}) grounded rfl
      simp only [decide_eq_true_eq] at closed
      exact closed
  | updateContent path content => exact grounded_updateContent grounded path content
  | save path manual => exact grounded_save grounded path manual
  | reloadConflict path => exact grounded_alike grounded (alike_refetch ..)
  | keepLocal path => exact grounded_alike grounded (alike_refetch ..)
  | moveEntry source directory => exact grounded_alike grounded (alike_moveEntry ..)
  | renameEntry path newName => exact grounded_alike grounded (alike_renameEntry ..)
  | moveToTrash path => exact grounded_alike grounded (alike_moveToTrash ..)
  | deleteEntry path => exact grounded_alike grounded (alike_deleteEntry ..)
  | treeLoaded entries => exact grounded
  | reply index answer => exact grounded_reply grounded index answer inTime

end Store

/-- A ledger and a store after an event. -/
def after (state : Ledger × Store) (event : Event) : Ledger × Store :=
  (state.1.step state.2 (state.2.step event) event,state.2.step event)

/-- In every step of a run the acknowledgement of a save finds the session that it was sent
from, or none. -/
def allTimely : Ledger × Store → List Event → Bool
  | _,[] => true
  | state,event :: events => timely state.1 state.2 event && allTimely (after state event) events

/-- What a `PATCH` of the server does to the text of a file: it replaces it only if the digest is
the expected one. -/
def serverPatch (current : Bytes) (expectedSha256 : Digest) (sent : Bytes) : Bytes :=
  if Sha256.hexdigest current = expectedSha256 then sent else current

/-- No update is lost: a session is saved on the digest of a version that its content was derived
from or that the user overrides, so that the server replaces only such a version, and a session
that is not dirty has the content that the server last returned or acknowledged. -/
structure NoUpdateLost (l : Ledger) (s : Store) : Prop where
  saved : ∀ path session sha256, s.sessions path = some session →
    session.baseSha256 = some sha256 → sha256 ∈ (l path).seen
  replaced : ∀ path session sha256 current sent, s.sessions path = some session →
    session.baseSha256 = some sha256 → serverPatch current sha256 sent ≠ current →
      Sha256.hexdigest current ∈ (l path).seen
  clean : ∀ path session, s.sessions path = some session → session.dirty ≠ some true →
    session.content = (l path).known

theorem Grounded.noUpdateLost {l : Ledger} {s : Store} (grounded : Grounded l s) :
    NoUpdateLost l s := by
  have saved : ∀ path session sha256, s.sessions path = some session →
      session.baseSha256 = some sha256 → sha256 ∈ (l path).seen := by
    intro path session sha256 here base
    have accounts := grounded path
    rw [here] at accounts
    exact accounts.1 sha256 base
  refine ⟨saved,fun path session sha256 current sent here base changed => ?_,
    fun path session here notDirty => ?_⟩
  · unfold serverPatch at changed
    split at changed
    · rename_i expected
      exact expected ▸ saved path session sha256 here base
    · exact absurd rfl changed
  · have accounts := grounded path
    rw [here] at accounts
    exact accounts.2.1 notDirty

theorem grounded_run {state : Ledger × Store} (grounded : Grounded state.1 state.2)
    (events : List Event) (inTime : allTimely state events) :
    Grounded (events.foldl after state).1 (events.foldl after state).2 := by
  induction events generalizing state with
  | nil => exact grounded
  | cons event events ih =>
    simp only [allTimely,Bool.and_eq_true] at inTime
    exact ih (Store.grounded_step grounded event inTime.1) inTime.2

def edited (events : List Event) : Ledger × Store := events.foldl after (fun _ => {},{})

theorem allTimely_append {state : Ledger × Store} {before later : List Event}
    (inTime : allTimely state (before ++ later)) : allTimely state before := by
  induction before generalizing state with
  | nil => rfl
  | cons event before ih =>
    simp only [List.cons_append,allTimely,Bool.and_eq_true] at inTime ⊢
    exact ⟨inTime.1,ih inTime.2⟩

def note : Path := "a.md".toList

def textAnswer (text : Text) : Answer := .file (some text) (Sha256.hexdigest (encodeUtf8 text))

def acknowledgement (text : Text) : Answer := .patched (Sha256.hexdigest (encodeUtf8 text))

def editedOnce : List Event :=
  [.openFile note,.reply 0 (textAnswer "old".toList),.updateContent note "new".toList,
    .save note false]

/-- The note is closed and opened again while it is being saved; the server reads the old text
for the second opening before it writes the new one, and its answers arrive in that order. -/
def reopenedWhileSaving : List Event :=
  editedOnce ++ [.closeTab note true,.openFile note,.reply 1 (textAnswer "old".toList),
    .reply 0 (acknowledgement "new".toList)]

end LocalBook.Workspace
