import LocalBook.Server.Committing

/-! Transitions from one configuration to the next. Each builds what it needs, saves, and then
swaps; an error before the swap is to leave everything as it was. -/
namespace LocalBook.Server

structure RagStack (Rag : Type) where
  settings : Rag
  isOpen : Bool

/-- A Vault with its derived index; `ready` says that the Vault could be opened, `database` that
the derived database could. -/
structure VaultLifecycle (Rag : Type) where
  root : Option Text
  ragSettings : Rag
  ragStack : Option Nat
  ready : Bool
  database : Bool
  isOpen : Bool

/-- The agent, if the Vault could be opened, and the scheduler, both built on one lifecycle. -/
structure Services where
  ai : AISettings
  lifecycle : Option Nat
  running : Bool

structure Published (Rag : Type) where
  settings : Settings Rag
  lifecycle : Option Nat
  ragStack : Option Nat
  services : Option Nat

/-- The runtime, its settings file and the objects that it has made; `persistent` says that there
is a settings file at all. -/
structure Site (Rag : Type) where
  settings : Settings Rag
  revision : Int := 1
  persistent : Bool := true
  file : Option (Settings Rag × Int) := none
  lifecycle : Option Nat
  services : Option Nat
  lifecycles : Nat → VaultLifecycle Rag
  serviceOf : Nat → Services
  ragStacks : Nat → RagStack Rag
  published : Published Rag
  next : Nat

/-- What goes wrong in one operation: the gate or a check refuses, or a step raises. -/
structure SwitchFaults where
  refused : Option SettingsError := none
  stack : Bool := false
  prepare : Bool := false
  services : Bool := false
  start : Bool := false
  save : Bool := false

variable {Rag : Type} (enabled : Rag → Bool)

namespace Site

variable (s : Site Rag)

def current : Published Rag where
  settings := s.settings
  lifecycle := s.lifecycle
  ragStack := s.lifecycle.bind fun l => (s.lifecycles l).ragStack
  services := s.services

/-- `_publish`. -/
def publish : Site Rag := {s with published := s.current}

/-- `ConfigRepository.save`; it raises before the file is replaced or not at all. -/
def save (settings : Settings Rag) (revision : Int) (fails : Bool) : Option (Site Rag) :=
  if !s.persistent then some s
  else if fails then none
  else some {s with file := some (settings,revision)}

def applyFailed : SettingsError where
  code := "settings_apply_failed"
  message := "Configuration could not be applied. Previous settings are retained."
  status := 500

def unavailable : SettingsError where
  code := "runtime_unavailable"
  message := "Application startup is not complete."
  status := 503

/-- `create_rag_stack` for a Vault whose database is open; an error is only logged. -/
def startRag (l : VaultLifecycle Rag) (rag : Rag) (fails : Bool) : Option Nat × Site Rag :=
  if l.ready && l.database && enabled rag && !fails then
    (some s.next,{s with ragStacks := Function.update s.ragStacks s.next ⟨rag,true⟩,next := s.next + 1})
  else (none,s)

def closeStack (stack : Option Nat) : Site Rag :=
  match stack with
  | some k => {s with ragStacks := Function.update s.ragStacks k {s.ragStacks k with isOpen := false}}
  | none => s

def stopServices (services : Option Nat) : Site Rag :=
  match services with
  | some k => {s with serviceOf := Function.update s.serviceOf k {s.serviceOf k with running := false}}
  | none => s

/-- `reconfigure_rag`. -/
def reconfigureRag (l : Nat) (rag : Rag) (fails : Bool) : Site Rag :=
  let lifecycle := s.lifecycles l
  if lifecycle.ready then
    let (stack,t) := s.startRag enabled lifecycle rag fails
    let t := t.closeStack lifecycle.ragStack
    {t with lifecycles := Function.update t.lifecycles l {lifecycle with
      ragSettings := rag
      ragStack := stack}}
  else {s with lifecycles := Function.update s.lifecycles l {lifecycle with ragSettings := rag}}

section operations

variable [Host] [UrlHost]

def projected : Site Rag :=
  let settings := {s.settings with ai := s.settings.ai.effective}
  {s with
    settings
    published := {s.published with settings}
    serviceOf := match s.services with
      | some k => Function.update s.serviceOf k {s.serviceOf k with ai := settings.ai}
      | none => s.serviceOf}

/-- `snapshot`, which the answer of every operation is. -/
def snapshot : Except SettingsError Unit × Site Rag :=
  match s.settings.ai.effectiveProfile with
  | some _ => (.ok (),s.projected)
  | none => (.error AIChange.internalError,s)

/-- `_commit_ai`. New services that do not come into force are stopped and dropped. -/
def commitAi (ai : AISettings) (faults : SwitchFaults) : Except SettingsError Unit × Site Rag :=
  match faults.refused,s.lifecycle with
  | some reason,_ => (.error reason,s)
  | none,none => (.error unavailable,s)
  | none,some l =>
    let updated := {s.settings with ai}
    if faults.services || faults.start then (.error applyFailed,s)
    else
      match s.save updated (s.revision + 1) faults.save with
      | none => (.error applyFailed,s)
      | some t =>
        let t := t.stopServices s.services
        ({t with
          settings := updated
          services := some t.next
          serviceOf := Function.update t.serviceOf t.next ⟨ai,some l,true⟩
          next := t.next + 1
          revision := t.revision + 1} : Site Rag).publish.snapshot

def applyAi (change : AIChange) (faults : SwitchFaults) : Except SettingsError Unit × Site Rag :=
  let touched : Site Rag :=
    if change.touched s.settings.ai = s.settings.ai then s else s.projected
  match change.compute s.settings.ai s.settings.ai with
  | .error reason => (.error reason,touched)
  | .ok none =>
    match faults.refused with
    | some reason => (.error reason,touched)
    | none => touched.snapshot
  | .ok (some ai) => touched.commitAi ai faults

/-- `apply_rag`. The stack is swapped before the settings are saved. -/
def applyRag (edit : Rag → Option Rag) (faults : SwitchFaults) :
    Except SettingsError Unit × Site Rag :=
  match edit s.settings.rag with
  | none =>
    (.error {
      code := "invalid_rag_settings"
      message := "Those RAG settings are not valid. Previous settings are retained."
      status := 422},s)
  | some rag =>
    match faults.refused,s.lifecycle with
    | some reason,_ => (.error reason,s)
    | none,none => (.error unavailable,s)
    | none,some l =>
      let updated := {s.settings with rag}
      let t := s.reconfigureRag enabled l rag faults.stack
      match t.save updated (s.revision + 1) faults.save with
      | none =>
        (.error {
          code := "settings_apply_failed"
          message := "RAG configuration could not be applied. Previous settings are retained."
          status := 500},t)
      | some t =>
        ({t with
          settings := updated
          revision := t.revision + 1} : Site Rag).publish.snapshot

/-- `previous.shutdown()`. -/
def shutdown (lifecycle : Option Nat) : Site Rag :=
  match lifecycle with
  | some l =>
    let t := s.closeStack (s.lifecycles l).ragStack
    {t with lifecycles := Function.update t.lifecycles l {t.lifecycles l with
      ragStack := none
      isOpen := false}}
  | none => s

/-- `switch_vault` to an acceptable directory. A candidate that does not come into force is shut
down and dropped. -/
def switchVault (root : Text) (faults : SwitchFaults) : Except SettingsError Unit × Site Rag :=
  match faults.refused with
  | some reason => (.error reason,s)
  | none =>
    if s.settings.root = some root then s.snapshot
    else
      let updated := {s.settings with root := some root}
      if faults.prepare then
        (.error {
          code := "vault_prepare_failed"
          message := "The new vault or its index could not be initialized."
          status := 422},s)
      else
        let candidate : VaultLifecycle Rag := {
          root := some root
          ragSettings := s.settings.rag
          ragStack := none
          ready := true
          database := true
          isOpen := true}
        let (stack,t) := s.startRag enabled candidate s.settings.rag faults.stack
        let failed : SettingsError := {
          code := "vault_switch_failed"
          message := "Switch failed. The previous vault and configuration are retained."
          status := 500}
        if faults.services || faults.start then (.error failed,s)
        else
          match t.save updated (s.revision + 1) faults.save with
          | none => (.error failed,s)
          | some t =>
            let t := (t.stopServices s.services).shutdown s.lifecycle
            ({t with
              settings := updated
              lifecycle := some t.next
              lifecycles := Function.update t.lifecycles t.next {candidate with ragStack := stack}
              services := some t.next
              serviceOf := Function.update t.serviceOf t.next ⟨updated.ai,some t.next,true⟩
              next := t.next + 1
              revision := t.revision + 1} : Site Rag).publish.snapshot

end operations

end Site

section rollback

variable [Host] [UrlHost]

/-- The services run on the settings in force, and the routes and the file have the same. -/
structure Coherent (s : Site Rag) : Prop where
  lifecycle : ∃ l, s.lifecycle = some l ∧ l < s.next ∧ (s.lifecycles l).isOpen ∧
    (s.lifecycles l).root = s.settings.root ∧ (s.lifecycles l).ragSettings = s.settings.rag ∧
    if (s.lifecycles l).ready && (s.lifecycles l).database && enabled s.settings.rag then
      ∃ k, (s.lifecycles l).ragStack = some k ∧ k < s.next ∧ s.ragStacks k = ⟨s.settings.rag,true⟩
    else (s.lifecycles l).ragStack = none
  services : ∃ k, s.services = some k ∧ k < s.next ∧
    s.serviceOf k = ⟨s.settings.ai,s.lifecycle,true⟩
  published : s.published = s.current
  file : s.file = none ∨ s.file = some (s.settings,s.revision)

/-- The flat fields are those of the active profile, which is in the library. -/
structure Applied (ai : AISettings) : Prop where
  active : ∃ profiles, ai.synthesizedProfiles = some profiles ∧
    ∃ p ∈ profiles, p.id = ai.activeProfileId
  projected : ∃ p, ai.effectiveProfile = some p ∧ p.toRoute = ai.toRoute

def Site.running (s : Site Rag) : Settings Rag × Int × Option (Settings Rag × Int) ×
    Option (VaultLifecycle Rag × Option (RagStack Rag)) × Option Services × Published Rag :=
  (s.settings,s.revision,s.file,
    s.lifecycle.map fun l => (s.lifecycles l,(s.lifecycles l).ragStack.map s.ragStacks),
    s.services.map s.serviceOf,s.published)

/-- An operation either raises and leaves everything as it was, or brings its settings into force
everywhere. -/
def Safe (s : Site Rag) (target : Settings Rag) (out : Except SettingsError Unit × Site Rag) :
    Prop :=
  match out with
  | (.error _,t) => t.running = s.running
  | (.ok _,t) => Coherent enabled t ∧ t.settings = target ∧
    (t.persistent → t.file = some (t.settings,t.revision) ∨ t.revision = s.revision)

variable {enabled} {s : Site Rag}

theorem Applied.effective {ai : AISettings} (applied : Applied ai) : ai.effective = ai := by
  obtain ⟨p,found,same⟩ := applied.projected
  simp only [AISettings.effective,found,AISettings.project,same]

/-- Projecting settings that are projected changes nothing. -/
theorem projected_eq (coherent : Coherent enabled s)
    (same : s.settings.ai.effective = s.settings.ai) : s.projected = s := by
  obtain ⟨k,here,-,services⟩ := coherent.services
  have settings : ({s.settings with ai := s.settings.ai} : Settings Rag) = s.settings := rfl
  have own : ({s.serviceOf k with ai := s.settings.ai} : Services) = s.serviceOf k := by
    rw [services]
  have routes : ({s.published with settings := s.settings} : Published Rag) = s.published := by
    rw [coherent.published]
    rfl
  simp only [Site.projected,same,settings,here,own,Function.update_eq_self,routes]
  rw [← here]

theorem snapshot_eq (coherent : Coherent enabled s)
    (projected : ∃ p, s.settings.ai.effectiveProfile = some p ∧
      p.toRoute = s.settings.ai.toRoute) : s.snapshot = (.ok (),s) := by
  obtain ⟨p,found,same⟩ := projected
  have effective : s.settings.ai.effective = s.settings.ai := by
    simp only [AISettings.effective,found,AISettings.project,same]
  simp only [Site.snapshot,found,projected_eq coherent effective]

omit [Host] [UrlHost] in
theorem safe_error (target : Settings Rag) (reason : SettingsError) :
    Safe enabled s target (.error reason,s) := rfl

theorem safe_snapshot (coherent : Coherent enabled s) (applied : Applied s.settings.ai) :
    Safe enabled s s.settings s.snapshot := by
  rw [snapshot_eq coherent applied.projected]
  exact ⟨coherent,rfl,fun _ => .inr rfl⟩

def committedAi (s : Site Rag) (l : Nat) (ai : AISettings)
    (file : Option (Settings Rag × Int)) : Site Rag :=
  let t := ({s with file} : Site Rag).stopServices s.services
  ({t with
    settings := {s.settings with ai}
    services := some t.next
    serviceOf := Function.update t.serviceOf t.next
      ⟨ai,some l,true⟩
    next := t.next + 1
    revision := t.revision + 1} : Site Rag).publish

omit [Host] [UrlHost] in
theorem coherent_committedAi {l : Nat} {ai : AISettings} {file : Option (Settings Rag × Int)}
    (coherent : Coherent enabled s) (here : s.lifecycle = some l)
    (saved : file = none ∨ file = some ({s.settings with ai},s.revision + 1)) :
    Coherent enabled (committedAi s l ai file) := by
  obtain ⟨k,services,old,-⟩ := coherent.services
  obtain ⟨l',same,bound,open_,root,rag,stack⟩ := coherent.lifecycle
  obtain rfl := Option.some.inj (here.symm.trans same)
  simp only [committedAi,Site.stopServices,services,Site.publish]
  exact {
    lifecycle := by
      refine ⟨l,here,Nat.lt_succ_of_lt bound,open_,root,rag,?_⟩
      split at stack
      · rename_i runs
        obtain ⟨j,found,less,record⟩ := stack
        rw [if_pos runs]
        exact ⟨j,found,Nat.lt_succ_of_lt less,record⟩
      · rename_i stops
        rw [if_neg stops]
        exact stack
    services := ⟨s.next,rfl,Nat.lt_succ_self _,by simp [here]⟩
    published := rfl
    file := saved}

omit [Host] [UrlHost] in
theorem save_eq (settings : Settings Rag) (revision : Int) (fails : Bool) :
    s.save settings revision fails =
      if s.persistent && fails then none
      else some {s with file := if s.persistent then some (settings,revision) else s.file} := by
  obtain ⟨_,_,persistent,_,_,_,_,_,_,_,_⟩ := s
  cases persistent <;> cases fails <;> rfl

theorem commitAi_eq {l : Nat} {ai : AISettings} {faults : SwitchFaults}
    (here : s.lifecycle = some l) (free : faults.refused = none) :
    s.commitAi ai faults =
      if faults.services || faults.start || s.persistent && faults.save then
        (.error Site.applyFailed,s)
      else
        (committedAi s l ai
          (if s.persistent then some ({s.settings with ai},s.revision + 1) else s.file)).snapshot := by
  simp only [Site.commitAi,free,here]
  simp only [save_eq]
  cases faults.services <;> cases faults.start <;> cases s.persistent && faults.save <;> rfl

omit [Host] [UrlHost] in
theorem saved_or_none {settings : Settings Rag} {revision : Int}
    (unsaved : s.persistent = false → s.file = none) :
    (if s.persistent then some (settings,revision) else s.file) = none ∨
      (if s.persistent then some (settings,revision) else s.file) = some (settings,revision) := by
  cases persistent : s.persistent with
  | true => exact .inr rfl
  | false => exact .inl (unsaved persistent)

/-- A commit of AI settings is safe exactly if it is not reached or their flat fields are those
of the profile that a snapshot applies. -/
theorem commitAi_safe_iff {l : Nat} {ai : AISettings} {faults : SwitchFaults}
    (coherent : Coherent enabled s) (unsaved : s.persistent = false → s.file = none)
    (here : s.lifecycle = some l) (free : faults.refused = none) :
    Safe enabled s {s.settings with ai} (s.commitAi ai faults) ↔
      (faults.services || faults.start || s.persistent && faults.save) = true ∨
        ∃ p, ai.effectiveProfile = some p ∧ p.toRoute = ai.toRoute := by
  rw [commitAi_eq here free]
  split
  · rename_i fails
    exact iff_of_true (safe_error _ _) (.inl fails)
  · rename_i works
    simp only [Bool.not_eq_true] at works
    simp only [works,Bool.false_eq_true,false_or]
    generalize saved : (if s.persistent then some ({s.settings with ai},s.revision + 1)
      else s.file) = file
    have settings : (committedAi s l ai file).settings = {s.settings with ai} := by
      simp only [committedAi,Site.stopServices,Site.publish]
    have revision : (committedAi s l ai file).revision = s.revision + 1 := by
      simp only [committedAi,Site.stopServices,Site.publish]
      split <;> rfl
    have stored : (committedAi s l ai file).file = file := by
      simp only [committedAi,Site.stopServices,Site.publish]
      split <;> rfl
    have kept : (committedAi s l ai file).persistent = s.persistent := by
      simp only [committedAi,Site.stopServices,Site.publish]
      split <;> rfl
    have after : Coherent enabled (committedAi s l ai file) := by
      apply coherent_committedAi coherent here
      rw [← saved]
      exact saved_or_none unsaved
    constructor
    · intro safe
      cases found : ai.effectiveProfile with
      | none =>
        have raised : (committedAi s l ai file).snapshot =
            (.error AIChange.internalError,committedAi s l ai file) := by
          simp only [Site.snapshot,settings,found]
        rw [raised] at safe
        have equal := congrArg (fun running => running.2.1) safe
        simp only [Site.running,revision] at equal
        omega
      | some p =>
        refine ⟨p,rfl,?_⟩
        have answered : (committedAi s l ai file).snapshot =
            (.ok (),(committedAi s l ai file).projected) := by
          simp only [Site.snapshot,settings,found]
        rw [answered] at safe
        have projected := congrArg (fun settings : Settings Rag => settings.ai.toRoute) safe.2.1
        simpa [Site.projected,settings,AISettings.effective,found,AISettings.project]
          using projected
    · intro settled
      rw [snapshot_eq after (by rw [settings]; exact settled)]
      refine ⟨after,settings,fun persistent => .inl ?_⟩
      rw [kept] at persistent
      rw [stored,settings,revision,← saved,if_pos persistent]

omit [Host] [UrlHost] in
theorem find?_replaced (profiles : List ProviderProfile) (p : ProviderProfile) :
    ((profiles.filter fun item => item.id ≠ p.id) ++ [p]).find? (fun item => item.id = p.id) =
      some p := by
  have gone : (profiles.filter fun item => item.id ≠ p.id).find? (fun item => item.id = p.id) =
      none := by
    simp [List.find?_eq_none]
  rw [List.find?_append,gone]
  simp

omit [Host] [UrlHost] in
theorem find?_kept {profiles : List ProviderProfile} {id other : Text} {p : ProviderProfile}
    (found : profiles.find? (fun item => item.id = id) = some p) (differ : id ≠ other) :
    (profiles.filter fun item => item.id ≠ other).find? (fun item => item.id = id) = some p := by
  rw [List.find?_filter,← found]
  apply congrArg fun test => List.find? test profiles
  funext item
  by_cases same : item.id = id
  · simp [same,differ]
  · simp [same]

theorem effectiveProfile_of_find {ai : AISettings} {p : ProviderProfile}
    (found : ai.profiles.find? (fun item => item.id = ai.activeProfileId) = some p) :
    ai.effectiveProfile = some p := by
  unfold AISettings.effectiveProfile
  split
  · rename_i empty
    rw [empty] at found
    exact absurd found (Option.some_ne_none p).symm
  · rename_i first rest filled
    rw [← filled,found]
    rfl

/-- A library whose active profile has the route in force. -/
theorem Applied.ensured {ai : AISettings} (applied : Applied ai) :
    ∃ updated p, ai.ensureActiveProfile = some updated ∧ updated.toRoute = ai.toRoute ∧
      updated.activeProfileId = ai.activeProfileId ∧
      updated.profiles.find? (fun item => item.id = ai.activeProfileId) = some p ∧
      p.toRoute = ai.toRoute := by
  obtain ⟨profiles,library,q,member,active⟩ := applied.active
  obtain ⟨p,found,route⟩ := applied.projected
  cases filled : ai.profiles with
  | nil =>
    have synthesized : ai.synthesized = some p := by
      simpa only [AISettings.effectiveProfile,filled] using found
    simp only [AISettings.synthesizedProfiles,filled,if_pos,synthesized,Option.map_some,
      Option.some.injEq] at library
    subst library
    obtain rfl := List.mem_singleton.mp member
    refine ⟨{ai with profiles := [{q with source := .settings}],activeProfileId := q.id},
      {q with source := .settings},?_,rfl,active,?_,route⟩
    · simp only [AISettings.ensureActiveProfile,filled,if_pos,synthesized,Option.map_some]
    · simp [active]
  | cons first rest =>
    have same : profiles = first :: rest := by
      simpa [AISettings.synthesizedProfiles,filled] using library.symm
    subst same
    refine ⟨ai,p,?_,rfl,rfl,?_,route⟩
    · simp [AISettings.ensureActiveProfile,filled]
    · cases search : (first :: rest).find? fun item => item.id = ai.activeProfileId with
      | none => exact absurd active (by simpa using List.find?_eq_none.mp search q member)
      | some r =>
        rw [filled,search]
        rw [effectiveProfile_of_find (by rw [filled]; exact search)] at found
        exact found

/-- The condition of a snapshot that changes nothing. -/
def Settled (ai : AISettings) : Prop := ∃ p, ai.effectiveProfile = some p ∧ p.toRoute = ai.toRoute

theorem settled_iff {ai : AISettings} {p : ProviderProfile} (found : ai.effectiveProfile = some p) :
    Settled ai ↔ p.toRoute = ai.toRoute := by
  simp [Settled,found]

theorem settled_withProfile {ai new : AISettings} {p : ProviderProfile}
    (added : ai.withProfile p true = some new) : Settled new := by
  simp only [AISettings.withProfile,if_pos,Option.map_eq_some_iff] at added
  obtain ⟨updated,-,rfl⟩ := added
  exact ⟨p,effectiveProfile_of_find (find?_replaced updated.profiles p),rfl⟩

theorem settled_withProfile_iff {ai new : AISettings} {p : ProviderProfile} (applied : Applied ai)
    (added : ai.withProfile p false = some new) :
    Settled new ↔ (p.id = ai.activeProfileId → p.toRoute = ai.toRoute) := by
  obtain ⟨updated,q,ensured,route,active,found,same⟩ := applied.ensured
  simp only [AISettings.withProfile,ensured,Option.map_some,Bool.false_eq_true,if_false,
    Option.some.injEq] at added
  subst added
  by_cases replaced : p.id = ai.activeProfileId
  · rw [settled_iff (p := p) (effectiveProfile_of_find (by
      simp only [active,← replaced]
      exact find?_replaced updated.profiles p)),route]
    exact ⟨fun h _ => h,fun h => h replaced⟩
  · apply iff_of_true _ fun h => absurd h replaced
    apply (settled_iff (p := q) (effectiveProfile_of_find _)).mpr
    · rw [same,route]
    · simp only [active,List.find?_append]
      rw [find?_kept found (fun h => replaced h.symm)]
      rfl

theorem settled_withoutProfile {ai new : AISettings} {id : Text} (applied : Applied ai)
    (other : id ≠ ai.activeProfileId) (removed : ai.withoutProfile id = some new) :
    Settled new := by
  obtain ⟨updated,q,ensured,route,active,found,same⟩ := applied.ensured
  simp only [AISettings.withoutProfile,ensured,Option.map_some,active,if_neg other,
    Option.some.injEq] at removed
  subst removed
  exact ⟨q,effectiveProfile_of_find (find?_kept found (fun h => other h.symm)),by rw [same,route]⟩

/-- A flat change of an empty library makes a valid profile of just the submitted values, and a
profile that replaces the active one without being applied has its values. -/
def AIChange.Settles (ai : AISettings) : AIChange → Prop
  | .flat values =>
    ai.profiles = [] → ∀ baseUrl p,validateEndpoint values.baseUrl = .ok baseUrl →
      ai.synthesized = some p →
      ∃ q,AISettings.synthesized {ai with toRoute := {values with baseUrl}.on p.toRoute} = some q ∧
        q.toRoute = {values with baseUrl}.on p.toRoute
  | .upsert payload applied =>
    applied = false → normalizeProfileId payload.id = ai.activeProfileId →
      ∀ profiles p,ai.synthesizedProfiles = some profiles →
        AIChange.profileFromPayload payload (profiles.find? fun p => p.id = payload.id) = .ok p →
        p.toRoute = ai.toRoute
  | _ => True

omit [Host] [UrlHost] in
theorem orInternal_some {new : AISettings} {made : Option AISettings}
    (computed : AIChange.orInternal (made.map some) = .ok (some new)) : made = some new := by
  cases made with
  | none => cases computed
  | some made => exact congrArg some (Option.some.inj (Except.ok.inj computed))

theorem profileFromPayload_id {payload : ProviderPayload} {existing : Option ProviderProfile}
    {p : ProviderProfile} (made : AIChange.profileFromPayload payload existing = .ok p) :
    p.id = normalizeProfileId payload.id := by
  simp only [AIChange.profileFromPayload,ProviderProfile.validate] at made
  split at made
  · cases made
  · rename_i valid
    split at valid
    · cases valid
      split at made
      · cases made
      · cases made
        rfl
    · cases valid

theorem settled_flat {ai new : AISettings} {values : AISettings.FlatValues}
    (applied : Applied ai)
    (computed : AIChange.compute ai ai (.flat values) = .ok (some new)) :
    Settled new ↔ (AIChange.flat values).Settles ai := by
  simp only [AIChange.compute,applied.effective] at computed
  split at computed
  · cases computed
  · rename_i baseUrl endpoint
    have made := orInternal_some computed
    simp only [AISettings.withFlatOverrides,Option.bind_eq_some_iff] at made
    obtain ⟨p,found,made⟩ := made
    by_cases empty : ai.profiles = []
    · rw [if_pos empty] at made
      cases made
      have synthesized : ai.synthesized = some p := by
        simpa only [AISettings.effectiveProfile,empty] using found
      have effective : ∀ q,AISettings.effectiveProfile {ai with
            toRoute := {values with baseUrl}.on p.toRoute
            enabled := values.enabled} = some q ↔
          AISettings.synthesized {ai with
            toRoute := {values with baseUrl}.on p.toRoute} = some q := by
        intro q
        simp only [AISettings.effectiveProfile,empty,AISettings.synthesized]
      constructor
      · rintro ⟨q,formed,route⟩ - baseUrl' p' endpoint' synthesized'
        rw [endpoint] at endpoint'
        rw [synthesized] at synthesized'
        cases endpoint'
        cases synthesized'
        exact ⟨q,(effective q).mp formed,route⟩
      · intro settles
        obtain ⟨q,formed,route⟩ := settles empty baseUrl p endpoint synthesized
        exact ⟨q,(effective q).mpr formed,route⟩
    · rw [if_neg empty,Option.bind_eq_some_iff] at made
      obtain ⟨active,-,made⟩ := made
      apply iff_of_true (settled_withProfile made)
      intro here
      exact absurd here empty

theorem settled_upsert {ai new : AISettings} {payload : ProviderPayload} {activate : Bool}
    (applied : Applied ai)
    (computed : AIChange.compute ai ai (.upsert payload activate) = .ok (some new)) :
    Settled new ↔ (AIChange.upsert payload activate).Settles ai := by
  obtain ⟨profiles,library,-⟩ := applied.active
  simp only [AIChange.compute,library] at computed
  split at computed
  · cases computed
  · rename_i p made
    split at computed
    · cases computed
    · have added := orInternal_some computed
      cases activate with
      | true => exact iff_of_true (settled_withProfile added) fun off => by cases off
      | false =>
        rw [settled_withProfile_iff applied added,profileFromPayload_id made]
        simp only [AIChange.Settles,library,Option.some.injEq]
        constructor
        · intro h _ replaced _ q same here
          subst same
          rw [made] at here
          cases here
          exact h replaced
        · exact fun h replaced => h trivial replaced _ _ rfl made

/-- What a change of settings that are applied computes is settled exactly if the change
settles. -/
theorem settled_compute {ai new : AISettings} {change : AIChange} (applied : Applied ai)
    (computed : AIChange.compute ai ai change = .ok (some new)) :
    Settled new ↔ change.Settles ai := by
  cases change with
  | flat values => exact settled_flat applied computed
  | upsert payload activate => exact settled_upsert applied computed
  | activate id =>
    simp only [AIChange.compute] at computed
    split at computed
    · cases computed
    · split at computed
      · cases computed
      · exact iff_of_true (settled_withProfile (orInternal_some computed)) trivial
  | delete id =>
    simp only [AIChange.compute] at computed
    split at computed
    · cases computed
    · split at computed
      · cases computed
      · rename_i other
        split at computed
        · cases computed
        · exact iff_of_true (settled_withoutProfile applied other (orInternal_some computed))
            trivial

inductive Operation (Rag : Type) where
  | ai (change : AIChange)
  | rag (edit : Rag → Option Rag)
  | vault (root : Text)

namespace Operation

def perform (enabled : Rag → Bool) (s : Site Rag) (faults : SwitchFaults) :
    Operation Rag → Except SettingsError Unit × Site Rag
  | .ai change => s.applyAi change faults
  | .rag edit => s.applyRag enabled edit faults
  | .vault root => s.switchVault enabled root faults

/-- The settings that the operation is to bring into force. -/
def target (s : Site Rag) : Operation Rag → Settings Rag
  | .ai change =>
    match change.compute s.settings.ai s.settings.ai with
    | .ok (some new) => {s.settings with ai := new}
    | _ => s.settings
  | .rag edit => {s.settings with rag := (edit s.settings.rag).getD s.settings.rag}
  | .vault root => {s.settings with root := some root}

/-- A stack of these RAG settings is to run for the Vault that is open. -/
def runs (enabled : Rag → Bool) (s : Site Rag) (rag : Rag) : Prop :=
  ∃ l, s.lifecycle = some l ∧
    ((s.lifecycles l).ready && (s.lifecycles l).database && enabled rag) = true

/-- The condition of a safe operation: an AI change that gets to its commit settles, the stack that
RAG settings ask for can be started, and RAG settings that cannot be saved change nothing. -/
def Holds (enabled : Rag → Bool) (s : Site Rag) (faults : SwitchFaults) : Operation Rag → Prop
  | .ai change =>
    (∃ new,change.compute s.settings.ai s.settings.ai = .ok (some new)) → faults.refused = none →
      (faults.services || faults.start || s.persistent && faults.save) = false →
      change.Settles s.settings.ai
  | .rag edit =>
    ∀ rag,edit s.settings.rag = some rag → faults.refused = none →
      if s.persistent && faults.save then rag = s.settings.rag ∧ ¬runs enabled s rag
      else runs enabled s rag → faults.stack = false
  | .vault root =>
    s.settings.root ≠ some root → faults.refused = none →
      (faults.prepare || faults.services || faults.start || s.persistent && faults.save) = false →
      enabled s.settings.rag → faults.stack = false

end Operation

theorem touched_eq {ai : AISettings} (applied : Applied ai) (change : AIChange) :
    change.touched ai = ai := by
  cases change with
  | flat values =>
    simp only [AIChange.touched]
    split
    · rfl
    · exact applied.effective
  | activate => rfl
  | upsert => rfl
  | delete => rfl

theorem applyAi_safe_iff {change : AIChange} {faults : SwitchFaults}
    (coherent : Coherent enabled s) (applied : Applied s.settings.ai)
    (unsaved : s.persistent = false → s.file = none) :
    Safe enabled s (Operation.target s (.ai change)) (s.applyAi change faults) ↔
      Operation.Holds enabled s faults (.ai change) := by
  obtain ⟨l,here,-⟩ := coherent.lifecycle
  simp only [Site.applyAi,touched_eq applied change,if_true,Operation.target,Operation.Holds]
  cases computed : change.compute s.settings.ai s.settings.ai with
  | error reason =>
    apply iff_of_true (safe_error _ _)
    rintro ⟨new,made⟩
    cases made
  | ok made =>
    cases made with
    | none =>
      have idle : ¬∃ new,(.ok none : Except SettingsError (Option AISettings)) = .ok (some new) := by
        rintro ⟨new,made⟩
        cases made
      apply iff_of_true _ fun committed => absurd committed idle
      cases faults.refused with
      | none => exact safe_snapshot coherent applied
      | some reason => exact safe_error _ _
    | some new =>
      cases free : faults.refused with
      | some reason =>
        apply iff_of_true _ fun _ free => by cases free
        simp only [Site.commitAi,free]
        exact safe_error _ _
      | none =>
        rw [commitAi_safe_iff coherent unsaved here free]
        have settles := settled_compute applied computed
        simp only [Settled] at settles
        rw [settles]
        cases faults.services || faults.start || s.persistent && faults.save with
        | true => exact iff_of_true (.inl rfl) fun _ _ works => by cases works
        | false =>
          constructor
          · rintro (fails | settles)
            · cases fails
            · exact fun _ _ _ => settles
          · exact fun h => .inr (h ⟨new,rfl⟩ rfl rfl)

structure Reconfigured (enabled : Rag → Bool) (s : Site Rag) (l : Nat) (rag : Rag) (starts : Bool)
    (t : Site Rag) : Prop where
  frame : t = {s with lifecycles := t.lifecycles,ragStacks := t.ragStacks,next := t.next}
  lifecycles : t.lifecycles = Function.update s.lifecycles l {s.lifecycles l with
    ragSettings := rag
    ragStack := if starts then some s.next else none}
  next : s.next ≤ t.next
  stack : starts = true → t.ragStacks s.next = ⟨rag,true⟩ ∧ s.next < t.next

omit [Host] [UrlHost] in
theorem reconfigured {l : Nat} (coherent : Coherent enabled s) (here : s.lifecycle = some l)
    (rag : Rag) (fails : Bool) :
    Reconfigured enabled s l rag
      ((s.lifecycles l).ready && (s.lifecycles l).database && enabled rag && !fails)
      (s.reconfigureRag enabled l rag fails) := by
  obtain ⟨l',same,-,-,-,-,stack⟩ := coherent.lifecycle
  obtain rfl := Option.some.inj (here.symm.trans same)
  unfold Site.reconfigureRag
  cases ready : (s.lifecycles l).ready with
  | false =>
    simp only [ready,Bool.false_and,Bool.false_eq_true,if_false] at stack ⊢
    exact ⟨rfl,by simp [ready,stack],le_rfl,fun h => by cases h⟩
  | true =>
    have old : ∀ k,(s.lifecycles l).ragStack = some k → k ≠ s.next := by
      intro k found
      split at stack
      · obtain ⟨j,there,less,-⟩ := stack
        obtain rfl := Option.some.inj (found.symm.trans there)
        exact Nat.ne_of_lt less
      · rw [stack] at found
        cases found
    simp only [if_true,Site.startRag,ready,Bool.true_and]
    cases starts : (s.lifecycles l).database && enabled rag && !fails with
    | false =>
      simp only [Bool.false_eq_true,if_false,Site.closeStack]
      cases (s.lifecycles l).ragStack with
      | none => exact ⟨rfl,by simp [ready],le_rfl,fun h => by cases h⟩
      | some k => exact ⟨rfl,by simp [ready],le_rfl,fun h => by cases h⟩
    | true =>
      simp only [if_true,Site.closeStack]
      cases found : (s.lifecycles l).ragStack with
      | none =>
        exact ⟨rfl,by simp [ready],Nat.le_succ _,
          fun _ => ⟨Function.update_self ..,Nat.lt_succ_self _⟩⟩
      | some k =>
        refine ⟨rfl,by simp [ready],Nat.le_succ _,fun _ => ⟨?_,Nat.lt_succ_self _⟩⟩
        simp [Function.update_of_ne (old k found).symm]

omit [Host] [UrlHost] in
/-- A reconfiguration that is not saved leaves all as it was only if it changes nothing. -/
theorem reconfigured_running_iff {l : Nat} {rag : Rag} {fails : Bool} {t : Site Rag}
    (coherent : Coherent enabled s) (here : s.lifecycle = some l)
    (after : Reconfigured enabled s l rag
      ((s.lifecycles l).ready && (s.lifecycles l).database && enabled rag && !fails) t) :
    t.running = s.running ↔ rag = s.settings.rag ∧ ¬Operation.runs enabled s rag := by
  obtain ⟨l',same,-,-,-,settings,stack⟩ := coherent.lifecycle
  obtain rfl := Option.some.inj (here.symm.trans same)
  have runs : Operation.runs enabled s rag ↔
      ((s.lifecycles l).ready && (s.lifecycles l).database && enabled rag) = true := by
    simp [Operation.runs,here]
  rw [runs]
  have record : t.lifecycles l = {s.lifecycles l with
      ragSettings := rag
      ragStack := if (s.lifecycles l).ready && (s.lifecycles l).database && enabled rag && !fails
        then some s.next else none} := by
    rw [after.lifecycles,Function.update_self]
  constructor
  · intro equal
    have lifecycle := congrArg (fun running => running.2.2.2.1) equal
    rw [after.frame] at lifecycle
    simp only [Site.running,here,Option.map_some,Option.some.injEq,Prod.mk.injEq] at lifecycle
    have records := lifecycle.1
    rw [record] at records
    have rags := congrArg VaultLifecycle.ragSettings records
    have ragStack := congrArg VaultLifecycle.ragStack records
    simp only [settings] at rags
    subst rags
    refine ⟨rfl,fun live => ?_⟩
    rw [if_pos live] at stack
    obtain ⟨k,found,less,-⟩ := stack
    simp only [found,live,Bool.true_and] at ragStack
    cases fails with
    | true => cases ragStack
    | false =>
      have same := Option.some.inj ragStack
      omega
  · rintro ⟨rfl,idle⟩
    rw [if_neg idle] at stack
    simp only [Bool.not_eq_true] at idle
    have unchanged : t.lifecycles l = s.lifecycles l := by
      rw [record,idle,← settings]
      simp only [Bool.false_and,Bool.false_eq_true,if_false]
      rw [← stack]
    rw [after.frame]
    simp only [Site.running,here,Option.map_some,unchanged,stack,Option.map_none]

omit [Host] [UrlHost] in
theorem coherent_rag {l : Nat} {rag : Rag} {starts : Bool} {t : Site Rag}
    {file : Option (Settings Rag × Int)} (coherent : Coherent enabled s)
    (here : s.lifecycle = some l) (after : Reconfigured enabled s l rag starts t)
    (started : starts = ((s.lifecycles l).ready && (s.lifecycles l).database && enabled rag))
    (saved : file = none ∨ file = some ({s.settings with rag},s.revision + 1)) :
    Coherent enabled ({t with
      file
      settings := {s.settings with rag}
      revision := t.revision + 1} : Site Rag).publish := by
  obtain ⟨l',same,bound,open_,root,-,-⟩ := coherent.lifecycle
  obtain rfl := Option.some.inj (here.symm.trans same)
  obtain ⟨k,services,old,record⟩ := coherent.services
  have next := after.next
  have kept : t.lifecycle = s.lifecycle ∧ t.services = s.services ∧ t.serviceOf = s.serviceOf ∧
      t.revision = s.revision := by
    rw [after.frame]
    exact ⟨rfl,rfl,rfl,rfl⟩
  exact {
    lifecycle := by
      refine ⟨l,kept.1.trans here,Nat.lt_of_lt_of_le bound next,?_⟩
      simp only [Site.publish,after.lifecycles,Function.update_self]
      refine ⟨open_,root,trivial,?_⟩
      cases live : starts with
      | true =>
        rw [if_pos (started.symm.trans live)]
        obtain ⟨stack,less⟩ := after.stack live
        exact ⟨s.next,rfl,less,stack⟩
      | false => rw [if_neg (by rw [← started,live]; exact Bool.false_ne_true)]; rfl
    services := by
      refine ⟨k,kept.2.1.trans services,Nat.lt_of_lt_of_le old next,?_⟩
      simp only [Site.publish,kept.2.2.1,kept.1,record]
    published := rfl
    file := by
      simp only [Site.publish,kept.2.2.2]
      exact saved}

theorem applyRag_safe_iff {edit : Rag → Option Rag} {faults : SwitchFaults}
    (coherent : Coherent enabled s) (applied : Applied s.settings.ai)
    (unsaved : s.persistent = false → s.file = none) :
    Safe enabled s (Operation.target s (.rag edit)) (s.applyRag enabled edit faults) ↔
      Operation.Holds enabled s faults (.rag edit) := by
  obtain ⟨l,here,-⟩ := coherent.lifecycle
  simp only [Site.applyRag,Operation.target,Operation.Holds]
  cases edited : edit s.settings.rag with
  | none => exact iff_of_true (safe_error _ _) fun rag some => by cases some
  | some rag =>
    cases free : faults.refused with
    | some reason => exact iff_of_true (safe_error _ _) fun _ _ free => by cases free
    | none =>
      have after := reconfigured coherent here rag faults.stack
      have runs : Operation.runs enabled s rag ↔
          ((s.lifecycles l).ready && (s.lifecycles l).database && enabled rag) = true := by
        simp [Operation.runs,here]
      simp only [here,Option.getD_some,Option.some.injEq,forall_eq',forall_const]
      generalize s.reconfigureRag enabled l rag faults.stack = t at after ⊢
      have kept : t.persistent = s.persistent ∧ t.file = s.file ∧ t.revision = s.revision := by
        rw [after.frame]
        exact ⟨rfl,rfl,rfl⟩
      simp only [save_eq,kept]
      cases fails : s.persistent && faults.save with
      | true =>
        simp only [if_true,Safe]
        exact reconfigured_running_iff coherent here after
      | false =>
        simp only [Bool.false_eq_true,if_false]
        rw [runs]
        constructor
        · intro safe live
          have ok : ∃ p,s.settings.ai.effectiveProfile = some p := by
            obtain ⟨p,found,-⟩ := applied.projected
            exact ⟨p,found⟩
          obtain ⟨p,found⟩ := ok
          simp only [Site.snapshot,Site.publish,found,Safe] at safe
          obtain ⟨l',same,-,-,-,-,stack⟩ := safe.1.lifecycle
          have there : t.lifecycle = some l := by
            rw [after.frame]
            exact here
          have equal : l' = l := Option.some.inj (same.symm.trans there)
          subst equal
          simp only [Site.projected,after.lifecycles,Function.update_self,live,if_true,
            Bool.true_and] at stack
          obtain ⟨k,found,-⟩ := stack
          cases stop : faults.stack with
          | false => rfl
          | true =>
            simp only [stop] at found
            cases found
        · intro starts
          generalize saved : (if s.persistent then some ({s.settings with rag},s.revision + 1)
            else s.file) = file
          have settled : Coherent enabled ({t with
              file
              settings := {s.settings with rag}
              revision := t.revision + 1} : Site Rag).publish := coherent_rag coherent here after (by
            cases live : (s.lifecycles l).ready && (s.lifecycles l).database && enabled rag with
            | true => rw [starts live]; rfl
            | false => rfl) (by
            rw [← saved]
            exact saved_or_none unsaved)
          simp only [kept] at settled
          rw [snapshot_eq settled applied.projected]
          refine ⟨settled,rfl,fun persistent => .inl ?_⟩
          simp only [Site.publish,← saved]
          exact if_pos persistent

def committedVault (enabled : Rag → Bool) (s : Site Rag) (root : Text) (fails : Bool)
    (file : Option (Settings Rag × Int)) : Site Rag :=
  let candidate : VaultLifecycle Rag := {
    root := some root
    ragSettings := s.settings.rag
    ragStack := none
    ready := true
    database := true
    isOpen := true}
  let (stack,t) := s.startRag enabled candidate s.settings.rag fails
  let t : Site Rag := {t with
    persistent := s.persistent
    file}
  let t := (t.stopServices s.services).shutdown s.lifecycle
  let updated := {s.settings with root := some root}
  ({t with
    settings := updated
    lifecycle := some t.next
    lifecycles := Function.update t.lifecycles t.next {candidate with ragStack := stack}
    services := some t.next
    serviceOf := Function.update t.serviceOf t.next ⟨updated.ai,some t.next,true⟩
    next := t.next + 1
    revision := t.revision + 1} : Site Rag).publish

omit [Host] [UrlHost] in
theorem startRag_frame (l : VaultLifecycle Rag) (rag : Rag) (fails : Bool) :
    (s.startRag enabled l rag fails).2.persistent = s.persistent ∧
      (s.startRag enabled l rag fails).2.file = s.file := by
  unfold Site.startRag
  split <;> exact ⟨rfl,rfl⟩

structure Switched (s : Site Rag) (root : Text) (starts : Bool) (file : Option (Settings Rag × Int))
    (t : Site Rag) : Prop where
  settings : t.settings = {s.settings with root := some root}
  revision : t.revision = s.revision + 1
  persistent : t.persistent = s.persistent
  file : t.file = file
  published : t.published = t.current
  lifecycle : ∃ n,t.lifecycle = some n ∧ n < t.next ∧ t.services = some n ∧
    t.serviceOf n = ⟨s.settings.ai,some n,true⟩ ∧ t.lifecycles n = {
      root := some root
      ragSettings := s.settings.rag
      ragStack := if starts then some s.next else none
      ready := true
      database := true
      isOpen := true}
  stack : starts = true → s.next < t.next ∧ t.ragStacks s.next = ⟨s.settings.rag,true⟩

omit [Host] [UrlHost] in
theorem switched {root : Text} {fails : Bool} {file : Option (Settings Rag × Int)}
    (coherent : Coherent enabled s) :
    Switched s root (enabled s.settings.rag && !fails) file
      (committedVault enabled s root fails file) := by
  obtain ⟨l,here,bound,-,-,-,stack⟩ := coherent.lifecycle
  obtain ⟨k,services,-⟩ := coherent.services
  have older : ∀ j,(s.lifecycles l).ragStack = some j → s.next ≠ j := by
    intro j found
    split at stack
    · obtain ⟨i,there,less,-⟩ := stack
      obtain rfl := Option.some.inj (found.symm.trans there)
      exact Nat.ne_of_gt less
    · rw [stack] at found
      cases found
  unfold committedVault
  simp only [Site.startRag,Bool.true_and]
  cases starts : enabled s.settings.rag && !fails with
  | true =>
    simp only [if_true,Site.stopServices,services,here,Site.shutdown,Site.closeStack]
    cases old : (s.lifecycles l).ragStack with
    | none =>
      exact ⟨rfl,rfl,rfl,rfl,rfl,⟨s.next + 1,rfl,Nat.lt_succ_self _,rfl,Function.update_self ..,
        Function.update_self ..⟩,fun _ => ⟨by simp only [Site.publish]; omega,
        Function.update_self ..⟩⟩
    | some j =>
      refine ⟨rfl,rfl,rfl,rfl,rfl,⟨s.next + 1,rfl,Nat.lt_succ_self _,rfl,Function.update_self ..,
        Function.update_self ..⟩,fun _ => ⟨by simp only [Site.publish]; omega,?_⟩⟩
      simp [Site.publish,Function.update_of_ne (older j old)]
  | false =>
    simp only [Bool.false_eq_true,if_false,Site.stopServices,services,here,Site.shutdown,
      Site.closeStack]
    cases old : (s.lifecycles l).ragStack with
    | none =>
      exact ⟨rfl,rfl,rfl,rfl,rfl,⟨s.next,rfl,Nat.lt_succ_self _,rfl,Function.update_self ..,
        Function.update_self ..⟩,fun h => by cases h⟩
    | some j =>
      exact ⟨rfl,rfl,rfl,rfl,rfl,⟨s.next,rfl,Nat.lt_succ_self _,rfl,Function.update_self ..,
        Function.update_self ..⟩,fun h => by cases h⟩

omit [Host] [UrlHost] in
theorem Switched.coherent {root : Text} {starts : Bool} {file : Option (Settings Rag × Int)}
    {t : Site Rag} (after : Switched s root starts file t)
    (started : starts = enabled s.settings.rag)
    (saved : file = none ∨ file = some ({s.settings with root := some root},s.revision + 1)) :
    Coherent enabled t := by
  obtain ⟨n,here,bound,services,running,record⟩ := after.lifecycle
  exact {
    lifecycle := by
      refine ⟨n,here,bound,?_⟩
      simp only [record,after.settings,Bool.true_and,← started,true_and]
      cases starts with
      | true =>
        obtain ⟨less,stack⟩ := after.stack rfl
        exact ⟨s.next,rfl,less,stack⟩
      | false => rfl
    services := ⟨n,services,bound,by rw [running,after.settings,here]⟩
    published := after.published
    file := by
      rw [after.file,after.settings,after.revision]
      exact saved}

theorem switchVault_safe_iff {root : Text} {faults : SwitchFaults}
    (coherent : Coherent enabled s) (applied : Applied s.settings.ai)
    (unsaved : s.persistent = false → s.file = none) :
    Safe enabled s (Operation.target s (.vault root)) (s.switchVault enabled root faults) ↔
      Operation.Holds enabled s faults (.vault root) := by
  simp only [Operation.target,Operation.Holds]
  unfold Site.switchVault
  cases free : faults.refused with
  | some reason => exact iff_of_true (safe_error _ _) fun _ free => by cases free
  | none =>
    by_cases same : s.settings.root = some root
    · simp only [if_pos same]
      refine iff_of_true ?_ fun differ => absurd same differ
      have kept : ({s.settings with root := some root} : Settings Rag) = s.settings := by
        rw [← same]
      rw [kept]
      exact safe_snapshot coherent applied
    · simp only [if_neg same]
      cases prepare : faults.prepare with
      | true => exact iff_of_true (safe_error _ _) fun _ _ works => by cases works
      | false =>
        simp only [Bool.false_eq_true,if_false,Bool.false_or]
        cases fails : faults.services || faults.start with
        | true => exact iff_of_true (safe_error _ _) fun _ _ works => by cases works
        | false =>
          simp only [Bool.false_eq_true,if_false,Bool.false_or,save_eq,startRag_frame]
          cases unwritten : s.persistent && faults.save with
          | true => exact iff_of_true (safe_error _ _) fun _ _ works => by cases works
          | false =>
            generalize saved : (if s.persistent then
              some (({s.settings with root := some root} : Settings Rag),s.revision + 1)
              else s.file) = file
            have after : Switched s root (enabled s.settings.rag && !faults.stack) file
              (committedVault enabled s root faults.stack file) := switched coherent
            change Safe enabled s _ (committedVault enabled s root faults.stack file).snapshot ↔ _
            generalize committedVault enabled s root faults.stack file = t at after ⊢
            simp only [same,not_false_eq_true,ne_eq,forall_const]
            obtain ⟨n,there,-,-,-,record⟩ := after.lifecycle
            constructor
            · intro safe live
              obtain ⟨p,found,-⟩ := applied.projected
              simp only [Site.snapshot,after.settings,found,Safe] at safe
              obtain ⟨n',here,-,-,-,-,stack⟩ := safe.1.lifecycle
              obtain rfl : n' = n := Option.some.inj (here.symm.trans there)
              simp only [Site.projected,after.settings,record,live,Bool.true_and,if_true] at stack
              obtain ⟨k,found,-⟩ := stack
              cases stop : faults.stack with
              | false => rfl
              | true =>
                simp only [stop] at found
                cases found
            · intro starts
              have settled : Coherent enabled t := after.coherent (by
                cases live : enabled s.settings.rag with
                | true => rw [starts live]; rfl
                | false => rfl) (by
                rw [← saved]
                exact saved_or_none unsaved)
              rw [snapshot_eq settled (by rw [after.settings]; exact applied.projected)]
              refine ⟨settled,after.settings,fun persistent => .inl ?_⟩
              rw [after.persistent] at persistent
              rw [after.file,after.settings,after.revision,← saved,if_pos persistent]

/-- An operation either raises and leaves all as it was, or brings its settings into force
everywhere, exactly if its condition holds. -/
theorem perform_safe_iff {op : Operation Rag} {faults : SwitchFaults}
    (coherent : Coherent enabled s) (applied : Applied s.settings.ai)
    (unsaved : s.persistent = false → s.file = none) :
    Safe enabled s (op.target s) (op.perform enabled s faults) ↔ op.Holds enabled s faults := by
  cases op with
  | ai change => exact applyAi_safe_iff coherent applied unsaved
  | rag edit => exact applyRag_safe_iff coherent applied unsaved
  | vault root => exact switchVault_safe_iff coherent applied unsaved

theorem active_of_mem {ai : AISettings} {p : ProviderProfile} (member : p ∈ ai.profiles)
    (same : p.id = ai.activeProfileId) :
    ∃ profiles,ai.synthesizedProfiles = some profiles ∧
      ∃ p ∈ profiles,p.id = ai.activeProfileId := by
  refine ⟨ai.profiles,?_,p,member,same⟩
  simp only [AISettings.synthesizedProfiles]
  rw [if_neg (List.ne_nil_of_mem member)]

theorem applied_withProfile {ai new : AISettings} {p : ProviderProfile} {activate : Bool}
    (applied : Applied ai) (added : ai.withProfile p activate = some new) (settled : Settled new) :
    Applied new := by
  refine ⟨?_,settled⟩
  obtain ⟨updated,q,ensured,-,active,found,-⟩ := applied.ensured
  simp only [AISettings.withProfile,ensured,Option.map_some,Option.some.injEq] at added
  subst added
  cases activate with
  | true => exact active_of_mem (p := p) (by simp [AISettings.project]) rfl
  | false =>
    have named := List.find?_some found
    simp only [decide_eq_true_eq] at named
    by_cases replaced : p.id = ai.activeProfileId
    · exact active_of_mem (p := p) (by simp) (replaced.trans active.symm)
    · refine active_of_mem (p := q) ?_ (named.trans active.symm)
      have differ : q.id ≠ p.id := fun same => replaced (same.symm.trans named)
      simp [differ,List.mem_of_find?_eq_some found]

theorem synthesized_id {ai : AISettings} {p : ProviderProfile} (found : ai.synthesized = some p) :
    p.id = normalizeProfileId defaultProfileId := by
  simp only [AISettings.synthesized,ProviderProfile.validate] at found
  split at found
  · cases found
    rfl
  · cases found

theorem applied_compute {ai new : AISettings} {change : AIChange} (applied : Applied ai)
    (computed : AIChange.compute ai ai change = .ok (some new)) (settled : Settled new) :
    Applied new := by
  cases change with
  | flat values =>
    simp only [AIChange.compute,applied.effective] at computed
    split at computed
    · cases computed
    · have made := orInternal_some computed
      simp only [AISettings.withFlatOverrides,Option.bind_eq_some_iff] at made
      obtain ⟨p,found,made⟩ := made
      by_cases empty : ai.profiles = []
      · rw [if_pos empty] at made
        cases made
        obtain ⟨q,formed,route⟩ := settled
        refine ⟨⟨[q],?_,q,List.mem_singleton_self q,?_⟩,q,formed,route⟩
        · simp only [AISettings.effectiveProfile,empty] at formed
          simp only [AISettings.synthesizedProfiles,empty,if_true,formed,Option.map_some]
        · obtain ⟨profiles,library,r,member,active⟩ := applied.active
          simp only [AISettings.effectiveProfile,empty] at formed found
          simp only [AISettings.synthesizedProfiles,empty,if_true,found,Option.map_some,
            Option.some.injEq] at library
          subst library
          obtain rfl := List.mem_singleton.mp member
          rw [synthesized_id formed,← active,synthesized_id found]
      · rw [if_neg empty,Option.bind_eq_some_iff] at made
        obtain ⟨active,here,made⟩ := made
        refine ⟨?_,settled⟩
        simp only [AISettings.withProfile,AISettings.ensureActiveProfile,if_neg empty,
          Option.map_some,if_true,Option.some.injEq] at made
        subst made
        exact active_of_mem (p := {active with toRoute := _}) (by simp [AISettings.project]; rfl) rfl
  | activate id =>
    simp only [AIChange.compute] at computed
    split at computed
    · cases computed
    · split at computed
      · cases computed
      · exact applied_withProfile applied (orInternal_some computed) settled
  | upsert payload activate =>
    obtain ⟨profiles,library,-⟩ := applied.active
    simp only [AIChange.compute,library] at computed
    split at computed
    · cases computed
    · split at computed
      · cases computed
      · exact applied_withProfile applied (orInternal_some computed) settled
  | delete id =>
    simp only [AIChange.compute] at computed
    split at computed
    · cases computed
    · split at computed
      · cases computed
      · rename_i p _ other
        split at computed
        · cases computed
        · refine ⟨?_,settled⟩
          obtain ⟨updated,q,ensured,-,active,found,-⟩ := applied.ensured
          have removed := orInternal_some computed
          simp only [AISettings.withoutProfile,ensured,Option.map_some,active,if_neg other,
            Option.some.injEq] at removed
          subst removed
          have named := List.find?_some found
          simp only [decide_eq_true_eq] at named
          refine active_of_mem (p := q) ?_ named
          have differ : q.id ≠ p.id := fun same => other (same.symm.trans named)
          simp [differ,List.mem_of_find?_eq_some found]

structure Good (enabled : Rag → Bool) (s : Site Rag) : Prop where
  coherent : Coherent enabled s
  applied : Applied s.settings.ai
  unsaved : s.persistent = false → s.file = none

theorem good_applyAi {change : AIChange} {faults : SwitchFaults} (good : Good enabled s)
    (holds : Operation.Holds enabled s faults (.ai change)) :
    Good enabled (s.applyAi change faults).2 := by
  obtain ⟨l,here,-⟩ := good.coherent.lifecycle
  simp only [Site.applyAi,touched_eq good.applied change,if_true]
  cases computed : change.compute s.settings.ai s.settings.ai with
  | error reason => exact good
  | ok made =>
    cases made with
    | none =>
      cases faults.refused with
      | none =>
        rw [snapshot_eq good.coherent good.applied.projected]
        exact good
      | some reason => exact good
    | some new =>
      cases free : faults.refused with
      | some reason =>
        simp only [Site.commitAi,free]
        exact good
      | none =>
        change Good enabled (s.commitAi new faults).2
        rw [commitAi_eq here free]
        split
        · exact good
        · rename_i works
          simp only [Bool.not_eq_true] at works
          have settled := (settled_compute good.applied computed).mpr
            (holds ⟨new,computed⟩ free works)
          generalize saved : (if s.persistent then some ({s.settings with ai := new},s.revision + 1)
            else s.file) = file
          have after : Coherent enabled (committedAi s l new file) :=
            coherent_committedAi good.coherent here (by
              rw [← saved]
              exact saved_or_none good.unsaved)
          have frame : (committedAi s l new file).settings = {s.settings with ai := new} ∧
              (committedAi s l new file).persistent = s.persistent ∧
              (committedAi s l new file).file = file := by
            simp only [committedAi,Site.stopServices,Site.publish]
            split <;> exact ⟨trivial,rfl,rfl⟩
          rw [snapshot_eq after (by rw [frame.1]; exact settled)]
          refine ⟨after,?_,fun volatile => ?_⟩
          · rw [frame.1]
            exact applied_compute good.applied computed settled
          · rw [frame.2.1] at volatile
            rw [frame.2.2,← saved,volatile,if_neg Bool.false_ne_true,good.unsaved volatile]

omit [Host] [UrlHost] in
/-- Settings that ask for no stack are applied again without any change. -/
theorem reconfigureRag_idle {l : Nat} {fails : Bool} (coherent : Coherent enabled s)
    (here : s.lifecycle = some l) (idle : ¬Operation.runs enabled s s.settings.rag) :
    s.reconfigureRag enabled l s.settings.rag fails = s := by
  obtain ⟨l',same,-,-,-,settings,stack⟩ := coherent.lifecycle
  obtain rfl := Option.some.inj (here.symm.trans same)
  have stopped : ¬((s.lifecycles l).ready && (s.lifecycles l).database &&
      enabled s.settings.rag) = true := by
    simpa [Operation.runs,here] using idle
  rw [if_neg stopped] at stack
  simp only [Bool.not_eq_true] at stopped
  have idle : s.startRag enabled (s.lifecycles l) s.settings.rag fails = (none,s) := by
    simp only [Site.startRag,stopped,Bool.false_and,Bool.false_eq_true,if_false]
  have record : ({s.lifecycles l with
      ragSettings := s.settings.rag
      ragStack := none} : VaultLifecycle Rag) = s.lifecycles l := by
    rw [← settings,← stack]
  have kept : ({s.lifecycles l with ragSettings := s.settings.rag} : VaultLifecycle Rag) =
      s.lifecycles l := by
    rw [← settings]
  simp only [Site.reconfigureRag,idle,stack,Site.closeStack]
  split
  · rw [record,Function.update_eq_self]
  · simp only [stack] at kept
    rw [kept,Function.update_eq_self]

theorem good_applyRag {edit : Rag → Option Rag} {faults : SwitchFaults} (good : Good enabled s)
    (holds : Operation.Holds enabled s faults (.rag edit)) :
    Good enabled (s.applyRag enabled edit faults).2 := by
  obtain ⟨l,here,-⟩ := good.coherent.lifecycle
  unfold Site.applyRag
  cases edited : edit s.settings.rag with
  | none => exact good
  | some rag =>
    cases free : faults.refused with
    | some reason => exact good
    | none =>
      have condition := holds rag edited free
      have after := reconfigured good.coherent here rag faults.stack
      have runs : Operation.runs enabled s rag ↔
          ((s.lifecycles l).ready && (s.lifecycles l).database && enabled rag) = true := by
        simp [Operation.runs,here]
      cases fails : s.persistent && faults.save with
      | true =>
        simp only [fails,if_true] at condition
        obtain ⟨rfl,idle⟩ := condition
        simp only [here,reconfigureRag_idle good.coherent here idle,save_eq,fails,if_true]
        exact good
      | false =>
        simp only [fails,Bool.false_eq_true,if_false,runs] at condition
        simp only [here]
        generalize s.reconfigureRag enabled l rag faults.stack = t at after ⊢
        have kept : t.persistent = s.persistent ∧ t.file = s.file ∧ t.revision = s.revision := by
          rw [after.frame]
          exact ⟨rfl,rfl,rfl⟩
        simp only [save_eq,kept,fails,Bool.false_eq_true,if_false]
        have settled : Coherent enabled ({t with
            file := if s.persistent then some ({s.settings with rag},s.revision + 1) else s.file
            settings := {s.settings with rag}
            revision := t.revision + 1} : Site Rag).publish :=
          coherent_rag good.coherent here after (by
            cases live : (s.lifecycles l).ready && (s.lifecycles l).database && enabled rag with
            | true => rw [condition live]; rfl
            | false => rfl) (saved_or_none good.unsaved)
        simp only [kept] at settled
        rw [snapshot_eq settled good.applied.projected]
        refine ⟨settled,good.applied,fun volatile => ?_⟩
        change s.persistent = false at volatile
        simp only [Site.publish,volatile,Bool.false_eq_true,if_false,good.unsaved volatile]

theorem good_switchVault {root : Text} {faults : SwitchFaults} (good : Good enabled s)
    (holds : Operation.Holds enabled s faults (.vault root)) :
    Good enabled (s.switchVault enabled root faults).2 := by
  unfold Site.switchVault
  cases free : faults.refused with
  | some reason => exact good
  | none =>
    by_cases same : s.settings.root = some root
    · simp only [if_pos same]
      rw [snapshot_eq good.coherent good.applied.projected]
      exact good
    · simp only [if_neg same]
      cases prepare : faults.prepare with
      | true => exact good
      | false =>
        simp only [Bool.false_eq_true,if_false]
        cases fails : faults.services || faults.start with
        | true => exact good
        | false =>
          simp only [Bool.false_eq_true,if_false,save_eq,startRag_frame]
          cases unwritten : s.persistent && faults.save with
          | true => exact good
          | false =>
            have starts := holds same free (by
              rw [Bool.or_assoc faults.prepare,fails,prepare,unwritten]
              rfl)
            generalize saved : (if s.persistent then
              some (({s.settings with root := some root} : Settings Rag),s.revision + 1)
              else s.file) = file
            have after : Switched s root (enabled s.settings.rag && !faults.stack) file
              (committedVault enabled s root faults.stack file) := switched good.coherent
            change Good enabled (committedVault enabled s root faults.stack file).snapshot.2
            generalize committedVault enabled s root faults.stack file = t at after ⊢
            have settled : Coherent enabled t := after.coherent (by
              cases live : enabled s.settings.rag with
              | true => rw [starts live]; rfl
              | false => rfl) (by
              rw [← saved]
              exact saved_or_none good.unsaved)
            rw [snapshot_eq settled (by rw [after.settings]; exact good.applied.projected)]
            refine ⟨settled,?_,fun volatile => ?_⟩
            · rw [after.settings]
              exact good.applied
            · rw [after.persistent] at volatile
              rw [after.file,← saved,volatile,if_neg Bool.false_ne_true,good.unsaved volatile]

theorem good_perform {op : Operation Rag} {faults : SwitchFaults} (good : Good enabled s)
    (holds : op.Holds enabled s faults) : Good enabled (op.perform enabled s faults).2 := by
  cases op with
  | ai change => exact good_applyAi good holds
  | rag edit => exact good_applyRag good holds
  | vault root => exact good_switchVault good holds

/-- Every operation of the run is safe. -/
def AllSafe (enabled : Rag → Bool) : Site Rag → List (Operation Rag × SwitchFaults) → Prop
  | _,[] => True
  | s,(op,faults) :: rest =>
    Safe enabled s (op.target s) (op.perform enabled s faults) ∧
      AllSafe enabled (op.perform enabled s faults).2 rest

/-- The condition holds of every operation of the run. -/
def AllHold (enabled : Rag → Bool) : Site Rag → List (Operation Rag × SwitchFaults) → Prop
  | _,[] => True
  | s,(op,faults) :: rest =>
    op.Holds enabled s faults ∧ AllHold enabled (op.perform enabled s faults).2 rest

/-- In a run from a good state all operations are safe exactly if the condition of each holds. -/
theorem all_safe_iff {ops : List (Operation Rag × SwitchFaults)} (good : Good enabled s) :
    AllSafe enabled s ops ↔ AllHold enabled s ops := by
  induction ops generalizing s with
  | nil => exact Iff.rfl
  | cons first rest ih =>
    obtain ⟨op,faults⟩ := first
    simp only [AllSafe,AllHold]
    rw [perform_safe_iff good.coherent good.applied good.unsaved]
    exact and_congr_right fun holds => ih (good_perform good holds)

end rollback

section demo

open scoped AsciiHost PlainUrls

def shelfProfile : ProviderProfile where
  kind := .omlx
  baseUrl := none
  id := defaultProfileId

def shelfSite : Site Bool where
  settings := {
    ai := {shelfProfile.toRoute with profiles := [shelfProfile]}
    rag := true
    root := some "shelf".toList}
  lifecycle := some 0
  services := some 1
  lifecycles := fun _ => {
    root := some "shelf".toList
    ragSettings := true
    ragStack := some 2
    ready := true
    database := true
    isOpen := true}
  serviceOf := fun _ => ⟨{shelfProfile.toRoute with profiles := [shelfProfile]},some 0,true⟩
  ragStacks := fun _ => ⟨true,true⟩
  published := {
    settings := {
      ai := {shelfProfile.toRoute with profiles := [shelfProfile]}
      rag := true
      root := some "shelf".toList}
    lifecycle := some 0
    ragStack := some 2
    services := some 1}
  next := 3

theorem good_shelfSite : Good id shelfSite where
  coherent := {
    lifecycle := ⟨0,rfl,by decide,rfl,rfl,rfl,2,rfl,by decide,rfl⟩
    services := ⟨1,rfl,by decide,rfl⟩
    published := rfl
    file := .inl rfl}
  applied := {
    active := ⟨[shelfProfile],rfl,shelfProfile,List.mem_singleton_self _,rfl⟩
    projected := ⟨shelfProfile,rfl,rfl⟩}
  unsaved := fun volatile => by cases volatile

/-- RAG is switched off and the Vault is changed. -/
theorem all_safe_shelfSite :
    AllSafe id shelfSite [(.rag fun _ => some false,{}),(.vault "attic".toList,{})] :=
  (all_safe_iff good_shelfSite).mpr
    ⟨fun _ _ _ _ => rfl,fun _ _ _ _ => rfl,trivial⟩

/-- RAG is switched off and the settings cannot be saved: the stack is gone, and the routes still
have it. -/
theorem unsaved_rag_unsafe :
    ¬Safe id shelfSite (Operation.target shelfSite (.rag fun _ => some false))
      (Operation.perform id shelfSite {save := true} (.rag fun _ => some false)) := by
  intro safe
  have equal : (Operation.perform id shelfSite {save := true} (.rag fun _ => some false)).2.running =
    shelfSite.running := safe
  have rags := congrArg (fun running => running.2.2.2.1.map fun pair => pair.1.ragSettings) equal
  exact absurd rags (by decide)

end demo

end LocalBook.Server
