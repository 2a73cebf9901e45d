import LocalBook.Server.Settings

/-! Changes of the settings from several pages. A change is computed from the settings before the
transition is entered, and only its revision says whether they are still in force there. -/
namespace LocalBook.Server

structure Settings (Rag : Type) where
  ai : AISettings
  rag : Rag
  root : Option Text := none

/-- A change that a page asks for; the edit of the RAG settings merges what the page submits and
validates the whole. -/
inductive Change (Rag : Type) where
  | ai (change : AIChange)
  | rag (edit : Rag → Option Rag)
  | vault (root : Text)

/-- What was computed for a change, or that nothing is to be committed. -/
inductive Result (Rag : Type) where
  | ai (ai : AISettings)
  | rag (rag : Rag)
  | vault (root : Text)
  | nothing

variable {Rag : Type}

/-- `settings.model_copy(update=…)`. -/
def Result.apply : Result Rag → Settings Rag → Settings Rag
  | .ai new,s => {s with ai := new}
  | .rag new,s => {s with rag := new}
  | .vault new,s => {s with root := some new}
  | .nothing,s => s

/-- The change of a page on its way to the transition, with the AI settings that its route has
read. -/
structure Draft (Rag : Type) where
  revision : Int
  change : Change Rag
  seen : AISettings
  result : Option (Result Rag) := none

/-- How far a transition has come: the settings are assigned first, and the revision after
them. -/
inductive Phase where
  | entered
  | assigned
  | bumped
deriving DecidableEq

/-- The settings in force and the pages. `reading` says that a snapshot holds the lock. -/
structure Office (Rag : Type) where
  settings : Settings Rag
  revision : Int := 1
  inside : Option (Draft Rag × Phase) := none
  drafts : List (Draft Rag) := []
  pages : List Int := []
  reading : Bool := false

inductive PageEvent (Rag : Type) where
  | look
  | read
  | receive (revision : Int) (change : Change Rag)
  | compute (index : Nat)
  | enter (index : Nat) (busy : Bool)
  | assign
  | bump
  | leave

section steps

variable [Host] [UrlHost]

/-- The result of a change on the settings, for a route that has read `seen`. -/
def Change.compute (seen : AISettings) (s : Settings Rag) :
    Change Rag → Except SettingsError (Result Rag)
  | .ai change => (change.compute seen s.ai).map fun new => (new.map .ai).getD .nothing
  | .rag edit =>
    match edit s.rag with
    | some new => .ok (.rag new)
    | none =>
      .error {
        code := "invalid_rag_settings"
        message := "Those RAG settings are not valid. Previous settings are retained."
        status := 422}
  | .vault root => .ok (.vault root)

def Change.ai? : Change Rag → Option AIChange
  | .ai change => some change
  | _ => none

def Change.touched (before : AISettings) : Change Rag → AISettings
  | .ai change => change.touched before
  | _ => before

namespace Office

variable (o : Office Rag)

def setAi (ai : AISettings) : Office Rag := {o with settings := {o.settings with ai}}

/-- One step of a thread. A snapshot projects the settings and then reads the revision, under the
lock, for which the ends of a transition wait; the assignments inside do not. -/
def step : PageEvent Rag → Office Rag
  | .look => if o.reading then o else {o.setAi o.settings.ai.effective with reading := true}
  | .read => if o.reading then {o with pages := o.revision :: o.pages,reading := false} else o
  | .receive revision change =>
    if revision ∈ o.pages then
      {o with drafts := o.drafts ++ [{revision,change,seen := o.settings.ai}]}
    else o
  | .compute index =>
    match o.drafts[index]? with
    | none => o
    | some draft =>
      let touched := o.setAi (draft.change.touched o.settings.ai)
      match draft.change.compute draft.seen o.settings with
      | .ok result => {touched with drafts := o.drafts.set index {draft with result := some result}}
      | .error _ => {touched with drafts := o.drafts.eraseIdx index}
  | .enter index busy =>
    match o.drafts[index]? with
    | none => o
    | some draft =>
      if o.reading ∨ draft.result.isNone then o
      else if o.inside.isSome ∨ busy ∨ draft.revision ≠ o.revision then
        {o with drafts := o.drafts.eraseIdx index}
      else {o with drafts := o.drafts.eraseIdx index,inside := some (draft,.entered)}
  | .assign =>
    match o.inside with
    | some (draft,.entered) =>
      match draft.result with
      | some .nothing => o
      | some result => {o with settings := result.apply o.settings,inside := some (draft,.assigned)}
      | none => o
    | _ => o
  | .bump =>
    match o.inside with
    | some (draft,.assigned) => {o with revision := o.revision + 1,inside := some (draft,.bumped)}
    | _ => o
  | .leave =>
    match o.inside with
    | none => o
    | some (_,.assigned) => o
    | some _ => if o.reading then o else {o with inside := none}

end Office

structure Serial (o : Office Rag) (event : PageEvent Rag) : Prop where
  /-- What is assigned is computed from the settings in force just before. -/
  computed : ∀ draft, event = .assign → o.inside = some (draft,.entered) →
    ∃ result, draft.change.compute o.settings.ai o.settings = .ok result ∧
      (o.step event).settings = result.apply o.settings
  /-- A commit raises the revision of the page by one. -/
  raised : ∀ draft, event = .bump → o.inside = some (draft,.assigned) →
    (o.step event).revision = draft.revision + 1
  /-- Nothing else changes the revision. -/
  still : event ≠ .bump → (o.step event).revision = o.revision
  /-- A change with another revision is refused without effect. -/
  refused : ∀ index busy draft, event = .enter index busy → o.drafts[index]? = some draft →
    draft.revision ≠ o.revision → (o.step event).settings = o.settings ∧
      (o.step event).revision = o.revision ∧ (o.step event).inside = o.inside

def Untorn (o : Office Rag) : PageEvent Rag → Prop
  | .read => o.reading → o.settings.ai.effective = o.settings.ai
  | _ => True

def AllUntorn (o : Office Rag) : List (PageEvent Rag) → Prop
  | [] => True
  | event :: events => Untorn o event ∧ AllUntorn (o.step event) events

/-- Some page knows the current revision, whose settings are in force. -/
def Office.Known (o : Office Rag) : Prop :=
  o.revision ∈ o.pages ∧ ∀ draft, o.inside ≠ some (draft,.assigned)

def Office.Fresh (o : Office Rag) (draft : Draft Rag) : Prop :=
  draft.seen = o.settings.ai ∧ ∀ result, draft.result = some result →
    draft.change.compute o.settings.ai o.settings = .ok result

/-- Pages are behind, and what the drafts of the current revision are computed from is in
force. -/
structure Consistent (o : Office Rag) : Prop where
  behind : ∀ revision ∈ o.pages, revision ≤ o.revision
  projected : o.Known → o.settings.ai.effective = o.settings.ai
  known : ∀ draft ∈ o.drafts, draft.revision ∈ o.pages
  fresh : ∀ draft ∈ o.drafts, o.Known → draft.revision = o.revision → o.Fresh draft
  entered : ∀ draft, o.inside = some (draft,.entered) → draft.revision = o.revision ∧
    draft.revision ∈ o.pages ∧ o.Fresh draft ∧ draft.result.isSome
  assigned : ∀ draft, o.inside = some (draft,.assigned) → draft.revision = o.revision

variable {o : Office Rag}

theorem AIChange.touched_of_projected {ai : AISettings} (projected : ai.effective = ai)
    (change : AIChange) : change.touched ai = ai := by
  cases change with
  | flat values =>
    simp only [AIChange.touched]
    split
    · rfl
    · exact projected
  | activate id => rfl
  | upsert payload applied => rfl
  | delete id => rfl

theorem Change.touched_of_projected {ai : AISettings} (projected : ai.effective = ai)
    (change : Change Rag) : change.touched ai = ai := by
  cases change with
  | ai change => exact change.touched_of_projected projected
  | rag edit => rfl
  | vault root => rfl

/-- Settings that change only where no page knows them keep everything in place. -/
theorem consistent_setAi (consistent : Consistent o) {ai : AISettings}
    (same : o.Known → ai = o.settings.ai) : Consistent (o.setAi ai) := by
  have frozen (known : o.Known) : (o.setAi ai).settings = o.settings := by
    simp only [Office.setAi,same known]
  exact {
    behind := consistent.behind
    projected := fun known => by
      rw [frozen known]
      exact consistent.projected known
    known := consistent.known
    fresh := fun draft mem known own => by
      have fresh := consistent.fresh draft mem known own
      rw [Office.Fresh] at fresh ⊢
      simpa only [frozen known] using fresh
    entered := fun draft here => by
      obtain ⟨own,mem,fresh,done⟩ := consistent.entered draft here
      have known : o.Known := ⟨own ▸ mem,fun other assigned => by
        have equal : some (draft,Phase.entered) = some (other,.assigned) := here.symm.trans assigned
        cases equal⟩
      refine ⟨own,mem,?_,done⟩
      rw [Office.Fresh] at fresh ⊢
      simpa only [frozen known] using fresh
    assigned := consistent.assigned}

theorem consistent_look (consistent : Consistent o) : Consistent (o.step .look) := by
  simp only [Office.step]
  split
  · exact consistent
  · -- Where a page knows the revision, the settings are projected already.
    obtain ⟨behind,projected,known,fresh,entered,assigned⟩ :=
      consistent_setAi consistent consistent.projected
    exact ⟨behind,projected,known,fresh,entered,assigned⟩

theorem consistent_read (consistent : Consistent o) (untorn : Untorn o .read) :
    Consistent (o.step .read) := by
  simp only [Office.step]
  split
  · rename_i reading
    have projected := untorn reading
    exact {
      behind := fun revision mem => by
        rcases List.mem_cons.mp mem with rfl | old
        · exact le_rfl
        · exact consistent.behind revision old
      projected := fun _ => projected
      known := fun draft mem => List.mem_cons_of_mem _ (consistent.known draft mem)
      fresh := fun draft mem known own => consistent.fresh draft mem
        ⟨own ▸ consistent.known draft mem,known.2⟩ own
      entered := fun draft here => by
        obtain ⟨own,mem,rest⟩ := consistent.entered draft here
        exact ⟨own,List.mem_cons_of_mem _ mem,rest⟩
      assigned := consistent.assigned}
  · exact consistent

theorem consistent_receive (consistent : Consistent o) (revision : Int) (change : Change Rag) :
    Consistent (o.step (.receive revision change)) := by
  simp only [Office.step]
  split
  · rename_i page
    exact {
      behind := consistent.behind
      projected := consistent.projected
      known := fun draft mem => by
        rcases List.mem_append.mp mem with old | new
        · exact consistent.known draft old
        · rw [List.mem_singleton.mp new]
          exact page
      fresh := fun draft mem known own => by
        rcases List.mem_append.mp mem with old | new
        · exact consistent.fresh draft old known own
        · rw [List.mem_singleton.mp new]
          exact ⟨rfl,nofun⟩
      entered := consistent.entered
      assigned := consistent.assigned}
  · exact consistent

/-- Dropping drafts keeps everything in place. -/
theorem consistent_sublist {drafts : List (Draft Rag)} (consistent : Consistent o)
    (fewer : ∀ draft ∈ drafts, draft ∈ o.drafts) : Consistent {o with drafts := drafts} where
  behind := consistent.behind
  projected := consistent.projected
  known draft mem := consistent.known draft (fewer draft mem)
  fresh draft mem := consistent.fresh draft (fewer draft mem)
  entered := consistent.entered
  assigned := consistent.assigned

/-- Computing a change projects settings at most, which no page knows then. -/
theorem consistent_touched (consistent : Consistent o) (change : Change Rag) :
    Consistent (o.setAi (change.touched o.settings.ai)) := by
  apply consistent_setAi consistent
  exact fun known => change.touched_of_projected (consistent.projected known)

theorem consistent_compute (consistent : Consistent o) (index : Nat) :
    Consistent (o.step (.compute index)) := by
  simp only [Office.step]
  split
  · exact consistent
  · rename_i draft found
    have here := List.mem_of_getElem? found
    have touched := consistent_touched consistent draft.change
    split
    · rename_i result done
      have mine (other : Draft Rag)
          (mem : other ∈ o.drafts.set index {draft with result := some result}) :
          other ∈ o.drafts ∨ other = {draft with result := some result} :=
        List.mem_or_eq_of_mem_set mem
      exact {
        behind := touched.behind
        projected := touched.projected
        known := fun other mem => by
          rcases mine other mem with old | rfl
          · exact consistent.known other old
          · exact consistent.known draft here
        fresh := fun other mem known own => by
          rcases mine other mem with old | rfl
          · exact touched.fresh other old known own
          · -- The draft is of the revision in force, so nothing has changed since it was read.
            have fresh := consistent.fresh draft here known own
            have same := draft.change.touched_of_projected (consistent.projected known)
            refine ⟨?_,fun _ equal => ?_⟩
            · change draft.seen = draft.change.touched o.settings.ai
              rw [same]
              exact fresh.1
            · obtain rfl := Option.some.inj equal
              simp only [Office.setAi,same]
              rw [← done,fresh.1]
        entered := touched.entered
        assigned := touched.assigned}
    · exact consistent_sublist touched fun other mem => List.mem_of_mem_eraseIdx mem

theorem consistent_enter (consistent : Consistent o) (index : Nat) (busy : Bool) :
    Consistent (o.step (.enter index busy)) := by
  have fewer : ∀ draft ∈ o.drafts.eraseIdx index, draft ∈ o.drafts :=
    fun draft mem => List.mem_of_mem_eraseIdx mem
  simp only [Office.step]
  split
  · exact consistent
  · rename_i draft found
    split
    · exact consistent
    · rename_i ready
      rw [not_or,Option.isNone_iff_eq_none] at ready
      have done : draft.result.isSome := Option.isSome_iff_ne_none.mpr ready.2
      split
      · exact consistent_sublist consistent fewer
      · rename_i free
        simp only [not_or,Option.isSome_iff_ne_none,not_not] at free
        have mem := List.mem_of_getElem? found
        have known : o.Known := by
          refine ⟨free.2.2 ▸ consistent.known draft mem,fun other assigned => ?_⟩
          rw [free.1] at assigned
          cases assigned
        have fresh := consistent.fresh draft mem known free.2.2
        exact {
          behind := consistent.behind
          projected := fun _ => consistent.projected known
          known := fun other mem => consistent.known other (fewer other mem)
          fresh := fun other mem _ own => consistent.fresh other (fewer other mem) known own
          entered := fun other here => by
            obtain ⟨rfl,-⟩ := Prod.mk.inj (Option.some.inj here)
            exact ⟨free.2.2,consistent.known draft mem,fresh,done⟩
          assigned := fun other here => by cases here}

theorem consistent_assign (consistent : Consistent o) : Consistent (o.step .assign) := by
  simp only [Office.step]
  split
  · rename_i draft inside
    obtain ⟨own,-⟩ := consistent.entered draft inside
    split
    · exact consistent
    · exact {
        behind := consistent.behind
        projected := fun known => absurd rfl (known.2 draft)
        known := consistent.known
        fresh := fun other mem known => absurd rfl (known.2 draft)
        entered := fun other here => by cases here
        assigned := fun other here => by
          obtain ⟨rfl,-⟩ := Prod.mk.inj (Option.some.inj here)
          exact own}
    · exact consistent
  · exact consistent

/-- No page knows the revision that a commit brings. -/
theorem consistent_bump (consistent : Consistent o) : Consistent (o.step .bump) := by
  simp only [Office.step]
  split
  · have unknown : o.revision + 1 ∉ o.pages := by
      intro mem
      have bound := consistent.behind _ mem
      omega
    exact {
      behind := fun revision mem => by
        have bound := consistent.behind revision mem
        exact bound.trans (Int.le_add_one le_rfl)
      projected := fun known => absurd known.1 unknown
      known := consistent.known
      fresh := fun other mem known => absurd known.1 unknown
      entered := fun other here => by cases here
      assigned := fun other here => by cases here}
  · exact consistent

theorem consistent_leave (consistent : Consistent o) : Consistent (o.step .leave) := by
  simp only [Office.step]
  split
  · exact consistent
  · exact consistent
  · rename_i phase other inside
    split
    · exact consistent
    · have still (known : Office.Known {o with inside := none}) : o.Known := by
        refine ⟨known.1,fun draft assigned => ?_⟩
        rw [inside] at assigned
        exact other draft (Option.some.inj assigned)
      exact {
        behind := consistent.behind
        projected := fun known => consistent.projected (still known)
        known := consistent.known
        fresh := fun draft mem known => consistent.fresh draft mem (still known)
        entered := fun _ here => by cases here
        assigned := fun _ here => by cases here}

theorem consistent_step {event : PageEvent Rag} (consistent : Consistent o)
    (untorn : Untorn o event) : Consistent (o.step event) := by
  cases event with
  | look => exact consistent_look consistent
  | read => exact consistent_read consistent untorn
  | receive revision change => exact consistent_receive consistent revision change
  | compute index => exact consistent_compute consistent index
  | enter index busy => exact consistent_enter consistent index busy
  | assign => exact consistent_assign consistent
  | bump => exact consistent_bump consistent
  | leave => exact consistent_leave consistent

theorem Consistent.serial (consistent : Consistent o) (event : PageEvent Rag) :
    Serial o event where
  computed draft assigns inside := by
    subst assigns
    obtain ⟨-,-,⟨-,fresh⟩,done⟩ := consistent.entered draft inside
    obtain ⟨result,found⟩ := Option.isSome_iff_exists.mp done
    refine ⟨result,fresh result found,?_⟩
    simp only [Office.step,inside,found]
    cases result <;> rfl
  raised draft bumps inside := by
    subst bumps
    simp only [Office.step,inside]
    rw [consistent.assigned draft inside]
  still other := by
    cases event with
    | look => simp only [Office.step]; split <;> rfl
    | read => simp only [Office.step]; split <;> rfl
    | receive revision change => simp only [Office.step]; split <;> rfl
    | compute index =>
      simp only [Office.step]
      split
      · rfl
      · split <;> rfl
    | enter index busy =>
      simp only [Office.step]
      split
      · rfl
      · split
        · rfl
        · split <;> rfl
    | assign =>
      simp only [Office.step]
      split
      · split <;> rfl
      · rfl
    | bump => exact absurd rfl other
    | leave =>
      simp only [Office.step]
      split
      · rfl
      · rfl
      · split <;> rfl
  refused index busy draft enters found stale := by
    subst enters
    simp only [Office.step,found]
    split
    · exact ⟨rfl,rfl,rfl⟩
    · rw [if_pos (.inr (.inr stale))]
      exact ⟨rfl,rfl,rfl⟩

theorem consistent_run {events : List (PageEvent Rag)} (consistent : Consistent o)
    (untorn : AllUntorn o events) : Consistent (events.foldl Office.step o) := by
  induction events generalizing o with
  | nil => exact consistent
  | cons event events ih => exact ih (consistent_step consistent untorn.1) untorn.2

end steps

section runs

open scoped AsciiHost PlainUrls

def localRoute : Route := {kind := .omlx,baseUrl := none}

/-- A library with the active profile `a` and another one. -/
def twoProfiles : Settings Unit where
  ai := {localRoute with
    profiles := [{localRoute with id := "a".toList},{localRoute with id := "b".toList}]
    activeProfileId := "a".toList}
  rag := ()

/-- One page edits the active profile without applying it, while a snapshot is being read; the
page that this snapshot is for prepares a third profile. -/
def tornSnapshot : Office Unit :=
  [PageEvent.look,.read,
    .receive 1 (.ai (.upsert {id := "a".toList,chatModel := some "new".toList} false)),.compute 0,
    .enter 0 false,.look,.assign,.bump,.read,.leave,
    .receive 2 (.ai (.upsert {id := "c".toList} false)),.compute 0,.look,.read,
    .enter 0 false].foldl Office.step {settings := twoProfiles}

end runs

end LocalBook.Server
