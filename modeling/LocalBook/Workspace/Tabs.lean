import LocalBook.Sha256
import LocalBook.Workspace.Store

/-! When tabs and sessions stay consistent. An answer comes to a store that has gone on: its
tab may be closed or taken to another path, and its session may be gone. -/
namespace LocalBook.Workspace

namespace Store

/-- Every session belongs to the tab of its path and has a content, no two tabs have one path,
and the active path is that of a tab. -/
structure Consistent (s : Store) : Prop where
  owned : ∀ path session, s.sessions path = some session →
    path ∈ s.tabPaths ∧ session.path = some path ∧ session.content.isSome
  distinct : s.tabPaths.Nodup
  active : ∀ path, s.activePath = some path → path ∈ s.tabPaths

def Closes (s : Store) (path : Path) : Event → Prop
  | .closeTab closed confirmed => closed = path ∧ s.declined closed confirmed = false
  | .reply index answer =>
    match s.inFlight[index]?,answer with
    | some (.move source _),.moved _ => source = path
    | some (.trash removed),.trashed => gone removed.val path
    | some (.delete _),.deleted removed => gone removed.val path
    | _,_ => False
  | _ => False

def Loads (s : Store) (path : Path) : Event → Prop
  | .reply index (.file ..) => ∃ version, s.inFlight[index]? = some (.load path version)
  | _ => False

end Store

/-- Which paths an `openFile` waits for, and for which its load succeeded, with no close
since. -/
structure Openings where
  waiting : Path → Prop := fun _ => False
  arrived : Path → Prop := fun _ => False

namespace Openings

def step (o : Openings) (s : Store) (event : Event) : Openings where
  waiting path := ¬ s.Closes path event ∧
    (o.waiting path ∨ event = .openFile path ∧ s.sessions path = none)
  arrived path := ¬ s.Closes path event ∧ (o.arrived path ∨ o.waiting path ∧ s.Loads path event)

end Openings

/-- The state is consistent, and what was opened has a tab and a session. -/
structure Good (o : Openings) (s : Store) : Prop where
  consistent : s.Consistent
  opened : ∀ path, o.arrived path → path ∈ s.tabPaths ∧ (s.sessions path).isSome

/-- What an answer has to find: a load the tab of its path, a reload the session, and a move
a target without a tab, unless it moves nothing. -/
def Finds (s : Store) : Request → Answer → Prop
  | .load path version,.file .. => s.isCurrent path version → path ∈ s.tabPaths
  | .reload path version,.file .. => s.isCurrent path version → (s.sessions path).isSome
  | .reload path version,.failed => s.isCurrent path version → (s.sessions path).isSome
  | .move source _,.moved target =>
    source ∈ s.tabPaths → target.val ≠ source → target.val ∉ s.tabPaths
  | _,_ => True

/-- A load whose counter another request has taken over finds the session of that request, if
its path is waited for. -/
def Overtaken (o : Openings) (s : Store) : Request → Answer → Prop
  | .load path version,.file .. =>
    s.isCurrent path version = false → o.waiting path → (s.sessions path).isSome
  | _,_ => True

/-- An event comes to a store that has what it needs: to open a path that is being loaded, its
tab. -/
def Sound (o : Openings) (s : Store) : Event → Prop
  | .openFile path => s.sessions path = none → s.openRequests path → path ∈ s.tabPaths
  | .reply index answer => ∀ request, s.inFlight[index]? = some request →
    Finds s request answer ∧ Overtaken o s request answer
  | _ => True

namespace Store

variable {s : Store}

theorem mem_tabPaths {path : Path} : s.tabs.any (·.path = path) = true ↔ path ∈ s.tabPaths := by
  simp [tabPaths,List.any_eq_true]

/-- Changes of a tab that leave its path alone. -/
theorem mapTabs_paths {path : Path} {change : Tab → Tab} (same : ∀ tab, (change tab).path = tab.path) :
    (s.mapTabs path change).map Tab.path = s.tabPaths := by
  simp only [mapTabs,tabPaths,List.map_map]
  refine List.map_congr_left fun tab _ => ?_
  simp only [Function.comp]
  split
  · exact same tab
  · rfl

/-- Consistency looks at the tabs' paths, the sessions and the active path. -/
theorem Consistent.congr {t : Store} (consistent : s.Consistent) (paths : t.tabPaths = s.tabPaths)
    (sessions : t.sessions = s.sessions) (active : t.activePath = s.activePath) :
    t.Consistent where
  owned := by rw [paths,sessions]; exact consistent.owned
  distinct := by rw [paths]; exact consistent.distinct
  active := by rw [paths,active]; exact consistent.active

/-- A session with its path and a content, for a path that has a tab. -/
theorem Consistent.update {t : Store} (consistent : s.Consistent) {path : Path} {session : Session}
    (paths : t.tabPaths = s.tabPaths)
    (sessions : t.sessions = Function.update s.sessions path (some session))
    (active : t.activePath = s.activePath) (mem : path ∈ s.tabPaths)
    (own : session.path = some path) (content : session.content.isSome) : t.Consistent where
  owned := by
    intro key found here
    rw [sessions,Function.update_apply] at here
    rw [paths]
    split at here
    · rename_i same
      cases here
      subst same
      exact ⟨mem,own,content⟩
    · exact consistent.owned key found here
  distinct := by rw [paths]; exact consistent.distinct
  active := by rw [paths,active]; exact consistent.active

theorem neighbour_mem {remaining : List Tab} {path found : Path}
    (here : s.neighbour remaining path = some found) : found ∈ remaining.map Tab.path := by
  obtain ⟨index,-,there⟩ := Option.bind_eq_some_iff.mp here
  obtain ⟨tab,at_,rfl⟩ := Option.map_eq_some_iff.mp there
  exact List.mem_map_of_mem (List.mem_of_getElem? at_)

/-- Closing tabs together with their sessions. -/
theorem Consistent.close {t : Store} (consistent : s.Consistent) (keep : Path → Bool)
    (tabs : t.tabs = s.tabs.filter (keep ·.path))
    (sessions : ∀ path, t.sessions path = if keep path then s.sessions path else none)
    (active : ∀ path, t.activePath = some path →
      path ∈ t.tabPaths ∨ (s.activePath = some path ∧ keep path)) : t.Consistent := by
  have paths : t.tabPaths = s.tabPaths.filter keep := by
    simp only [tabPaths,tabs,List.filter_map]
    rfl
  refine ⟨fun path session found => ?_,?_,fun path here => ?_⟩
  · rw [sessions] at found
    split at found
    · rename_i kept
      obtain ⟨mem,rest⟩ := consistent.owned path session found
      exact ⟨paths ▸ List.mem_filter.mpr ⟨mem,kept⟩,rest⟩
    · cases found
  · rw [paths]
    exact consistent.distinct.filter _
  · rcases active path here with mem | ⟨before,kept⟩
    · exact mem
    · exact paths ▸ List.mem_filter.mpr ⟨consistent.active path before,kept⟩

theorem Consistent.closeTab (consistent : s.Consistent) (path : Path) (confirmed : Bool) :
    (s.closeTab path confirmed).Consistent := by
  unfold Store.closeTab
  split
  · exact consistent
  · refine consistent.close (· ≠ path) rfl (fun key => ?_) fun key here => ?_
    · by_cases same : key = path <;> simp [same]
    · simp only at here
      split at here
      · exact Or.inl (neighbour_mem here)
      · rename_i other
        refine Or.inr ⟨here,?_⟩
        simp only [ne_eq,decide_not,Bool.not_eq_true',decide_eq_false_iff_not]
        rintro rfl
        exact other here

theorem Consistent.closeTreePaths (consistent : s.Consistent) {removed : Path} (proper : removed ≠ []) :
    (s.closeTreePaths removed).Consistent := by
  unfold Store.closeTreePaths
  refine consistent.close (fun path => !gone removed path) rfl (fun key => ?_)
    fun key here => ?_
  · by_cases away : gone removed key <;> simp [away]
  · simp only at here
    split at here
    · rename_i path active
      split at here
      · exact Or.inl (neighbour_mem here)
      · rename_i stays
        cases here
        refine Or.inr ⟨active,?_⟩
        -- The empty path never leaves the tree.
        by_cases empty : key = []
        · subst empty
          cases removed with
          | nil => exact absurd rfl proper
          | cons c t => rfl
        · simpa [empty] using stays
    · cases here

theorem Consistent.openFile (consistent : s.Consistent) (path : Path) :
    (s.openFile path).Consistent ↔
      (s.sessions path = none → s.openRequests path → path ∈ s.tabPaths) := by
  have activate : ({s with activePath := some path} : Store).Consistent ↔ path ∈ s.tabPaths :=
    ⟨fun good => good.active path rfl,fun mem => ⟨consistent.owned,consistent.distinct,
      fun key here => Option.some.inj here ▸ mem⟩⟩
  unfold Store.openFile
  cases session : s.sessions path with
  | some session =>
    simp only [Option.isSome_some,if_true,activate]
    exact ⟨fun _ absent => (nomatch absent),fun _ => (consistent.owned path _ ‹_›).1⟩
  | none =>
    simp only [Option.isSome_none,Bool.false_eq_true,if_false,true_implies]
    cases requested : s.openRequests path with
    | true => simp [activate]
    | false =>
      simp only [Bool.false_eq_true,if_false,false_implies,iff_true]
      by_cases tab : s.tabs.any (·.path = path) = true
      · rw [if_pos tab]
        exact ⟨consistent.owned,consistent.distinct,
          fun key here => Option.some.inj here ▸ mem_tabPaths.mp tab⟩
      · rw [if_neg tab]
        have fresh : path ∉ s.tabPaths := fun mem => tab (mem_tabPaths.mpr mem)
        refine ⟨fun key found here => ?_,?_,fun key here => ?_⟩
        · obtain ⟨mem,rest⟩ := consistent.owned key found here
          exact ⟨by simpa [tabPaths] using Or.inl (by simpa [tabPaths] using mem),rest⟩
        · simp only [tabPaths,List.map_append,List.map_cons,List.map_nil]
          exact List.nodup_append'.mpr ⟨consistent.distinct,List.nodup_singleton _,by
            simpa [tabPaths,List.disjoint_singleton] using fresh⟩
        · cases here
          simp [tabPaths]

/-- An answer that finds no session makes one without a path. -/
theorem not_consistent_of_pathless {t : Store} {path : Path} {session : Session}
    (here : t.sessions path = some session) (broken : session.path = none ∨ session.content = none) :
    ¬ t.Consistent := by
  intro consistent
  obtain ⟨-,own,content⟩ := consistent.owned path session here
  rcases broken with absent | absent
  · rw [absent] at own
    cases own
  · rw [absent] at content
    cases content

/-- A store that has the tabs' paths, the active path and the sessions of another one, up to
what the sessions hold. -/
structure Amends (t s : Store) : Prop where
  paths : t.tabPaths = s.tabPaths
  active : t.activePath = s.activePath
  sessions : ∀ path, (t.sessions path).map (fun x => (x.path,x.content.isSome)) =
    (s.sessions path).map fun x => (x.path,x.content.isSome)

theorem Amends.refl (s : Store) : Amends s s := ⟨rfl,rfl,fun _ => rfl⟩

theorem Amends.trans {r t : Store} (first : Amends r t) (second : Amends t s) : Amends r s :=
  ⟨first.paths.trans second.paths,first.active.trans second.active,fun path =>
    (first.sessions path).trans (second.sessions path)⟩

theorem amends_update {t : Store} {path : Path} {old new : Session} (here : s.sessions path = some old)
    (paths : t.tabPaths = s.tabPaths) (active : t.activePath = s.activePath)
    (sessions : t.sessions = Function.update s.sessions path (some new)) (own : new.path = old.path)
    (content : new.content.isSome = old.content.isSome) : Amends t s := by
  refine ⟨paths,active,fun key => ?_⟩
  rw [sessions,Function.update_apply]
  split
  · rename_i same
    rw [same,here,Option.map_some,Option.map_some,own,content]
  · rfl

theorem Consistent.amends {t : Store} (consistent : s.Consistent) (amends : Amends t s) :
    t.Consistent where
  owned := by
    intro path session here
    have same := amends.sessions path
    rw [here,Option.map_some] at same
    obtain ⟨old,there,equal⟩ := Option.map_eq_some_iff.mp same.symm
    simp only [Prod.mk.injEq] at equal
    rw [amends.paths,← equal.1,← equal.2]
    exact consistent.owned path old there
  distinct := by rw [amends.paths]; exact consistent.distinct
  active := by rw [amends.paths,amends.active]; exact consistent.active

theorem amends_setQueue (path : Path) (queue : SaveQueue) : Amends (s.setQueue path queue) s :=
  ⟨rfl,rfl,fun _ => rfl⟩

theorem amends_save (path : Path) (manual : Bool) : Amends (s.save path manual) s := by
  unfold save
  split
  · exact .refl s
  · simp only
    split
    · exact amends_setQueue ..
    · split
      · exact .refl s
      · rename_i session here
        split
        · split
          · exact amends_update here rfl rfl rfl rfl rfl
          · exact ⟨rfl,rfl,fun _ => rfl⟩
        · exact .refl s

theorem amends_saveFinished (path : Path) : Amends (s.saveFinished path) s := by
  unfold saveFinished
  simp only
  split
  · split
    · exact amends_setQueue ..
    · split
      · exact (amends_save ..).trans (amends_setQueue ..)
      · exact amends_setQueue ..
  · exact amends_setQueue ..

theorem amends_fail (path : Path) (saveState : SaveState) : Amends (s.fail path saveState) s := by
  unfold fail
  split
  · exact .refl s
  · rename_i session here
    exact amends_update here rfl rfl rfl rfl rfl

theorem amends_patchFailed (path : Path) (saveState : SaveState) :
    Amends (s.patchFailed path saveState) s :=
  (amends_saveFinished path).trans ((amends_setQueue ..).trans (amends_fail ..))

theorem amends_keepFailed (path : Path) (version : Version) : Amends (s.keepFailed path version) s := by
  unfold keepFailed
  split
  · exact amends_fail ..
  · exact .refl s

theorem amends_patched (path : Path) (sentVersion : Version) (sentContent : Option Text)
    (sha256 : Digest) : Amends (s.patched path sentVersion sentContent sha256) s := by
  unfold patched
  refine (amends_saveFinished path).trans ?_
  cases here : s.sessions path with
  | none =>
    simp only
    split
    · exact amends_setQueue ..
    · exact .refl s
  | some latest =>
    have acknowledges := amends_update (t := {s with
      sessions := Function.update s.sessions path
        (some (acknowledged latest sentVersion sentContent sha256))
      tabs := s.mapTabs path fun tab => {tab with
        dirty := (acknowledged latest sentVersion sentContent sha256).dirty = some true}})
      here (mapTabs_paths fun _ => rfl) rfl rfl rfl rfl
    simp only
    split
    · exact (amends_setQueue ..).trans acknowledges
    · exact acknowledges

theorem amends_kept (path : Path) (version : Version) (sha256 : Digest) :
    Amends (s.kept path version sha256) s := by
  unfold kept
  split
  · split
    · exact .refl s
    · rename_i session here
      exact amends_update here rfl rfl rfl rfl rfl
  · exact .refl s

theorem Consistent.updateContent (consistent : s.Consistent) (path : Path) (content : Text) :
    (s.updateContent path content).Consistent := by
  unfold Store.updateContent
  split
  · exact consistent
  · rename_i session here
    split
    · exact consistent
    · split
      · exact consistent
      · obtain ⟨mem,own,-⟩ := consistent.owned path session here
        exact consistent.update (mapTabs_paths fun _ => rfl) rfl rfl mem own rfl

theorem Consistent.loaded (consistent : s.Consistent) (path : Path) (version : Version)
    (text : Option Text) (sha256 : Digest) : (s.loaded path version text sha256).Consistent ↔
      (s.isCurrent path version → path ∈ s.tabPaths) := by
  unfold Store.loaded
  cases current : s.isCurrent path version with
  | false =>
    have stale : ({s with openRequests := Function.update s.openRequests path false} : Store).isCurrent
        path version = false := current
    simp only [stale,Bool.false_eq_true,if_false,false_implies,iff_true]
    exact consistent.congr rfl rfl rfl
  | true =>
    have fresh : ({s with openRequests := Function.update s.openRequests path false} : Store).isCurrent
        path version = true := current
    simp only [fresh,if_true,true_implies]
    constructor
    · intro good
      have paths : (s.mapTabs path fun tab => {tab with loading := false}).map Tab.path =
          s.tabPaths := mapTabs_paths fun _ => rfl
      obtain ⟨mem,-⟩ := good.owned path _ (Function.update_self ..)
      rwa [← paths]
    · intro mem
      exact consistent.update (mapTabs_paths fun _ => rfl) rfl rfl mem rfl rfl

theorem Consistent.loadFailed (consistent : s.Consistent) (path : Path) (version : Version) :
    (s.loadFailed path version).Consistent := by
  unfold Store.loadFailed
  simp only
  split
  · exact consistent.congr (mapTabs_paths fun _ => rfl) rfl rfl
  · exact consistent.congr rfl rfl rfl

theorem Consistent.reloaded (consistent : s.Consistent) (path : Path) (version : Version)
    (text : Option Text) (sha256 : Digest) : (s.reloaded path version text sha256).Consistent ↔
      (s.isCurrent path version → (s.sessions path).isSome) := by
  unfold Store.reloaded
  cases current : s.isCurrent path version with
  | false => simpa using consistent
  | true =>
    simp only [if_true,true_implies]
    cases here : s.sessions path with
    | none =>
      simp only [Option.isSome_none,Bool.false_eq_true,iff_false]
      exact not_consistent_of_pathless (Function.update_self ..) (Or.inl rfl)
    | some session =>
      obtain ⟨mem,own,-⟩ := consistent.owned path session here
      simp only [Option.isSome_some,iff_true]
      exact consistent.update (mapTabs_paths fun _ => rfl) rfl rfl mem own rfl

theorem Consistent.reloadFailed (consistent : s.Consistent) (path : Path) (version : Version) :
    (s.reloadFailed path version).Consistent ↔
      (s.isCurrent path version → (s.sessions path).isSome) := by
  unfold Store.reloadFailed
  cases current : s.isCurrent path version with
  | false => simpa using consistent
  | true =>
    simp only [if_true,true_implies]
    cases here : s.sessions path with
    | none =>
      simp only [Option.isSome_none,Bool.false_eq_true,iff_false]
      exact not_consistent_of_pathless (Function.update_self ..) (Or.inl rfl)
    | some session =>
      obtain ⟨mem,own,content⟩ := consistent.owned path session here
      simp only [Option.isSome_some,iff_true]
      exact consistent.update rfl rfl rfl mem own content

/-- The paths of the tabs when the tab of a path goes to another one. -/
theorem repoint_paths {source target : Path} :
    (s.mapTabs source fun tab => {tab with path := target,title := baseName target}).map Tab.path =
      s.tabPaths.map fun path => if path = source then target else path := by
  simp only [mapTabs,tabPaths,List.map_map]
  refine List.map_congr_left fun tab _ => ?_
  simp only [Function.comp]
  split <;> rfl

theorem Consistent.repoint (consistent : s.Consistent) (source target : Path) :
    (s.repoint source target).Consistent ↔
      (source ∈ s.tabPaths → target ≠ source → target ∉ s.tabPaths) := by
  unfold Store.repoint
  by_cases mem : source ∈ s.tabPaths
  · have tab := mem_tabPaths.mpr mem
    simp only [tab,Bool.or_true,if_true,mem,true_implies]
    constructor
    · -- A tab at the target would have its path twice.
      intro good apart taken
      have distinct := good.distinct
      rw [tabPaths,repoint_paths] at distinct
      have injective := List.inj_on_of_nodup_map distinct mem taken
      exact apart (injective (by simp [apart])).symm
    · intro free
      have absent : ∀ path session, s.sessions path = some session → path ≠ source →
          path ≠ target := by
        rintro path session here other rfl
        exact free other (consistent.owned path session here).1
      have moved : ∀ path, path ∈ s.tabPaths → (if path = source then target else path) ∈
          s.tabPaths.map fun path => if path = source then target else path :=
        fun path inTabs => List.mem_map_of_mem inTabs
      refine ⟨fun path session here => ?_,?_,fun path here => ?_⟩
      · rw [tabPaths,repoint_paths]
        cases sessionHere : s.sessions source with
        | none =>
          simp only [sessionHere] at here
          have other : path ≠ source := by
            rintro rfl
            rw [sessionHere] at here
            cases here
          obtain ⟨inTabs,rest⟩ := consistent.owned path session here
          have found := moved path inTabs
          rw [if_neg other] at found
          exact ⟨found,rest⟩
        | some open_ =>
          simp only [sessionHere] at here
          rw [Function.update_apply] at here
          split at here
          · rename_i atTarget
            cases here
            have found := moved source mem
            rw [if_pos rfl] at found
            exact ⟨atTarget ▸ found,by rw [atTarget],(consistent.owned source open_ sessionHere).2.2⟩
          · rw [Function.update_apply] at here
            split at here
            · cases here
            · rename_i other
              obtain ⟨inTabs,rest⟩ := consistent.owned path session here
              have found := moved path inTabs
              rw [if_neg other] at found
              exact ⟨found,rest⟩
      · rw [tabPaths,repoint_paths]
        refine consistent.distinct.map_on fun a inA b inB same => ?_
        by_cases atA : a = source <;> by_cases atB : b = source <;> simp only [atA,atB,if_true,
          if_false] at same
        · rw [atA,atB]
        · by_cases still : target = source
          · exact atA.trans (still.symm.trans same)
          · exact absurd (same ▸ inB) (free still)
        · by_cases still : target = source
          · exact (same.trans still).trans atB.symm
          · exact absurd (same ▸ inA) (free still)
        · exact same
      · rw [tabPaths,repoint_paths]
        simp only at here
        split at here
        · cases here
          have found := moved source mem
          rwa [if_pos rfl] at found
        · rename_i other
          have different : path ≠ source := by
            rintro rfl
            exact other here
          have found := moved path (consistent.active path here)
          rwa [if_neg different] at found
  · have noTab : s.tabs.any (·.path = source) = false := by
      cases found : s.tabs.any (·.path = source) with
      | false => rfl
      | true => exact absurd (mem_tabPaths.mp found) mem
    have noSession : s.sessions source = none := by
      cases here : s.sessions source with
      | none => rfl
      | some session => exact absurd (consistent.owned source session here).1 mem
    simp only [noTab,noSession,mem,false_implies,iff_true]
    exact consistent

def Has (s : Store) (path : Path) : Prop := path ∈ s.tabPaths ∧ (s.sessions path).isSome

theorem Has.update {t : Store} {path key : Path} {session : Session} (has : s.Has path)
    (paths : t.tabPaths = s.tabPaths)
    (sessions : t.sessions = Function.update s.sessions key (some session)) : t.Has path := by
  refine ⟨paths ▸ has.1,?_⟩
  rw [sessions,Function.update_apply]
  split
  · rfl
  · exact has.2

theorem Has.openFile {path : Path} (has : s.Has path) (opened : Path) :
    (s.openFile opened).Has path := by
  obtain ⟨mem,session⟩ := has
  unfold Store.openFile
  split
  · exact ⟨mem,session⟩
  · split
    · exact ⟨mem,session⟩
    · refine ⟨?_,session⟩
      simp only [tabPaths] at mem ⊢
      split
      · exact mem
      · rw [List.map_append]
        exact List.mem_append_left _ mem

theorem Has.closeTab {path closed : Path} {confirmed : Bool} (has : s.Has path)
    (other : ¬ (closed = path ∧ s.declined closed confirmed = false)) :
    (s.closeTab closed confirmed).Has path := by
  obtain ⟨mem,session⟩ := has
  unfold Store.closeTab
  cases declined : s.declined closed confirmed with
  | true => exact ⟨mem,session⟩
  | false =>
    have apart : path ≠ closed := fun same => other ⟨same.symm,declined⟩
    obtain ⟨tab,inTabs,rfl⟩ := List.mem_map.mp mem
    refine ⟨List.mem_map_of_mem (List.mem_filter.mpr ⟨inTabs,by simpa using apart⟩),?_⟩
    simpa [apart] using session

theorem Has.closeTreePaths {path removed : Path} (has : s.Has path)
    (stays : ¬ gone removed path = true) : (s.closeTreePaths removed).Has path := by
  obtain ⟨mem,session⟩ := has
  obtain ⟨tab,inTabs,rfl⟩ := List.mem_map.mp mem
  refine ⟨List.mem_map_of_mem (List.mem_filter.mpr ⟨inTabs,by simpa using stays⟩),?_⟩
  simpa [Store.closeTreePaths,stays] using session

theorem Has.updateContent {path : Path} (has : s.Has path) (edited : Path) (content : Text) :
    (s.updateContent edited content).Has path := by
  unfold Store.updateContent
  split
  · exact has
  · split
    · exact has
    · split
      · exact has
      · exact has.update (mapTabs_paths fun _ => rfl) rfl

theorem Has.loaded {path : Path} (has : s.Has path) (key : Path) (version : Version)
    (text : Option Text) (sha256 : Digest) : (s.loaded key version text sha256).Has path := by
  unfold Store.loaded
  simp only
  split
  · exact has.update (mapTabs_paths fun _ => rfl) rfl
  · exact has

/-- A load that finds its tab gives it a session. -/
theorem has_loaded {path : Path} {version : Version} (current : s.isCurrent path version)
    (mem : path ∈ s.tabPaths) (text : Option Text) (sha256 : Digest) :
    (s.loaded path version text sha256).Has path := by
  have same : ({s with openRequests := Function.update s.openRequests path false} : Store).isCurrent
      path version = true := current
  have paths : (s.mapTabs path fun tab => {tab with loading := false}).map Tab.path =
      s.tabPaths := mapTabs_paths fun _ => rfl
  rw [← paths] at mem
  unfold Store.loaded
  simp only [same]
  exact ⟨mem,by simp⟩

theorem Has.loadFailed {path : Path} (has : s.Has path) (key : Path) (version : Version) :
    (s.loadFailed key version).Has path := by
  unfold Store.loadFailed
  simp only
  split
  · have paths : (s.mapTabs key fun tab => {tab with loading := false}).map Tab.path =
        s.tabPaths := mapTabs_paths fun _ => rfl
    have mem := has.1
    rw [← paths] at mem
    exact ⟨mem,has.2⟩
  · exact has

theorem Has.reloaded {path : Path} (has : s.Has path) (key : Path) (version : Version)
    (text : Option Text) (sha256 : Digest) : (s.reloaded key version text sha256).Has path := by
  unfold Store.reloaded
  split
  · exact has.update (mapTabs_paths fun _ => rfl) rfl
  · exact has

theorem Has.reloadFailed {path : Path} (has : s.Has path) (key : Path) (version : Version) :
    (s.reloadFailed key version).Has path := by
  unfold Store.reloadFailed
  split
  · exact has.update rfl rfl
  · exact has

theorem Has.amends {t : Store} {path : Path} (has : s.Has path) (amends : Amends t s) : t.Has path := by
  refine ⟨amends.paths ▸ has.1,?_⟩
  have same := congrArg Option.isSome (amends.sessions path)
  rw [Option.isSome_map,Option.isSome_map] at same
  exact same.trans has.2

theorem Has.repoint {path source : Path} (has : s.Has path) (target : Path)
    (other : source ≠ path) : (s.repoint source target).Has path := by
  obtain ⟨mem,session⟩ := has
  unfold Store.repoint
  split
  · constructor
    · rw [tabPaths,repoint_paths]
      exact List.mem_map.mpr ⟨path,mem,if_neg other.symm⟩
    · cases s.sessions source with
      | none => exact session
      | some moved =>
        simp only [Function.update_apply]
        split
        · rfl
        · rwa [if_neg other.symm]
  · exact ⟨mem,session⟩

structure Alike (t s : Store) : Prop where
  tabs : t.tabs = s.tabs
  sessions : t.sessions = s.sessions
  active : t.activePath = s.activePath

theorem Alike.refl (s : Store) : Alike s s := ⟨rfl,rfl,rfl⟩

theorem alike_request (request : Request) : Alike (s.request request) s := ⟨rfl,rfl,rfl⟩

theorem alike_refetch (path : Path) (asked : Path → Version → Request) :
    Alike (s.refetch path asked) s := by
  unfold refetch
  split
  · exact .refl s
  · exact ⟨rfl,rfl,rfl⟩

theorem alike_moveEntry (sourcePath directory : Path) : Alike (s.moveEntry sourcePath directory) s := by
  unfold moveEntry
  simp only
  split
  · exact .refl s
  · exact alike_request _

theorem alike_renameEntry (path newName : Path) : Alike (s.renameEntry path newName) s := by
  unfold renameEntry
  simp only
  split
  · exact .refl s
  · split
    · exact .refl s
    · exact alike_request _

theorem alike_moveToTrash (path : Path) : Alike (s.moveToTrash path) s := by
  unfold moveToTrash
  simp only
  split
  · exact .refl s
  · split
    · exact .refl s
    · exact alike_request _

theorem alike_deleteEntry (path : Path) : Alike (s.deleteEntry path) s := by
  unfold deleteEntry
  simp only
  split
  · exact .refl s
  · split
    · exact .refl s
    · split
      · exact alike_request _
      · exact .refl s

theorem Alike.tabPaths {t : Store} (alike : Alike t s) : t.tabPaths = s.tabPaths := by
  rw [Store.tabPaths,alike.tabs,Store.tabPaths]

theorem Consistent.alike {t : Store} (consistent : s.Consistent) (alike : Alike t s) :
    t.Consistent := consistent.congr alike.tabPaths alike.sessions alike.active

theorem Has.alike {t : Store} {path : Path} (has : s.Has path) (alike : Alike t s) : t.Has path :=
  ⟨alike.tabPaths ▸ has.1,alike.sessions ▸ has.2⟩

/-- What has a tab and a session keeps them until it is closed. -/
theorem Has.step {path : Path} (has : s.Has path) {event : Event} (notClosed : ¬ s.Closes path event) :
    (s.step event).Has path := by
  cases event with
  | openFile opened => exact has.openFile opened
  | closeTab closed confirmed => exact has.closeTab notClosed
  | updateContent edited content => exact has.updateContent edited content
  | save saved manual => exact has.amends (amends_save ..)
  | reloadConflict key => exact has.alike (alike_refetch ..)
  | keepLocal key => exact has.alike (alike_refetch ..)
  | moveEntry source directory => exact has.alike (alike_moveEntry ..)
  | renameEntry key newName => exact has.alike (alike_renameEntry ..)
  | moveToTrash key => exact has.alike (alike_moveToTrash ..)
  | deleteEntry key => exact has.alike (alike_deleteEntry ..)
  | treeLoaded entries => exact has
  | reply index answer =>
    cases waiting : s.inFlight[index]? with
    | none => simpa only [Store.step,waiting] using has
    | some request =>
      have before : ({s with inFlight := s.inFlight.eraseIdx index} : Store).Has path := has
      simp only [Closes,waiting] at notClosed
      simp only [Store.step,waiting]
      cases request with
      | patch key sentVersion sentContent sentBase =>
        cases answer <;> first
          | exact before.amends (amends_patched ..)
          | exact before.amends (amends_patchFailed ..) | exact before
      | load key version =>
        cases answer <;> first | exact before.loaded .. | exact before.loadFailed .. | exact before
      | reload key version =>
        cases answer <;> first
          | exact before.reloaded .. | exact before.reloadFailed .. | exact before
      | keep key version =>
        cases answer <;> first
          | exact before.amends (amends_kept ..) | exact before.amends (amends_keepFailed ..)
          | exact before
      | move source destination =>
        cases answer <;> first | exact before.repoint _ notClosed | exact before
      | trash removed =>
        cases answer <;> first | exact before.closeTreePaths notClosed | exact before
      | delete removed =>
        cases answer <;> first | exact before.closeTreePaths notClosed | exact before

/-- The answer of a load that is no longer current changes no session and no tab. -/
theorem alike_stale {path : Path} {version : Version} (stale : s.isCurrent path version = false)
    (text : Option Text) (sha256 : Digest) : Alike (s.loaded path version text sha256) s := by
  have same : ({s with openRequests := Function.update s.openRequests path false} : Store).isCurrent
      path version = false := stale
  unfold Store.loaded
  simp only [same]
  exact ⟨rfl,rfl,rfl⟩

theorem Consistent.answered (consistent : s.Consistent) (request : Request) (answer : Answer) :
    (s.answered request answer).Consistent ↔ Finds s request answer := by
  have trivially : s.Consistent ↔ True := iff_true_intro consistent
  cases request with
  | patch path sentVersion sentContent sentBase =>
    cases answer with
    | patched sha256 => exact iff_true_intro (consistent.amends (amends_patched ..))
    | conflict => exact iff_true_intro (consistent.amends (amends_patchFailed ..))
    | failed => exact iff_true_intro (consistent.amends (amends_patchFailed ..))
    | _ => exact trivially
  | load path version =>
    cases answer with
    | file text sha256 => exact consistent.loaded path version text sha256
    | failed => exact iff_true_intro (consistent.loadFailed path version)
    | _ => exact trivially
  | reload path version =>
    cases answer with
    | file text sha256 => exact consistent.reloaded path version text sha256
    | failed => exact consistent.reloadFailed path version
    | _ => exact trivially
  | keep path version =>
    cases answer with
    | file text sha256 => exact iff_true_intro (consistent.amends (amends_kept ..))
    | failed => exact iff_true_intro (consistent.amends (amends_keepFailed ..))
    | _ => exact trivially
  | move source destination =>
    cases answer with
    | moved target => exact consistent.repoint source target.val
    | _ => exact trivially
  | trash removed =>
    cases answer with
    | trashed => exact iff_true_intro (consistent.closeTreePaths removed.property)
    | _ => exact trivially
  | delete path =>
    cases answer with
    | deleted removed => exact iff_true_intro (consistent.closeTreePaths removed.property)
    | _ => exact trivially

theorem step_reply {index : Nat} {request : Request} (waiting : s.inFlight[index]? = some request)
    (answer : Answer) : s.step (.reply index answer) =
      ({s with inFlight := s.inFlight.eraseIdx index} : Store).answered request answer := by
  simp only [step,waiting]

/-- A consistent store stays so in a step that finds what it needs. -/
theorem Consistent.step (consistent : s.Consistent) {o : Openings} {event : Event}
    (sound : Sound o s event) : (s.step event).Consistent := by
  cases event with
  | openFile path => exact (consistent.openFile path).mpr sound
  | closeTab path confirmed => exact consistent.closeTab path confirmed
  | updateContent path content => exact consistent.updateContent path content
  | save path manual => exact consistent.amends (amends_save ..)
  | reloadConflict path => exact consistent.alike (alike_refetch ..)
  | keepLocal path => exact consistent.alike (alike_refetch ..)
  | moveEntry source directory => exact consistent.alike (alike_moveEntry ..)
  | renameEntry path newName => exact consistent.alike (alike_renameEntry ..)
  | moveToTrash path => exact consistent.alike (alike_moveToTrash ..)
  | deleteEntry path => exact consistent.alike (alike_deleteEntry ..)
  | treeLoaded entries => exact consistent.congr rfl rfl rfl
  | reply index answer =>
    cases waiting : s.inFlight[index]? with
    | none => simpa only [Store.step,waiting] using consistent
    | some request =>
      rw [step_reply waiting]
      have before : ({s with inFlight := s.inFlight.eraseIdx index} : Store).Consistent :=
        consistent.congr rfl rfl rfl
      exact (before.answered request answer).mpr (sound request waiting).1

end Store

variable {o : Openings} {s : Store}

theorem Good.sound (good : Good o s) {event : Event}
    (after : Good (o.step s event) (s.step event)) : Sound o s event := by
  obtain ⟨consistent,-⟩ := good
  cases event with
  | openFile path => exact (consistent.openFile path).mp after.consistent
  | reply index answer =>
    intro request waiting
    have before : ({s with inFlight := s.inFlight.eraseIdx index} : Store).Consistent :=
      consistent.congr rfl rfl rfl
    have still := after.consistent
    rw [Store.step_reply waiting] at still
    refine ⟨(before.answered request answer).mp still,?_⟩
    cases request with
    | load path version =>
      cases answer with
      | file text sha256 =>
        intro stale awaited
        have closes : ¬ s.Closes path (.reply index (.file text sha256)) := by
          simp [Store.Closes,waiting]
        have opened := (after.opened path ⟨closes,Or.inr ⟨awaited,version,waiting⟩⟩).2
        rw [Store.step_reply waiting] at opened
        have late : ({s with inFlight := s.inFlight.eraseIdx index} : Store).isCurrent path
            version = false := stale
        exact (Store.alike_stale late text sha256).sessions ▸ opened
      | _ => trivial
    | _ => trivial
  | _ => trivial

theorem Good.step (good : Good o s) {event : Event} (sound : Sound o s event) :
    Good (o.step s event) (s.step event) := by
  refine ⟨good.consistent.step sound,?_⟩
  rintro path ⟨notClosed,arrived | ⟨awaited,loads⟩⟩
  · exact Store.Has.step (good.opened path arrived) notClosed
  · cases event with
    | reply index answer =>
      cases answer with
      | file text sha256 =>
        obtain ⟨version,waiting⟩ := loads
        obtain ⟨finds,overtaken⟩ := sound _ waiting
        have held : (s.sessions path).isSome → s.Has path := by
          intro some_
          obtain ⟨session,here⟩ := Option.isSome_iff_exists.mp some_
          exact ⟨(good.consistent.owned path session here).1,some_⟩
        cases current : s.isCurrent path version with
        | true =>
          rw [Store.step_reply waiting]
          have before : path ∈
            ({s with inFlight := s.inFlight.eraseIdx index} : Store).tabPaths := finds current
          have fresh : ({s with inFlight := s.inFlight.eraseIdx index} : Store).isCurrent path
              version = true := current
          exact Store.has_loaded fresh before text sha256
        | false =>
          rw [Store.step_reply waiting]
          have before : ({s with inFlight := s.inFlight.eraseIdx index} : Store).Has path :=
            held (overtaken current awaited)
          exact before.loaded path version text sha256
      | _ => exact loads.elim
    | _ => exact loads.elim

theorem good_step_iff (good : Good o s) (event : Event) :
    Good (o.step s event) (s.step event) ↔ Sound o s event :=
  ⟨good.sound,good.step⟩

/-- The openings and the store that a run of events reaches from an empty workspace. -/
def reached (events : List Event) : Openings × Store :=
  events.foldl (fun state event => (state.1.step state.2 event,state.2.step event)) ({},{})

theorem reached_append (events : List Event) (event : Event) : reached (events ++ [event]) =
    ((reached events).1.step (reached events).2 event,(reached events).2.step event) := by
  rw [reached,List.foldl_append]
  rfl

/-- Tabs and sessions are consistent in every state of a run. -/
def TabsConsistent (events : List Event) : Prop :=
  ∀ before after, events = before ++ after → Good (reached before).1 (reached before).2

theorem good_start : Good {} {} where
  consistent := {
    owned := nofun
    distinct := List.nodup_nil
    active := nofun }
  opened _ := False.elim

/-- A run is consistent throughout exactly if each of its events comes to a store that has
what the event needs. -/
theorem tabsConsistent_iff (events : List Event) : TabsConsistent events ↔
    ∀ before event after, events = before ++ event :: after →
      Sound (reached before).1 (reached before).2 event := by
  constructor
  · intro consistent before event after split
    have here := consistent before (event :: after) split
    have there := consistent (before ++ [event]) after (by rw [split,List.append_assoc]; rfl)
    rw [reached_append] at there
    exact (good_step_iff here event).mp there
  · intro sound before
    -- By induction on what was already run, from its end.
    induction before using List.reverseRecOn with
    | nil => exact fun _ _ => good_start
    | append_singleton before event ih =>
      intro after split
      rw [List.append_assoc] at split
      rw [reached_append]
      exact (good_step_iff (ih _ split) event).mpr (sound before event after split)

def closedWhileLoading : List Event :=
  [.openFile "a.md".toList,.closeTab "a.md".toList true,
    .reply 0 (.file (some "text".toList) (Sha256.hexdigest (encodeUtf8 "text".toList)))]

/-- The answer makes a session that no tab belongs to. -/
theorem closedWhileLoading_inconsistent : ¬ TabsConsistent closedWhileLoading := by
  intro consistent
  have good := consistent closedWhileLoading [] rfl
  have path : ((reached closedWhileLoading).2.sessions "a.md".toList).isSome = true := by
    decide +kernel
  obtain ⟨session,here⟩ := Option.isSome_iff_exists.mp path
  have tab := (good.consistent.owned _ _ here).1
  have none : (reached closedWhileLoading).2.tabPaths = [] := by decide +kernel
  rw [none] at tab
  cases tab

end LocalBook.Workspace
