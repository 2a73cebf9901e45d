import LocalBook.Server.Switching

/-! The settings file. It has the flat AI fields, the library once there is one, and the RAG settings
once they differ from the defaults; the rest comes from the environment again. -/
namespace LocalBook.Server

structure RagSettings where
  enabled : Bool := true
  embeddingProvider : Text := "hash".toList
  embeddingBaseUrl : Text := []
  embeddingModel : Text := "local-hash".toList
  embeddingApiKey : Text := []
  embeddingTimeoutSeconds : ℚ := 30
  embeddingBatchSize : Int := 32
  embeddingDimension : Int := 256
  embeddingVersion : Text := "v1".toList
  vectorMinScore : ℚ := 0
  chunkTargetTokens : Int := 800
  chunkMaxTokens : Int := 1200
  chunkOverlapTokens : Int := 100
  ftsTopK : Int := 30
  vectorTopK : Int := 30
  fusionTopK : Int := 20
  rerankTopK : Int := 10
  contextTopK : Int := 6
  rrfK : Int := 60
  linkRetrievalEnabled : Bool := false
  linkTopK : Int := 20
  wikilinkWeight : ℚ := 1
  backlinkWeight : ℚ := 4 / 5
  tagWeight : ℚ := 3 / 5
  graphWeight : ℚ := 2 / 5
  contextMaxTokens : Int := 4000
  contextMaxTokensPerDocument : Int := 1800
  contextMergeAdjacent : Bool := true
  contextMergeGapLines : Int := 5
  rerankerEnabled : Bool := false
  rerankerProvider : Text := "lexical".toList
  rerankerBaseUrl : Text := []
  rerankerModel : Text := []
  rerankerApiKey : Text := []
  rerankerTimeoutSeconds : ℚ := 30
  rerankerMinScore : ℚ := 0
  useEnvProxy : Bool := false
  indexOnStartup : Bool := false
  debounceSeconds : ℚ := 3 / 2
  requireCitation : Bool := true
  includeRetrievalDebug : Bool := false
deriving DecidableEq

namespace RagSettings

def between (low high value : Int) : Bool := low ≤ value && value ≤ high

def within (low high value : ℚ) : Bool := low ≤ value && value ≤ high

def inBounds (r : RagSettings) : Bool :=
  0 < r.embeddingTimeoutSeconds && r.embeddingTimeoutSeconds ≤ 600 &&
    between 1 512 r.embeddingBatchSize && between 0 8192 r.embeddingDimension &&
    within (-1) 1 r.vectorMinScore && between 50 8000 r.chunkTargetTokens &&
    between 50 16000 r.chunkMaxTokens && between 0 2000 r.chunkOverlapTokens &&
    between 1 200 r.ftsTopK && between 1 200 r.vectorTopK && between 1 200 r.fusionTopK &&
    between 1 200 r.rerankTopK && between 1 50 r.contextTopK && between 1 1000 r.rrfK &&
    between 1 200 r.linkTopK && within 0 5 r.wikilinkWeight && within 0 5 r.backlinkWeight &&
    within 0 5 r.tagWeight && within 0 5 r.graphWeight && between 200 64000 r.contextMaxTokens &&
    between 100 64000 r.contextMaxTokensPerDocument && between 0 100 r.contextMergeGapLines &&
    0 < r.rerankerTimeoutSeconds && r.rerankerTimeoutSeconds ≤ 600 &&
    within 0 1 r.rerankerMinScore && within 0 60 r.debounceSeconds &&
    r.chunkTargetTokens ≤ r.chunkMaxTokens

def embeddingProviders : List Text :=
  ["hash","openai_compatible","openai","none"].map String.toList

def rerankerProviders : List Text :=
  ["lexical","lexical_overlap","local","openai_compatible","openai","none"].map String.toList

variable [Host]

/-- `RagSettings(…)`. -/
def validate (r : RagSettings) : Option RagSettings :=
  let q := {r with
    embeddingProvider := Host.lower r.embeddingProvider.strip
    rerankerProvider := Host.lower r.rerankerProvider.strip}
  if q.embeddingProvider ∈ embeddingProviders ∧ q.rerankerProvider ∈ rerankerProviders ∧ q.inBounds
  then some q else none

end RagSettings

structure SavedProfile extends Route where
  id : Text
  name : Text

/-- The AI section of the file, with the library once there is one. -/
structure SavedAI where
  enabled : Bool
  baseUrl : Option Text
  apiKey : Option Text
  chatModel : Text
  library : Option (Text × List SavedProfile)

structure SavedSettings where
  revision : Int
  vaultRoot : Option Text
  ai : SavedAI
  rag : Option RagSettings

/-- What the environment variables say: the settings, and whether they name the Vault. -/
structure Environment where
  settings : Settings RagSettings
  vaultRoot : Option Text := none

def ProviderProfile.saved (p : ProviderProfile) : SavedProfile :=
  {p.toRoute with
    id := p.id
    name := p.name}

def SavedProfile.profile (p : SavedProfile) : ProviderProfile :=
  {p.toRoute with
    id := p.id
    name := p.name}

def AISettings.saved (ai : AISettings) : SavedAI where
  enabled := ai.enabled
  baseUrl := ai.baseUrl
  apiKey := ai.apiKey
  chatModel := ai.chatModel
  library :=
    if ai.profiles = [] then none
    else some (ai.activeProfileId,ai.profiles.map ProviderProfile.saved)

namespace ConfigRepository

/-- `save`. -/
def save (settings : Settings RagSettings) (revision : Int) : SavedSettings where
  revision := revision
  vaultRoot := settings.root
  ai := settings.ai.saved
  rag := if settings.rag = {} then none else some settings.rag

variable [Host] [UrlHost]

/-- `AISettings.model_validate` of values among which is the active profile id. -/
def validateAi (ai : AISettings) : Option AISettings :=
  let active := normalizeProfileId ai.activeProfileId
  match ai.profiles.mapM ProviderProfile.validate with
  | none => none
  | some profiles =>
    let result := {ai with
      apiKey := ai.apiKey.bind trimmed
      profiles
      activeProfileId := if active = [] then defaultProfileId else active}
    if ¬ result.inBounds ∨ maxAiProfiles < profiles.length then none
    else
      match profiles with
      | [] => some result
      | first :: _ =>
        if ¬ (profiles.map ProviderProfile.id).Nodup then none
        else
          match profiles.find? fun p => p.id = result.activeProfileId with
          | some p => some (result.project p)
          | none => some ({result with activeProfileId := first.id}.project first)

def mergeAi (env : AISettings) (saved : SavedAI) : AISettings :=
  {env with
    enabled := saved.enabled
    baseUrl := saved.baseUrl
    apiKey := saved.apiKey
    chatModel := saved.chatModel
    activeProfileId := (saved.library.map Prod.fst).getD env.activeProfileId
    profiles := (saved.library.map fun library => library.2.map SavedProfile.profile).getD env.profiles}

def loadAi (env : AISettings) (saved : SavedAI) : Option AISettings :=
  (validateAi (mergeAi env saved)).bind fun ai =>
    match validateEndpoint ai.baseUrl with
    | .ok baseUrl => some {ai with baseUrl}
    | .error _ => none

/-- `_load_rag`. -/
def loadRag (env : RagSettings) : Option RagSettings → RagSettings
  | none => env
  | some saved => saved.validate.getD env

/-- `load`; none if the file cannot be read. -/
def load (env : Environment) : Option SavedSettings → Option (Settings RagSettings × Int)
  | none => some (env.settings,1)
  | some saved =>
    (loadAi env.settings.ai saved.ai).map fun ai => ({
      ai
      rag := loadRag env.settings.rag saved.rag
      root := env.vaultRoot.or saved.vaultRoot},max 1 saved.revision)

end ConfigRepository

structure Desk where
  settings : Settings RagSettings
  revision : Int := 1
  file : Option SavedSettings := none

/-- A change of the settings, which the gate may refuse or the save may fail, a snapshot, or a
restart. -/
inductive DeskStep where
  | ai (change : AIChange) (refused : Bool)
  | rag (edit : RagSettings → RagSettings) (refused : Bool)
  | snapshot
  | restart

namespace Desk

variable [Host] [UrlHost] (env : Environment) (w : Desk)

def snapshot : Desk := {w with settings := {w.settings with ai := w.settings.ai.effective}}

def commit (settings : Settings RagSettings) : Desk :=
  ({
    settings
    revision := w.revision + 1
    file := some (ConfigRepository.save settings (w.revision + 1))} : Desk).snapshot

def step (w : Desk) : DeskStep → Desk
  | .ai change refused =>
    let touched := {w with settings := {w.settings with ai := change.touched w.settings.ai}}
    match change.compute w.settings.ai w.settings.ai with
    | .error _ => touched
    | .ok none => if refused then touched else touched.snapshot
    | .ok (some ai) => if refused then touched else touched.commit {w.settings with ai}
  | .rag edit refused =>
    match (edit w.settings.rag).validate with
    | none => w
    | some rag => if refused then w else w.commit {w.settings with rag}
  | .snapshot => w.snapshot
  | .restart =>
    match ConfigRepository.load env w.file with
    | some (settings,revision) => {w with settings,revision}
    | none => w

end Desk

section loading

variable [Host]

theorem normalize_default : normalizeProfileId defaultProfileId = defaultProfileId := by
  have ascii : defaultProfileId.strip.all Text.isAscii = true := by decide
  simp only [normalizeProfileId,Host.lower_ascii _ ascii]
  decide +kernel

theorem rag_validate_idem {r s : RagSettings} (valid : r.validate = some s) :
    s.validate = some s := by
  have plain : ∀ text ∈ RagSettings.embeddingProviders ++ RagSettings.rerankerProviders,
      Host.lower text.strip = text := by
    intro text member
    have fixed : ∀ text ∈ RagSettings.embeddingProviders ++ RagSettings.rerankerProviders,
        text.strip.all Text.isAscii = true ∧ text.strip.map Text.asciiLower = text := by decide
    rw [Host.lower_ascii _ (fixed text member).1]
    exact (fixed text member).2
  simp only [RagSettings.validate] at valid
  split at valid
  · rename_i good
    cases valid
    simp only [RagSettings.validate,plain _ (List.mem_append_left _ good.1),
      plain _ (List.mem_append_right _ good.2.1)]
    rw [if_pos good]
  · cases valid

structure Ordinary [UrlHost] (p : ProviderProfile) : Prop where
  valid : p.validate = some p
  endpoint : validateEndpoint p.baseUrl = .ok p.baseUrl
  builtin : p.builtin = false
  source : p.source = .settings
  fromEnv : p.fromEnv = false

theorem id_of_valid {p : ProviderProfile} (valid : p.validate = some p) :
    normalizeProfileId p.id = p.id ∧ p.id ≠ [] := by
  simp only [ProviderProfile.validate] at valid
  split at valid
  · rename_i good
    have same := congrArg ProviderProfile.id (Option.some.inj valid)
    exact ⟨same,fun empty => good.1 (same.trans empty)⟩
  · cases valid

omit [Host] in
theorem mapM_fixed {α : Type} {f : α → Option α} {l : List α} (fixed : ∀ a ∈ l,f a = some a) :
    l.mapM f = some l := by
  induction l with
  | nil => rfl
  | cons a rest ih =>
    simp [List.mapM_cons,fixed a List.mem_cons_self,
      ih fun b member => fixed b (List.mem_cons_of_mem _ member)]

variable [UrlHost]

structure Shelf (ai : AISettings) : Prop where
  filled : ai.profiles ≠ []
  distinct : (ai.profiles.map ProviderProfile.id).Nodup
  few : ai.profiles.length ≤ maxAiProfiles
  ordinary : ∀ p ∈ ai.profiles,Ordinary p
  active : ∃ p ∈ ai.profiles,p.id = ai.activeProfileId

/-- The settings of a single provider; what the file does not have is that of the environment. -/
structure Single (env ai : AISettings) : Prop where
  empty : env.profiles = []
  same : ai = {env with
    enabled := ai.enabled
    baseUrl := ai.baseUrl
    apiKey := ai.apiKey
    chatModel := ai.chatModel}
  synthesized : ∃ p,ai.synthesized = some p ∧ p.toRoute = ai.toRoute
  endpoint : validateEndpoint ai.baseUrl = .ok ai.baseUrl
  active : ai.activeProfileId = defaultProfileId

variable {env ai : AISettings}

theorem Shelf.find (shelf : Shelf ai) : ∃ p ∈ ai.profiles,
    ai.profiles.find? (fun item => item.id = ai.activeProfileId) = some p := by
  obtain ⟨p,member,active⟩ := shelf.active
  cases found : ai.profiles.find? fun item => item.id = ai.activeProfileId with
  | none => exact absurd active (by simpa using List.find?_eq_none.mp found p member)
  | some q => exact ⟨q,List.mem_of_find?_eq_some found,rfl⟩

theorem Shelf.effective (shelf : Shelf ai) : ∃ p ∈ ai.profiles,
    ai.profiles.find? (fun item => item.id = ai.activeProfileId) = some p ∧
      ai.effectiveProfile = some p ∧ ai.effective = ai.project p := by
  obtain ⟨p,member,found⟩ := shelf.find
  have effective := effectiveProfile_of_find found
  refine ⟨p,member,found,effective,?_⟩
  simp only [AISettings.effective,effective]

theorem Shelf.project (shelf : Shelf ai) (p : ProviderProfile) : Shelf (ai.project p) :=
  ⟨shelf.filled,shelf.distinct,shelf.few,shelf.ordinary,shelf.active⟩

theorem loadAi_shelf (bounds : env.inBounds = true) (shelf : Shelf ai) :
    ConfigRepository.loadAi env ai.saved = some ai.effective := by
  obtain ⟨p,member,found,-,effective⟩ := shelf.effective
  have carried : (ai.profiles.map ProviderProfile.saved).map SavedProfile.profile = ai.profiles := by
    rw [List.map_map]
    refine (List.map_congr_left fun q here => ?_).trans (List.map_id _)
    obtain ⟨-,-,builtin,source,fromEnv⟩ := shelf.ordinary q here
    obtain ⟨route,id,name,_,_,_⟩ := q
    simp only at builtin source fromEnv
    subst builtin source fromEnv
    rfl
  have named : p.id = ai.activeProfileId := by simpa using List.find?_some found
  obtain ⟨normal,some_⟩ := id_of_valid (shelf.ordinary p member).valid
  rw [named] at normal some_
  have valid : ai.profiles.mapM ProviderProfile.validate = some ai.profiles :=
    mapM_fixed fun q here => (shelf.ordinary q here).valid
  have few : ¬ maxAiProfiles < ai.profiles.length := Nat.not_lt.mpr shelf.few
  have distinct := shelf.distinct
  have merged : ConfigRepository.mergeAi env ai.saved = {env with
      enabled := ai.enabled
      baseUrl := ai.baseUrl
      apiKey := ai.apiKey
      chatModel := ai.chatModel
      activeProfileId := ai.activeProfileId
      profiles := ai.profiles} := by
    simp only [ConfigRepository.mergeAi,AISettings.saved,if_neg shelf.filled,Option.map_some,
      Option.getD_some,carried]
  have inside : Route.inBounds {env.toRoute with
      baseUrl := ai.baseUrl
      apiKey := ai.apiKey.bind trimmed
      chatModel := ai.chatModel} = true := bounds
  obtain ⟨first,rest,filled⟩ := List.exists_cons_of_ne_nil shelf.filled
  rw [filled] at found valid few distinct
  simp only [ConfigRepository.loadAi,ConfigRepository.validateAi,merged,normal,filled,valid,inside,
    few,if_neg some_,not_true_eq_false,or_self,if_false,distinct,found,Option.bind_some,
    AISettings.project,(shelf.ordinary p member).endpoint]
  rw [effective,AISettings.project,filled]

theorem loadAi_single (bounds : env.inBounds = true) (single : Single env ai) :
    ConfigRepository.loadAi env ai.saved = some ai := by
  obtain ⟨p,synthesized,route⟩ := single.synthesized
  have empty : ai.profiles = [] := by
    rw [single.same]
    exact single.empty
  have key : ai.apiKey.bind trimmed = ai.apiKey := by
    simp only [AISettings.synthesized,ProviderProfile.validate] at synthesized
    split at synthesized
    · have made := congrArg (fun q => q.toRoute.apiKey) (Option.some.inj synthesized)
      rw [route] at made
      exact made
    · cases synthesized
  have active : env.activeProfileId = defaultProfileId := by
    rw [← single.active,single.same]
  have inside : Route.inBounds {env.toRoute with
      baseUrl := ai.baseUrl
      apiKey := ai.apiKey
      chatModel := ai.chatModel} = true := bounds
  have some_ : defaultProfileId ≠ [] := by decide
  have few : ¬ maxAiProfiles < ([] : List ProviderProfile).length := by decide
  have stripped : (ai.apiKey.bind fun key => trimmed key) = ai.apiKey := key
  simp only [ConfigRepository.loadAi,ConfigRepository.validateAi,ConfigRepository.mergeAi,
    AISettings.saved,if_pos empty,Option.map_none,Option.getD_none,single.empty,List.mapM_nil,pure,
    inside,active,normalize_default,if_neg some_,few,not_true_eq_false,or_self,if_false,stripped,
    Option.bind_some,single.endpoint]
  refine congrArg some (Eq.trans ?_ single.same.symm)
  simp only [single.empty,active]

theorem Single.effective (single : Single env ai) : ai.effective = ai := by
  obtain ⟨p,synthesized,route⟩ := single.synthesized
  have empty : ai.profiles = [] := by
    rw [single.same]
    exact single.empty
  simp only [AISettings.effective,AISettings.effectiveProfile,empty,synthesized,AISettings.project,
    route]
  rw [← empty]

def Tidy (env ai : AISettings) : Prop := Shelf ai ∨ Single env ai

theorem loadAi_tidy (bounds : env.inBounds = true) (tidy : Tidy env ai) :
    ConfigRepository.loadAi env ai.saved = some ai.effective := by
  rcases tidy with shelf | single
  · exact loadAi_shelf bounds shelf
  · rw [single.effective]
    exact loadAi_single bounds single

theorem tidy_effective (tidy : Tidy env ai) : Tidy env ai.effective := by
  rcases tidy with shelf | single
  · obtain ⟨p,-,-,-,effective⟩ := shelf.effective
    rw [effective]
    exact .inl (shelf.project p)
  · rw [single.effective]
    exact .inr single

theorem effective_effective (tidy : Tidy env ai) : ai.effective.effective = ai.effective := by
  rcases tidy with shelf | single
  · obtain ⟨p,-,found,-,effective⟩ := shelf.effective
    have again : (ai.project p).effectiveProfile = some p := effectiveProfile_of_find found
    rw [effective,AISettings.effective,again]
    rfl
  · rw [single.effective,single.effective]

theorem applied_of_tidy (tidy : Tidy env ai) (same : ai.effective = ai) : Applied ai := by
  rcases tidy with shelf | single
  · obtain ⟨p,member,found,effective,projected⟩ := shelf.effective
    obtain ⟨q,there,active⟩ := shelf.active
    refine ⟨active_of_mem there active,p,effective,?_⟩
    rw [← same,projected]
    rfl
  · obtain ⟨p,synthesized,route⟩ := single.synthesized
    have empty : ai.profiles = [] := by
      rw [single.same]
      exact single.empty
    refine ⟨⟨[p],?_,p,List.mem_singleton_self p,?_⟩,p,?_,route⟩
    · simp only [AISettings.synthesizedProfiles,if_pos empty,synthesized,Option.map_some]
    · rw [synthesized_id synthesized,normalize_default,single.active]
    · simp only [AISettings.effectiveProfile,empty,synthesized]

omit [Host] in
theorem endpoint_again {value baseUrl : Option Text}
    (accepted : validateEndpoint value = .ok baseUrl) (formed : baseUrl.bind trimmedUrl = baseUrl) :
    validateEndpoint baseUrl = .ok baseUrl := by
  cases baseUrl with
  | none => rfl
  | some text =>
    simp only [validateEndpoint] at accepted
    split at accepted
    · cases accepted
    · split at accepted
      · rename_i good
        cases accepted
        simp only [validateEndpoint,formed,if_pos good]
      · cases accepted

omit [UrlHost] in
theorem url_of_valid {p q : ProviderProfile} (valid : p.validate = some q)
    (same : q.toRoute = p.toRoute) : p.baseUrl.bind trimmedUrl = p.baseUrl := by
  simp only [ProviderProfile.validate] at valid
  split at valid
  · have route := congrArg (fun q => q.toRoute.baseUrl) (Option.some.inj valid)
    rw [same] at route
    exact route
  · cases valid

theorem shelf_withProfile {new : AISettings} {p : ProviderProfile} {activate : Bool}
    (shelf : Shelf ai) (ordinary : Ordinary p)
    (room : p.id ∈ ai.profiles.map ProviderProfile.id ∨ ai.profiles.length < maxAiProfiles)
    (added : ai.withProfile p activate = some new) : Shelf new := by
  simp only [AISettings.withProfile,AISettings.ensureActiveProfile,if_neg shelf.filled,
    Option.map_some,Option.some.injEq] at added
  have profiles : new.profiles = (ai.profiles.filter fun item => item.id ≠ p.id) ++ [p] := by
    subst added
    split <;> rfl
  refine ⟨by simp [profiles],?_,?_,?_,?_⟩
  · rw [profiles,List.map_append,List.nodup_append]
    refine ⟨(List.filter_sublist.map _).nodup shelf.distinct,List.nodup_singleton _,?_⟩
    intro id old other here same
    obtain ⟨q,member,rfl⟩ := List.mem_map.mp old
    obtain ⟨r,single,rfl⟩ := List.mem_map.mp here
    obtain rfl := List.mem_singleton.mp single
    simpa [same] using (List.mem_filter.mp member).2
  · rw [profiles,List.length_append,List.length_singleton]
    rcases room with known | room
    · obtain ⟨q,member,same⟩ := List.mem_map.mp known
      have fewer : (ai.profiles.filter fun item => item.id ≠ p.id).length < ai.profiles.length :=
        List.length_filter_lt_length_iff_exists.mpr ⟨q,member,by simpa using same⟩
      have few := shelf.few
      omega
    · have fewer := List.length_filter_le (fun item : ProviderProfile => item.id ≠ p.id) ai.profiles
      omega
  · intro q member
    rw [profiles] at member
    rcases List.mem_append.mp member with old | here
    · exact shelf.ordinary q (List.mem_of_mem_filter old)
    · obtain rfl := List.mem_singleton.mp here
      exact ordinary
  · rw [profiles]
    subst added
    cases activate with
    | true => exact ⟨p,by simp,rfl⟩
    | false =>
      obtain ⟨q,member,active⟩ := shelf.active
      by_cases same : q.id = p.id
      · exact ⟨p,by simp,same.symm.trans active⟩
      · refine ⟨q,?_,active⟩
        simp [member,same]

theorem shelf_withoutProfile {new : AISettings} {id : Text} (shelf : Shelf ai)
    (other : id ≠ ai.activeProfileId) (removed : ai.withoutProfile id = some new) : Shelf new := by
  simp only [AISettings.withoutProfile,AISettings.ensureActiveProfile,if_neg shelf.filled,
    Option.map_some,if_neg other,Option.some.injEq] at removed
  subst removed
  obtain ⟨q,member,active⟩ := shelf.active
  have kept : q ∈ ai.profiles.filter fun item => item.id ≠ id := by
    refine List.mem_filter.mpr ⟨member,?_⟩
    simp only [decide_eq_true_eq]
    exact fun same => other (same.symm.trans active)
  exact ⟨List.ne_nil_of_mem kept,(List.filter_sublist.map _).nodup shelf.distinct,
    (List.length_filter_le _ _).trans shelf.few,
    fun p here => shelf.ordinary p (List.mem_of_mem_filter here),q,kept,active⟩

/-- What is submitted is in the form that the checks of a profile leave, and no library is made from
the flat fields. -/
def AIChange.Fits (ai : AISettings) : AIChange → Prop
  | .flat values => ∀ baseUrl,validateEndpoint values.baseUrl = .ok baseUrl →
      if ai.profiles = [] then
        ∃ q,AISettings.synthesized {ai with toRoute := {values with baseUrl}.on ai.toRoute} = some q ∧
          q.toRoute = {values with baseUrl}.on ai.toRoute
      else ∀ p ∈ ai.profiles,p.id = ai.activeProfileId →
        ProviderProfile.validate {p with toRoute := {values with baseUrl}.on ai.toRoute} =
          some {p with toRoute := {values with baseUrl}.on ai.toRoute}
  | .upsert payload _ => ai.profiles ≠ [] ∧ ∀ p,
      AIChange.profileFromPayload payload (ai.profiles.find? fun p => p.id = payload.id) = .ok p →
      p.validate = some p
  | _ => True

theorem ordinary_of_payload {payload : ProviderPayload} {existing : Option ProviderProfile}
    {p : ProviderProfile} (made : AIChange.profileFromPayload payload existing = .ok p)
    (old : ∀ q,existing = some q → Ordinary q) (valid : p.validate = some p) : Ordinary p := by
  have fields : (∃ value,validateEndpoint value = .ok p.baseUrl) ∧ p.builtin = false ∧
      p.source = .settings ∧ p.fromEnv = false := by
    simp only [AIChange.profileFromPayload,ProviderProfile.validate] at made
    split at made
    · cases made
    · rename_i profile formed
      split at formed
      · split at made
        · cases made
        · rename_i baseUrl accepted
          cases formed
          cases made
          refine ⟨⟨_,accepted⟩,?_,rfl,rfl⟩
          cases here : existing with
          | none => rfl
          | some q => exact (old q here).builtin
      · cases formed
  obtain ⟨⟨value,accepted⟩,builtin,source,fromEnv⟩ := fields
  exact ⟨valid,endpoint_again accepted (url_of_valid valid rfl),builtin,source,fromEnv⟩

theorem shelf_compute {new : AISettings} {change : AIChange} (shelf : Shelf ai)
    (same : ai.effective = ai) (fits : change.Fits ai)
    (computed : AIChange.compute ai ai change = .ok (some new)) : Shelf new := by
  have library : ai.synthesizedProfiles = some ai.profiles := if_neg shelf.filled
  have ensured : ai.ensureActiveProfile = some ai := if_neg shelf.filled
  cases change with
  | flat values =>
    obtain ⟨p,member,found,effective,projected⟩ := shelf.effective
    have route : p.toRoute = ai.toRoute := by
      rw [← same,projected]
      rfl
    simp only [AIChange.compute,same] at computed
    split at computed
    · cases computed
    · rename_i baseUrl accepted
      have made := orInternal_some computed
      simp only [AISettings.withFlatOverrides,effective,Option.bind_some,if_neg shelf.filled,found,
        route] at made
      have valid := fits baseUrl accepted
      rw [if_neg shelf.filled] at valid
      have named : p.id = ai.activeProfileId := by simpa using List.find?_some found
      have formed := valid p member named
      obtain ⟨-,-,builtin,source,fromEnv⟩ := shelf.ordinary p member
      have merged : Shelf {ai with
          toRoute := {values with baseUrl}.on ai.toRoute
          enabled := values.enabled} :=
        ⟨shelf.filled,shelf.distinct,shelf.few,shelf.ordinary,shelf.active⟩
      exact shelf_withProfile merged
        ⟨formed,endpoint_again accepted (url_of_valid formed rfl),builtin,source,fromEnv⟩
        (.inl (List.mem_map.mpr ⟨p,member,rfl⟩)) made
  | activate id =>
    simp only [AIChange.compute,AIChange.findProfile,library] at computed
    split at computed
    · cases computed
    · rename_i p found
      split at found
      · rename_i q here
        cases found
        have member := List.mem_of_find?_eq_some here
        split at computed
        · cases computed
        · exact shelf_withProfile shelf (shelf.ordinary p member)
            (.inl (List.mem_map_of_mem member)) (orInternal_some computed)
      · cases found
  | upsert payload activate =>
    simp only [AIChange.compute,library] at computed
    split at computed
    · cases computed
    · rename_i p made
      split at computed
      · cases computed
      · rename_i room
        have ordinary := ordinary_of_payload made
          (fun q here => shelf.ordinary q (List.mem_of_find?_eq_some here)) (fits.2 p made)
        apply shelf_withProfile shelf ordinary _ (orInternal_some computed)
        by_cases known : p.id ∈ ai.profiles.map ProviderProfile.id
        · exact .inl known
        · exact .inr (Nat.lt_of_not_le fun full => room ⟨shelf.filled,known,full⟩)
  | delete id =>
    simp only [AIChange.compute] at computed
    split at computed
    · cases computed
    · split at computed
      · cases computed
      · rename_i other
        split at computed
        · cases computed
        · exact shelf_withoutProfile shelf other (orInternal_some computed)

theorem single_compute {new : AISettings} {change : AIChange} (single : Single env ai)
    (fits : change.Fits ai) (computed : AIChange.compute ai ai change = .ok (some new)) :
    Single env new := by
  obtain ⟨p,synthesized,route⟩ := single.synthesized
  have empty : ai.profiles = [] := by
    rw [single.same]
    exact single.empty
  have library : ai.synthesizedProfiles = some [p] := by
    simp only [AISettings.synthesizedProfiles,if_pos empty,synthesized,Option.map_some]
  have active : p.id = ai.activeProfileId := by
    rw [synthesized_id synthesized,normalize_default,single.active]
  have only : ∀ id q,AIChange.findProfile ai id = .ok q → q.id = ai.activeProfileId := by
    intro id q found
    simp only [AIChange.findProfile,library] at found
    split at found
    · rename_i here
      cases found
      obtain rfl := List.mem_singleton.mp (List.mem_of_find?_eq_some here)
      exact active
    · cases found
  cases change with
  | flat values =>
    simp only [AIChange.compute,single.effective] at computed
    split at computed
    · cases computed
    · rename_i baseUrl accepted
      have made := orInternal_some computed
      have effective : ai.effectiveProfile = some p := by
        simp only [AISettings.effectiveProfile,empty,synthesized]
      simp only [AISettings.withFlatOverrides,effective,Option.bind_some,if_pos empty,route,
        Option.some.injEq] at made
      have formed := fits baseUrl accepted
      rw [if_pos empty] at formed
      obtain ⟨q,valid,kept⟩ := formed
      have url : baseUrl.bind trimmedUrl = baseUrl := by
        simp only [AISettings.synthesized] at valid
        exact url_of_valid valid kept
      subst made
      refine ⟨single.empty,?_,⟨q,valid,kept⟩,endpoint_again accepted url,single.active⟩
      rw [single.same]
      rfl
  | activate id =>
    simp only [AIChange.compute] at computed
    split at computed
    · cases computed
    · rename_i q found
      rw [if_pos (only id q found)] at computed
      cases computed
  | upsert payload activate => exact absurd empty fits.1
  | delete id =>
    simp only [AIChange.compute] at computed
    split at computed
    · cases computed
    · rename_i q found
      rw [if_pos (only id q found)] at computed
      cases computed

theorem tidy_compute {new : AISettings} {change : AIChange} (tidy : Tidy env ai)
    (same : ai.effective = ai) (fits : change.Fits ai)
    (computed : AIChange.compute ai ai change = .ok (some new)) : Tidy env new := by
  rcases tidy with shelf | single
  · exact .inl (shelf_compute shelf same fits computed)
  · exact .inr (single_compute single fits computed)

end loading

section steps

variable [Host] [UrlHost] {env : Environment} {w : Desk}

structure Fit (env : Environment) : Prop where
  bounds : env.settings.ai.inBounds = true
  rag : env.settings.rag.validate = some env.settings.rag
  ai : Tidy env.settings.ai env.settings.ai
  applied : env.settings.ai.effective = env.settings.ai
  root : ∀ root,env.vaultRoot = some root → env.settings.root = some root

structure Filed (env : Environment) (w : Desk) : Prop where
  rag : w.settings.rag.validate = some w.settings.rag
  default : w.settings.rag = {} → env.settings.rag = {}
  root : w.settings.root = env.settings.root
  tidy : Tidy env.settings.ai w.settings.ai
  applied : w.settings.ai.effective = w.settings.ai
  revision : 1 ≤ w.revision
  loads : ConfigRepository.load env w.file = some (w.settings,w.revision)

theorem filed_start (fit : Fit env) : Filed env {settings := env.settings} :=
  ⟨fit.rag,id,rfl,fit.ai,fit.applied,le_rfl,rfl⟩

theorem filed_commit {settings : Settings RagSettings} (fit : Fit env)
    (rag : settings.rag.validate = some settings.rag)
    (default : settings.rag = {} → env.settings.rag = {}) (root : settings.root = env.settings.root)
    (tidy : Tidy env.settings.ai settings.ai) (revision : 1 ≤ w.revision) :
    Filed env (w.commit settings) where
  rag := rag
  default := default
  root := root
  tidy := tidy_effective tidy
  applied := effective_effective tidy
  revision := by
    simp only [Desk.commit,Desk.snapshot]
    omega
  loads := by
    have named : env.vaultRoot.or settings.root = settings.root := by
      cases here : env.vaultRoot with
      | none => rfl
      | some name => rw [root,fit.root name here]; rfl
    have merged : ConfigRepository.loadRag env.settings.rag
        (if settings.rag = {} then none else some settings.rag) = settings.rag := by
      split
      · rename_i plain
        rw [plain]
        exact default plain
      · simp only [ConfigRepository.loadRag,rag,Option.getD_some]
    have newest : max 1 (w.revision + 1) = w.revision + 1 := by omega
    simp only [Desk.commit,Desk.snapshot,ConfigRepository.load,ConfigRepository.save,
      loadAi_tidy fit.bounds tidy,Option.map_some,merged,named,newest]

def Desk.Conforms (env : Environment) (w : Desk) : DeskStep → Prop
  | .ai change _ => change.Fits w.settings.ai
  | .rag edit _ => (edit w.settings.rag).validate = some {} → env.settings.rag = {}
  | .snapshot => True
  | .restart => True

def Desk.run (env : Environment) (steps : List DeskStep) (w : Desk) : Desk :=
  steps.foldl (Desk.step env) w

def Desk.Conforming (env : Environment) : List DeskStep → Desk → Prop
  | [],_ => True
  | s :: rest,w => w.Conforms env s ∧ Desk.Conforming env rest (w.step env s)

theorem snapshot_of_applied (applied : w.settings.ai.effective = w.settings.ai) :
    w.snapshot = w := by
  simp only [Desk.snapshot,applied]

theorem filed_step {s : DeskStep} (fit : Fit env) (filed : Filed env w) (conforms : w.Conforms env s) :
    Filed env (w.step env s) := by
  cases s with
  | ai change refused =>
    have touched : change.touched w.settings.ai = w.settings.ai := by
      cases change with
      | flat values =>
        simp only [AIChange.touched]
        split
        · rfl
        · exact filed.applied
      | activate => rfl
      | upsert => rfl
      | delete => rfl
    simp only [Desk.step,touched]
    cases computed : change.compute w.settings.ai w.settings.ai with
    | error reason => exact filed
    | ok made =>
      cases made with
      | none =>
        dsimp only
        rw [snapshot_of_applied filed.applied,ite_self]
        exact filed
      | some new =>
        cases refused with
        | true => exact filed
        | false =>
          exact filed_commit fit filed.rag filed.default filed.root
            (tidy_compute filed.tidy filed.applied conforms computed) filed.revision
  | rag edit refused =>
    simp only [Desk.step]
    cases valid : (edit w.settings.rag).validate with
    | none => exact filed
    | some rag =>
      cases refused with
      | true => exact filed
      | false =>
        refine filed_commit fit (rag_validate_idem valid) ?_ filed.root filed.tidy filed.revision
        rintro rfl
        exact conforms valid
  | snapshot =>
    simp only [Desk.step,snapshot_of_applied filed.applied]
    exact filed
  | restart =>
    simp only [Desk.step,filed.loads]
    exact filed

theorem filed_run {steps : List DeskStep} (fit : Fit env) (filed : Filed env w)
    (conforming : Desk.Conforming env steps w) : Filed env (w.run env steps) := by
  induction steps generalizing w with
  | nil => exact filed
  | cons s rest ih => exact ih (filed_step fit filed conforming.1) conforming.2

/-- The settings in force agree with the library, with a snapshot and with the file. -/
structure Lasting (env : Environment) (w : Desk) : Prop where
  distinct : (w.settings.ai.profiles.map ProviderProfile.id).Nodup
  applied : Applied w.settings.ai
  snapshot : w.snapshot = w
  loads : ConfigRepository.load env w.file = some (w.settings,w.revision)

/-- In every state of a conforming run the settings are consistent, and a restart gives them
back. -/
theorem lasting_run {steps : List DeskStep} (fit : Fit env)
    (conforming : Desk.Conforming env steps {settings := env.settings}) :
    Lasting env (Desk.run env steps {settings := env.settings}) := by
  have filed := filed_run fit (filed_start fit) conforming
  refine ⟨?_,applied_of_tidy filed.tidy filed.applied,snapshot_of_applied filed.applied,filed.loads⟩
  rcases filed.tidy with shelf | single
  · exact shelf.distinct
  · have empty := single.empty
    rw [single.same,empty]
    exact List.nodup_nil

end steps

section files

open scoped AsciiHost PlainUrls

def bareEnvironment : Environment where
  settings := {
    ai := {localRoute with}
    rag := {}}

theorem fit_bareEnvironment : Fit bareEnvironment where
  bounds := by decide +kernel
  rag := by decide +kernel
  ai := .inr {
    empty := rfl
    same := rfl
    synthesized := ⟨{localRoute with
      id := defaultProfileId
      name := "Local AI".toList
      builtin := true
      source := .default},by decide +kernel,rfl⟩
    endpoint := rfl
    active := rfl}
  applied := by decide +kernel
  root := nofun

def plainChanges : List DeskStep :=
  [.ai (.flat ⟨true,none,none,"qwen".toList⟩) false,.rag (fun r => {r with enabled := false}) false,
    .restart]

theorem plainChanges_lasting :
    Lasting bareEnvironment (Desk.run bareEnvironment plainChanges
      {settings := bareEnvironment.settings}) := by
  apply lasting_run fit_bareEnvironment
  refine ⟨fun baseUrl accepted => ?_,fun plain => ?_,trivial,trivial⟩
  · obtain rfl : none = baseUrl := Except.ok.inj accepted
    split
    · exact ⟨{localRoute with
        id := defaultProfileId
        name := "qwen".toList
        chatModel := "qwen".toList
        builtin := true
        source := .default},by decide +kernel,rfl⟩
    · rename_i filled
      exact absurd rfl filled
  · rfl

def quietEnvironment : Environment where
  settings := {
    ai := {localRoute with}
    rag := {enabled := false}}

/-- RAG is switched on, which leaves nothing to write to the file, and is off after a restart. -/
theorem quietEnvironment_forgets :
    ¬ Lasting quietEnvironment (Desk.run quietEnvironment
      [.rag (fun r => {r with enabled := true}) false] {settings := quietEnvironment.settings}) := by
  intro lasting
  have forgotten := congrArg (Option.map fun loaded => loaded.1.rag.enabled) lasting.loads
  revert forgotten
  decide +kernel

end files

end LocalBook.Server
