import LocalBook.Server.Admission

/-! The settings of one server. The flat fields of the AI settings are the ones in force; the
library keeps a route for each provider, and one of them is active. -/
namespace LocalBook.Server

/-- `urlsplit`, of which an endpoint asks two things. -/
class UrlHost where
  /-- An HTTP(S) URL with a host name and without credentials, query or fragment. -/
  acceptable : Text → Bool
  netloc : Text → Text

namespace PlainUrls

scoped instance urls : UrlHost := ⟨fun _ => true,id⟩

end PlainUrls

inductive ProviderKind where
  | omlx
  | openai
  | openaiCompatible
  | custom
deriving DecidableEq

inductive ProfileSource where
  | settings
  | env
  | default
deriving DecidableEq

/-- What a profile carries and the flat fields mirror; floats are given by their values. -/
structure Route where
  kind : ProviderKind
  baseUrl : Option Text
  apiKey : Option Text := none
  chatModel : Text := "auto".toList
  temperature : ℚ := 1 / 10
  maxOutputTokens : Int := 1200
  requestTimeoutSeconds : ℚ := 60
  connectTimeoutSeconds : ℚ := 1 / 2
  maxModelsResponseBytes : Int := 1000000
deriving DecidableEq

structure ProviderProfile extends Route where
  id : Text
  name : Text := []
  builtin : Bool := false
  source : ProfileSource := .settings
  fromEnv : Bool := false
deriving DecidableEq

def defaultProfileId : Text := "default".toList

def maxAiProfiles : Nat := 30

structure AISettings extends Route where
  enabled : Bool := true
  profiles : List ProviderProfile := []
  activeProfileId : Text := defaultProfileId
deriving DecidableEq

section validation

variable [Host]

/-- `text.split()`. -/
def words (text : Text) : List Text := (text.splitOnP Text.isSpace).filter fun word => word ≠ []

/-- `[a-z0-9][a-z0-9._-]{0,63}`. -/
def isSlug (text : Text) : Bool :=
  let letter (c : Char) : Bool := ('a' ≤ c && c ≤ 'z') || ('0' ≤ c && c ≤ '9')
  match text with
  | [] => false
  | first :: rest =>
    letter first && rest.length ≤ 63 && rest.all fun c => letter c || c = '.' || c = '_' || c = '-'

/-- `_normalize_profile_id`. -/
def normalizeProfileId (value : Text) : Text :=
  let text := Text.join ['-'] (words (Host.lower value.strip))
  if isSlug text then text else []

/-- `value.strip() or None`. -/
def trimmed (value : Text) : Option Text := if value.strip = [] then none else some value.strip

/-- `value.strip().rstrip("/") or None`. -/
def trimmedUrl (value : Text) : Option Text :=
  let text := Text.rstripBy (· = '/') value.strip
  if text = [] then none else some text

def Route.inBounds (r : Route) : Bool :=
  0 ≤ r.temperature && r.temperature ≤ 1 && 64 ≤ r.maxOutputTokens && r.maxOutputTokens ≤ 8192 &&
    0 < r.requestTimeoutSeconds && r.requestTimeoutSeconds ≤ 120 &&
    0 < r.connectTimeoutSeconds && r.connectTimeoutSeconds ≤ 10 && 0 < r.maxModelsResponseBytes

/-- `ProviderProfile(…)`: the validators of the fields and their bounds. -/
def ProviderProfile.validate (p : ProviderProfile) : Option ProviderProfile :=
  let q : ProviderProfile := {p with
    id := normalizeProfileId p.id
    name := p.name.strip
    baseUrl := p.baseUrl.bind trimmedUrl
    apiKey := p.apiKey.bind trimmed
    chatModel := p.chatModel.strip}
  if q.id ≠ [] ∧ q.name.length ≤ 64 ∧ (q.baseUrl.getD []).length ≤ 4096 ∧
      (q.apiKey.getD []).length ≤ 4096 ∧ q.chatModel ≠ [] ∧ q.chatModel.length ≤ 256 ∧
      q.inBounds then some q else none

variable [UrlHost]

/-- `validate_endpoint`. -/
def validateEndpoint (value : Option Text) : Except SettingsError (Option Text) :=
  match value.bind trimmedUrl with
  | none => .ok none
  | some text =>
    if UrlHost.acceptable text then .ok (some text)
    else .error {
      code := "invalid_ai_endpoint"
      message := "Use an HTTP(S) service URL without credentials or query parameters."
      status := 422}

/-- `_default_profile_name`. -/
def defaultProfileName (baseUrl : Option Text) (chatModel : Text) : Text :=
  match baseUrl with
  | some url =>
    if url = [] then if chatModel ≠ [] ∧ chatModel ≠ "auto".toList then chatModel
      else "Local AI".toList
    else if UrlHost.netloc url = [] then url else UrlHost.netloc url
  | none =>
    if chatModel ≠ [] ∧ chatModel ≠ "auto".toList then chatModel else "Local AI".toList

end validation

namespace AISettings

variable (ai : AISettings)

/-- `_project`. -/
def project (p : ProviderProfile) : AISettings := {ai with toRoute := p.toRoute}

section library

variable [Host] [UrlHost]

def synthesized : Option ProviderProfile :=
  ProviderProfile.validate {ai.toRoute with
    id := defaultProfileId
    name := defaultProfileName ai.baseUrl ai.chatModel
    builtin := true
    source := .default}

def synthesizedProfiles : Option (List ProviderProfile) :=
  if ai.profiles = [] then ai.synthesized.map fun p => [p] else some ai.profiles

/-- The profile that `effective_profile` finds. -/
def effectiveProfile : Option ProviderProfile :=
  match ai.profiles with
  | [] => ai.synthesized
  | first :: rest =>
    some (((first :: rest).find? fun p => p.id = ai.activeProfileId).getD first)

/-- The settings that `effective_profile` leaves. -/
def effective : AISettings :=
  match ai.effectiveProfile with
  | some p => ai.project p
  | none => ai

/-- `ensure_active_profile`. -/
def ensureActiveProfile : Option AISettings :=
  if ai.profiles = [] then
    ai.synthesized.map fun p => {ai with
      profiles := [{p with source := .settings}]
      activeProfileId := p.id}
  else some ai

def withProfile (p : ProviderProfile) (activate : Bool) : Option AISettings :=
  ai.ensureActiveProfile.map fun updated =>
    let updated := {updated with
      profiles := (updated.profiles.filter fun item => item.id ≠ p.id) ++ [p]}
    if activate then {updated with activeProfileId := p.id}.project p else updated

def withoutProfile (id : Text) : Option AISettings :=
  ai.ensureActiveProfile.map fun updated =>
    let profiles := updated.profiles.filter fun item => item.id ≠ id
    {updated with
      profiles
      activeProfileId :=
        if id = updated.activeProfileId then
          (profiles.head?.map ProviderProfile.id).getD updated.activeProfileId
        else updated.activeProfileId}

/-- What the settings page submits; an absent key keeps the stored one. -/
structure FlatValues where
  enabled : Bool
  baseUrl : Option Text
  apiKey : Option Text
  chatModel : Text
deriving DecidableEq

def FlatValues.on (v : FlatValues) (r : Route) : Route :=
  {r with
    baseUrl := v.baseUrl
    apiKey := match v.apiKey with
      | none => r.apiKey
      | some key => if key.strip = [] then none else some key
    chatModel := v.chatModel}

/-- `with_flat_overrides`, on settings that `effective_profile` has projected. -/
def withFlatOverrides (v : FlatValues) : Option AISettings :=
  ai.effectiveProfile.bind fun p =>
    let merged := {ai with
      toRoute := v.on p.toRoute
      enabled := v.enabled}
    if ai.profiles = [] then some merged
    else
      (ai.profiles.find? fun item => item.id = ai.activeProfileId).bind fun active =>
        merged.withProfile {active with toRoute := v.on p.toRoute} true

end library

end AISettings

/-- What a page submits for a profile, after the checks of the request; what it leaves out is taken
from the stored one. -/
structure ProviderPayload where
  id : Text
  name : Option Text := none
  kind : Option ProviderKind := none
  baseUrl : Option (Option Text) := none
  apiKey : Option Text := none
  chatModel : Option Text := none
  temperature : Option ℚ := none
  maxOutputTokens : Option Int := none
  requestTimeoutSeconds : Option ℚ := none
  connectTimeoutSeconds : Option ℚ := none
  maxModelsResponseBytes : Option Int := none
deriving DecidableEq

inductive AIChange where
  | flat (values : AISettings.FlatValues)
  | activate (id : Text)
  | upsert (payload : ProviderPayload) (activate : Bool)
  | delete (id : Text)
deriving DecidableEq

namespace AIChange

variable [Host] [UrlHost]

def blankProfile (id : Text) : ProviderProfile :=
  {id,kind := .openaiCompatible,baseUrl := none}

/-- `_profile_from_payload`. -/
def profileFromPayload (payload : ProviderPayload) (existing : Option ProviderProfile) :
    Except SettingsError ProviderProfile :=
  let base := existing.getD (blankProfile payload.id)
  let values : ProviderProfile := {
    id := payload.id
    name := payload.name.getD base.name
    kind := payload.kind.getD base.kind
    baseUrl := payload.baseUrl.getD base.baseUrl
    apiKey := payload.apiKey.or base.apiKey
    chatModel := payload.chatModel.getD base.chatModel
    temperature := payload.temperature.getD base.temperature
    maxOutputTokens := payload.maxOutputTokens.getD base.maxOutputTokens
    requestTimeoutSeconds := payload.requestTimeoutSeconds.getD base.requestTimeoutSeconds
    connectTimeoutSeconds := payload.connectTimeoutSeconds.getD base.connectTimeoutSeconds
    maxModelsResponseBytes := payload.maxModelsResponseBytes.getD base.maxModelsResponseBytes}
  match values.validate with
  | none => .error ⟨"validation_error","Unprocessable request.",422⟩
  | some profile =>
    match validateEndpoint profile.baseUrl with
    | .error reason => .error reason
    | .ok baseUrl =>
      .ok {profile with
        baseUrl
        builtin := (existing.map ProviderProfile.builtin).getD false}

def internalError : SettingsError := ⟨"internal_error","Internal Server Error",500⟩

def orInternal {α : Type} : Option α → Except SettingsError α
  | some value => .ok value
  | none => .error internalError

def notFound : SettingsError :=
  ⟨"ai_profile_not_found","That AI provider profile no longer exists. Reload the settings.",404⟩

/-- `_find_profile`. -/
def findProfile (ai : AISettings) (id : Text) : Except SettingsError ProviderProfile :=
  match ai.synthesizedProfiles with
  | none => .error internalError
  | some profiles =>
    match profiles.find? fun p => p.id = id with
    | some p => .ok p
    | none => .error notFound

/-- What becomes of the AI settings: the new ones, or none where the profile is in force already.
`seen` are the settings that the route has read, `ai` those that the runtime reads. -/
def compute (seen ai : AISettings) : AIChange → Except SettingsError (Option AISettings)
  | .flat values =>
    match validateEndpoint values.baseUrl with
    | .error reason => .error reason
    | .ok baseUrl => orInternal ((ai.effective.withFlatOverrides {values with baseUrl}).map some)
  | .activate id =>
    match findProfile ai id with
    | .error reason => .error reason
    | .ok p =>
      if p.id = ai.activeProfileId then .ok none else orInternal ((ai.withProfile p true).map some)
  | .upsert payload applied =>
    match seen.synthesizedProfiles,ai.synthesizedProfiles with
    | some before,some profiles =>
      match profileFromPayload payload (before.find? fun p => p.id = payload.id) with
      | .error reason => .error reason
      | .ok p =>
        if ai.profiles ≠ [] ∧ p.id ∉ profiles.map ProviderProfile.id ∧
            maxAiProfiles ≤ ai.profiles.length then
          .error {
            code := "ai_profiles_full"
            message := "At most 30 AI provider profiles are supported."
            status := 422}
        else orInternal ((ai.withProfile p applied).map some)
    | _,_ => .error internalError
  | .delete id =>
    match findProfile ai id with
    | .error reason => .error reason
    | .ok p =>
      if p.id = ai.activeProfileId then
        .error {
          code := "ai_profile_active"
          message := "Switch to another provider before deleting the active profile."}
      else if (ai.synthesizedProfiles.getD []).length ≤ 1 then
        .error ⟨"ai_profile_last","The last AI provider profile cannot be deleted.",409⟩
      else orInternal ((ai.withoutProfile p.id).map some)

def touched (ai : AISettings) : AIChange → AISettings
  | .flat values =>
    match validateEndpoint values.baseUrl with
    | .error _ => ai
    | .ok _ => ai.effective
  | _ => ai

end AIChange

end LocalBook.Server
