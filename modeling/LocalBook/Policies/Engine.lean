import LocalBook.Actions.Schemas

/-! The policy engine: the deny rules come first, then the confirmation level 1 asks for, then
the tag actions that level 2 carries out by itself. The texts of the reasons are left out. -/
namespace LocalBook.Policies

inductive PolicyDecision where
  | allow
  | deny
  | confirm
deriving Repr,DecidableEq

structure ActionFacts where
  existing : Bool := true
  isProtected : Bool := false
  overwrite : Bool := false
  fileCount : Nat := 1
  modifiedChars : Nat := 0
  scope : String := "single-file"
  targetExists : Bool := false
  attachment : Bool := false
  markdown : Bool := true
  recursive : Bool := false
  allowlistedTarget : Bool := true
  bodyChange : Bool := false
  duplicateTags : Bool := false
  tagsPresent : Bool := true
  linkTargetExists : Bool := true
deriving DecidableEq

/-- The verdict on one action; the one on a set has no action type. -/
structure PolicyResult where
  decision : PolicyDecision
  level : Nat
  actionType : Option ActionType
  matchedRules : List String := []
deriving DecidableEq

structure PolicySetResult where
  decision : PolicyDecision
  actionResults : List PolicyResult := []
  matchedRules : List String := []
deriving DecidableEq

/-- `AUTO_ACTIONS`. -/
def autoActions : List ActionType := [.addTags,.removeTags]

/-- `MIN_LEVEL_BY_ACTION`. -/
def minLevelByAction : ActionType → Option Nat := fun _ => some 1

def defaultProtectedPrefixes : List Text := [".localnote".toList]

/-- `max(low, min(int(value), high))`. -/
def clamp (low high : Nat) (value : Int) : Nat := max low (min value.toNat high)

structure PolicyLimits where
  maxActions : Int := 20
  maxFiles : Int := 10
  maxModifiedChars : Int := 20000
  maxLevel2ModifiedChars : Int := 2000
  level2MaxFiles : Int := 1
  level2AutoActions : List ActionType := []
  protectedPrefixes : List Text := defaultProtectedPrefixes

structure PolicyEngine where
  maxActions : Nat
  maxFiles : Nat
  maxModifiedChars : Nat
  maxLevel2ModifiedChars : Nat
  level2MaxFiles : Nat
  level2AutoActions : List ActionType
  protectedPrefixes : List Text
  tagsOnly : ∀ kind ∈ level2AutoActions, kind ∈ autoActions

/-- `PolicyEngine.__init__`. -/
def PolicyEngine.init (limits : PolicyLimits) : PolicyEngine :=
  let maxFiles := clamp 1 10 limits.maxFiles
  {maxActions := clamp 1 20 limits.maxActions
   maxFiles
   maxModifiedChars := clamp 0 20000 limits.maxModifiedChars
   maxLevel2ModifiedChars := clamp 0 2000 limits.maxLevel2ModifiedChars
   -- bounded by the files of any job, not by the one file of a level-2 job
   level2MaxFiles := clamp 1 maxFiles limits.level2MaxFiles
   level2AutoActions := limits.level2AutoActions.filter (· ∈ autoActions)
   protectedPrefixes := if limits.protectedPrefixes = [] then defaultProtectedPrefixes
    else limits.protectedPrefixes
   tagsOnly := fun _ found => by simpa using (List.mem_filter.mp found).2}

/-- `_deny`. -/
def PolicyResult.deny (result : PolicyResult) (rule : String) : PolicyResult := {result with
  decision := .deny
  matchedRules := if rule ∈ result.matchedRules then result.matchedRules
    else result.matchedRules ++ [rule]}

/-- One `if … : _deny(…)`. -/
def PolicyResult.check (result : PolicyResult) (rule : Bool × String) : PolicyResult :=
  if rule.1 then result.deny rule.2 else result

def isProtected [Host] (prefixes : List Text) (path : Text) : Bool :=
  let lowered := Host.casefold path
  prefixes.any fun start => lowered = start || Text.startsWith lowered (start ++ ['/'])

/-- `mutating_existing`. -/
def mutatesExisting (kind : ActionType) : Bool := kind ≠ .createNote

/-- `_mutated_paths`. -/
def mutatedPaths (action : Action) : List Text :=
  if action.action = .moveNote ∧ !falsy action.targetFile ∧ action.targetFile ≠ some action.file
  then [action.file,action.targetFile.getD []] else [action.file]

/-- `_conflicting_paths`, without the order they are listed in. -/
def conflictingPaths (actions : List Action) : List Text :=
  let paths := actions.flatMap mutatedPaths
  paths.filter fun path => 1 < paths.count path

namespace PolicyEngine

variable [Host] (engine : PolicyEngine)

def denyRules (action : Action) (facts : ActionFacts) (level : Nat) : List (Bool × String) :=
  let kind := action.action
  let budget := if level = 2 then engine.maxLevel2ModifiedChars else engine.maxModifiedChars
  [(level ∉ [0,1,2],"invalid_level"),
   (level < (minLevelByAction kind).getD 1,"level_too_low"),
   (facts.isProtected || isProtected engine.protectedPrefixes action.file ||
      (!falsy action.targetFile &&
        isProtected engine.protectedPrefixes (action.targetFile.getD [])),"protected_path"),
   (facts.recursive,"recursive_operation"),
   (facts.scope ≠ "single-file","multi_file_scope"),
   (engine.maxFiles < facts.fileCount,"file_count_budget"),
   (facts.attachment,"attachment_write"),
   (!facts.markdown,"markdown_required"),
   (!facts.allowlistedTarget,"target_not_allowlisted"),
   (facts.overwrite,"overwrite_denied"),
   (mutatesExisting kind && !facts.existing,"missing_file"),
   (kind = .createNote && facts.existing,"create_existing"),
   (kind = .moveNote && falsy action.targetFile,"missing_target"),
   (kind = .moveNote && facts.targetExists,"move_overwrite"),
   ((kind = .patchNote || kind = .moveNote) && falsy action.expectedSha256,
      "expected_hash_required"),
   (kind = .addLink && !facts.linkTargetExists,"broken_link_target"),
   (kind = .removeTags && !facts.tagsPresent,"unknown_tag_remove"),
   (kind = .addTags && facts.duplicateTags,"duplicate_tag_add"),
   (budget < facts.modifiedChars,"character_budget"),
   (level = 2 && facts.bodyChange,"level2_body_change")]

/-- `_evaluate_deny_rules`. -/
def evaluateDenyRules (action : Action) (facts : ActionFacts) (level : Nat)
    (result : PolicyResult) : PolicyResult :=
  if action.action ∉ autoActions ∧ minLevelByAction action.action = none then
    result.deny "action_not_allowed"
  else (engine.denyRules action facts level).foldl PolicyResult.check result

omit [Host] in
/-- `_evaluate_level2`. -/
def evaluateLevel2 (action : Action) (facts : ActionFacts) (result : PolicyResult) :
    PolicyResult :=
  if action.action ∉ engine.level2AutoActions then result.deny "level2_disallowed_action"
  else if !facts.existing || facts.overwrite || facts.isProtected then result
  else if engine.level2MaxFiles < facts.fileCount ∨ facts.scope ≠ "single-file" then
    result.deny "level2_file_budget"
  else if facts.bodyChange ∨ engine.maxLevel2ModifiedChars < facts.modifiedChars then result
  else {result with decision := .allow,matchedRules := ["level2_allow"]}

def evaluate (action : Action) (facts : ActionFacts) (level : Nat) : PolicyResult :=
  let result := engine.evaluateDenyRules action facts level
    {decision := .confirm,level,actionType := some action.action}
  if result.decision = .deny then result
  else if level = 0 then result.deny "readonly_mutation"
  else if level = 1 then
    {result with matchedRules := result.matchedRules ++ ["level1_requires_confirmation"]}
  else engine.evaluateLevel2 action facts result

omit [Host] in
def factList (actions : List Action) (facts : List ActionFacts) : List ActionFacts :=
  if facts.length = actions.length then facts
  else (facts ++ List.replicate actions.length ({} : ActionFacts)).take actions.length

def deniedSet (level : Nat) (results : List PolicyResult) (rule : String) : PolicySetResult where
  decision := .deny
  actionResults := results ++ [{
    decision := .deny,level := if level = 0 then 1 else level,actionType := none
    matchedRules := [rule]}]
  matchedRules := [rule]

/-- `matched.extend(…)` for every result. -/
def mergedRules (first : String) (results : List PolicyResult) : List String :=
  results.foldl (fun matched item =>
    matched ++ item.matchedRules.filter fun rule => rule ∉ matched) [first]

def evaluateSet (actions : List Action) (facts : List ActionFacts) (level : Nat) :
    PolicySetResult :=
  if actions = [] ∨ engine.maxActions < actions.length then
    {decision := .deny,matchedRules := ["action_budget"]}
  else if conflictingPaths actions ≠ [] then deniedSet level [] "conflicting_actions"
  else
    let facts := factList actions facts
    let results := (actions.zip facts).map fun item => engine.evaluate item.1 item.2 level
    if engine.maxModifiedChars < (facts.map ActionFacts.modifiedChars).sum then
      deniedSet level results "character_budget"
    else if results.any fun item => item.decision = .deny then
      ⟨.deny,results,mergedRules "deny_precedence" results⟩
    else if results.any fun item => item.decision = .confirm then
      ⟨.confirm,results,mergedRules "level1_requires_confirmation" results⟩
    else ⟨.allow,results,mergedRules "all_actions_allowed" results⟩

end PolicyEngine

section Denying

variable (result : PolicyResult)

theorem check_decision (rule : Bool × String) :
    (result.check rule).decision = .deny ↔ rule.1 = true ∨ result.decision = .deny := by
  unfold PolicyResult.check
  split
  · simp_all [PolicyResult.deny]
  · simp_all

/-- A result is denied when it was before or when a rule applies. -/
theorem checked_decision (rules : List (Bool × String)) :
    (rules.foldl PolicyResult.check result).decision = .deny ↔
      (∃ rule ∈ rules, rule.1 = true) ∨ result.decision = .deny := by
  induction rules generalizing result with
  | nil => simp
  | cons rule rules ih =>
    rw [List.foldl_cons,ih,check_decision]
    simp only [List.mem_cons,exists_eq_or_imp]
    rw [or_left_comm,or_assoc]

variable {result} in
theorem checked_kept (rules : List (Bool × String))
    (passed : (rules.foldl PolicyResult.check result).decision ≠ .deny) :
    rules.foldl PolicyResult.check result = result := by
  induction rules generalizing result with
  | nil => rfl
  | cons rule rules ih =>
    have unmet : rule.1 ≠ true := fun applies =>
      passed ((checked_decision _ (rule :: rules)).mpr (.inl ⟨rule,by simp,applies⟩))
    have same : result.check rule = result := by simp [PolicyResult.check,unmet]
    rw [List.foldl_cons,same] at passed ⊢
    exact ih passed

end Denying

section LevelTwo

variable [Host] {engine : PolicyEngine} {action : Action} {facts : ActionFacts}

structure Automatic (engine : PolicyEngine) (action : Action) (facts : ActionFacts) : Prop where
  configured : action.action ∈ engine.level2AutoActions
  existing : facts.existing = true
  markdown : facts.markdown = true
  bodyKept : facts.bodyChange = false
  files : facts.fileCount ≤ engine.level2MaxFiles

/-- At level 2 an action is denied or allowed, never left to a confirmation. -/
theorem evaluate_automatic (passed : (engine.evaluate action facts 2).decision ≠ .deny) :
    (engine.evaluate action facts 2).decision = .allow ∧ Automatic engine action facts := by
  have listed : ¬ (action.action ∉ autoActions ∧ minLevelByAction action.action = none) := by
    simp [minLevelByAction]
  have unmet : ∀ rule ∈ engine.denyRules action facts 2, rule.1 ≠ true := by
    intro rule found applies
    apply passed
    have denied := (checked_decision {
      decision := .confirm,level := 2,actionType := some action.action} _).mpr
        (.inl ⟨rule,found,applies⟩)
    simp [PolicyEngine.evaluate,PolicyEngine.evaluateDenyRules,listed,denied]
  have open' : ((engine.denyRules action facts 2).foldl PolicyResult.check {
      decision := .confirm,level := 2,actionType := some action.action}).decision ≠ .deny := by
    rw [Ne,checked_decision]
    simpa using unmet
  have same := checked_kept _ open'
  have reached : engine.evaluate action facts 2 = engine.evaluateLevel2 action facts {
      decision := .confirm,level := 2,actionType := some action.action} := by
    simp [PolicyEngine.evaluate,PolicyEngine.evaluateDenyRules,listed,same]
  rw [reached] at passed ⊢
  simp only [PolicyEngine.denyRules,List.forall_mem_cons] at unmet
  obtain ⟨_,_,free,_,scope,_,_,markdown,_,overwrite,present,_,_,_,_,_,_,_,budget,body,_⟩ := unmet
  have configured : action.action ∈ engine.level2AutoActions := by
    by_contra outside
    simp [PolicyEngine.evaluateLevel2,outside,PolicyResult.deny] at passed
  have tags : action.action = .addTags ∨ action.action = .removeTags := by
    simpa [autoActions] using engine.tagsOnly _ configured
  have existing : facts.existing = true := by
    rcases tags with kind | kind <;> simpa [mutatesExisting,kind] using present
  have unguarded : facts.isProtected = false := by
    by_contra guarded
    exact free (by simp [Bool.eq_true_of_not_eq_false guarded])
  have files : facts.fileCount ≤ engine.level2MaxFiles := by
    by_contra many
    simp [PolicyEngine.evaluateLevel2,configured,existing,unguarded,overwrite,
      Nat.lt_of_not_le many,PolicyResult.deny] at passed
  have kept : facts.bodyChange = false := by simpa using body
  have within : ¬ engine.maxLevel2ModifiedChars < facts.modifiedChars := by simpa using budget
  have single : facts.scope = "single-file" := by simpa using scope
  refine ⟨?_,configured,existing,by simpa using markdown,kept,files⟩
  simp [PolicyEngine.evaluateLevel2,configured,existing,unguarded,overwrite,
    Nat.not_lt.mpr files,single,kept,within]

omit [Host] in
theorem conflictingPaths_eq_nil {actions : List Action} :
    conflictingPaths actions = [] ↔ (actions.flatMap mutatedPaths).Nodup := by
  rw [conflictingPaths,List.filter_eq_nil_iff,List.nodup_iff_count_le_one]
  constructor
  · intro single path
    by_cases found : path ∈ actions.flatMap mutatedPaths
    · simpa using single path found
    · simp [List.count_eq_zero_of_not_mem found]
  · intro single path _
    simpa using single path

/-- A set that is not denied: no two of its actions touch one path, and none is denied. -/
theorem evaluateSet_passed {actions : List Action} {facts : List ActionFacts} {level : Nat}
    (lengths : facts.length = actions.length)
    (passed : (engine.evaluateSet actions facts level).decision ≠ .deny) :
    actions ≠ [] ∧ (actions.flatMap mutatedPaths).Nodup ∧
      ∀ item ∈ actions.zip facts, (engine.evaluate item.1 item.2 level).decision ≠ .deny := by
  have same : PolicyEngine.factList actions facts = facts := by
    simp [PolicyEngine.factList,lengths]
  simp only [PolicyEngine.evaluateSet,same] at passed
  split at passed
  · exact absurd rfl passed
  next budget =>
    split at passed
    · exact absurd rfl passed
    next apart =>
      split at passed
      · exact absurd rfl passed
      · split at passed
        · exact absurd rfl passed
        next undenied =>
          refine ⟨fun none => budget (.inl none),conflictingPaths_eq_nil.mp (by simpa using apart),
            fun item found denied => undenied ?_⟩
          simpa using ⟨item.1,item.2,found,denied⟩

/-- At level 2 a set that is not denied is allowed. -/
theorem evaluateSet_automatic {actions : List Action} {facts : List ActionFacts}
    (lengths : facts.length = actions.length)
    (passed : (engine.evaluateSet actions facts 2).decision ≠ .deny) :
    (engine.evaluateSet actions facts 2).decision = .allow ∧
      ∀ item ∈ actions.zip facts, Automatic engine item.1 item.2 := by
  obtain ⟨_,_,each⟩ := evaluateSet_passed lengths passed
  refine ⟨?_,fun item found => (evaluate_automatic (each item found)).2⟩
  have same : PolicyEngine.factList actions facts = facts := by
    simp [PolicyEngine.factList,lengths]
  have certain : ((actions.zip facts).map fun item =>
      engine.evaluate item.1 item.2 2).any (fun item => item.decision = .confirm) = false := by
    simp only [List.any_map,List.any_eq_false]
    intro item found
    simp [(evaluate_automatic (each item found)).1]
  simp only [PolicyEngine.evaluateSet,same] at passed ⊢
  split_ifs at passed ⊢ <;> simp_all [PolicyEngine.deniedSet]

end LevelTwo

end LocalBook.Policies
