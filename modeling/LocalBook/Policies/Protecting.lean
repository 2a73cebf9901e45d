import LocalBook.Policies.Engine

/-! Protected prefixes. The engine folds the case of the path it is asked about and leaves the
prefixes as they are configured, so that a prefix protects what it names only when it is spelled
in folded case, without a slash at its end. -/
namespace LocalBook.Policies

section Enforcing

variable [Host]

/-- The prefix without the slashes at its end. -/
def bare (pre : Text) : Text := Text.rstripBy (fun c => c == '/') pre

/-- The path is the prefix or lies under it, without regard to letter case. -/
def Covers (pre path : Text) : Prop :=
  bare pre ≠ [] ∧ (Host.casefold path = Host.casefold (bare pre) ∨
    Text.startsWith (Host.casefold path) (Host.casefold (bare pre) ++ ['/']))

def actionPaths (action : Action) : List Text :=
  action.file :: action.targetFile.toList.filter (· ≠ [])

/-- The prefixes that are to be protected, `.localnote` whatever is configured. -/
def intended (limits : PolicyLimits) : List Text :=
  defaultProtectedPrefixes ++ limits.protectedPrefixes

/-- The prefixes the engine keeps: the default stands in for an empty list only. -/
def effective (limits : PolicyLimits) : List Text :=
  (PolicyEngine.init limits).protectedPrefixes

/-- Every action on a path that one of the prefixes covers is denied. -/
def Enforced (limits : PolicyLimits) : Prop :=
  ∀ (action : Action) (facts : ActionFacts) (level : Nat),
    (∃ pre ∈ intended limits,∃ path ∈ actionPaths action,Covers pre path) →
      ((PolicyEngine.init limits).evaluate action facts level).decision = .deny

variable {prefixes : List Text} {path : Text}

theorem isProtected_iff : isProtected prefixes path = true ↔ ∃ pre ∈ prefixes,
    Host.casefold path = pre ∨ (pre ++ ['/']) <+: Host.casefold path := by
  simp [isProtected,Text.startsWith]

/-- What lies under a protected path is protected. -/
theorem isProtected_under {pre : Text} (protectedPre : isProtected prefixes (bare pre) = true)
    (covered : Covers pre path) : isProtected prefixes path = true := by
  obtain ⟨start,found,same⟩ := isProtected_iff.mp protectedPre
  apply isProtected_iff.mpr
  refine ⟨start,found,?_⟩
  obtain ⟨_,equal | under⟩ := covered
  · rwa [equal]
  · have under : Host.casefold (bare pre) ++ ['/'] <+: Host.casefold path := by
      simpa [Text.startsWith] using under
    rcases same with same | same
    · exact .inr (same ▸ under)
    · exact .inr (same.trans ((List.prefix_append _ _).trans under))

variable {engine : PolicyEngine} {action : Action} {facts : ActionFacts} {level : Nat}

/-- A deny rule that applies decides. -/
theorem evaluate_denied {rule : Bool × String} (found : rule ∈ engine.denyRules action facts level)
    (applies : rule.1 = true) : (engine.evaluate action facts level).decision = .deny := by
  have listed : ¬ (action.action ∉ autoActions ∧ minLevelByAction action.action = none) := by
    simp [minLevelByAction]
  have denied := (checked_decision {
    decision := .confirm,level,actionType := some action.action} _).mpr
      (.inl ⟨rule,found,applies⟩)
  simp [PolicyEngine.evaluate,PolicyEngine.evaluateDenyRules,listed,denied]

/-- Where none applies, level 1 asks for a confirmation. -/
theorem evaluate_confirmed
    (unmet : ∀ rule ∈ engine.denyRules action facts 1,rule.1 ≠ true) :
    (engine.evaluate action facts 1).decision = .confirm := by
  have listed : ¬ (action.action ∉ autoActions ∧ minLevelByAction action.action = none) := by
    simp [minLevelByAction]
  have kept : (engine.denyRules action facts 1).foldl PolicyResult.check
      {decision := .confirm,level := 1,actionType := some action.action} =
        {decision := .confirm,level := 1,actionType := some action.action} := by
    apply checked_kept
    rw [Ne,checked_decision]
    simpa using unmet
  simp [PolicyEngine.evaluate,PolicyEngine.evaluateDenyRules,listed,kept]

theorem denied_of_isProtected (found : path ∈ actionPaths action)
    (guarded : isProtected engine.protectedPrefixes path = true) :
    (engine.evaluate action facts level).decision = .deny := by
  have rule : (facts.isProtected || isProtected engine.protectedPrefixes action.file ||
      (!falsy action.targetFile &&
        isProtected engine.protectedPrefixes (action.targetFile.getD [])),"protected_path") ∈
      engine.denyRules action facts level := by simp [PolicyEngine.denyRules]
  apply evaluate_denied rule
  simp only [actionPaths,List.mem_cons,List.mem_filter,Option.mem_toList] at found
  rcases found with rfl | ⟨target,filled⟩
  · simp [guarded]
  · have filled : path ≠ [] := by simpa using filled
    simp [target,falsy,filled,guarded]

def tagging (path : Text) : Action where
  actionId := []
  action := .addTags
  file := path
  tags := ["inbox".toList]

/-- Such an action is denied for its path alone. -/
theorem tagging_denied {limits : PolicyLimits}
    (denied : ((PolicyEngine.init limits).evaluate (tagging path) {} 1).decision = .deny) :
    isProtected (PolicyEngine.init limits).protectedPrefixes path = true := by
  by_contra free
  have some_file : 1 ≤ (PolicyEngine.init limits).maxFiles := by
    simp [PolicyEngine.init,clamp]
  have confirmed : ((PolicyEngine.init limits).evaluate (tagging path) {} 1).decision =
      .confirm := by
    apply evaluate_confirmed
    simp [PolicyEngine.denyRules,tagging,minLevelByAction,mutatesExisting,falsy]
    exact ⟨by simpa using free,by omega⟩
  rw [confirmed] at denied
  cases denied

/-- The prefixes hold exactly when each of them, `.localnote` included, or one above it, stands
in the list in folded case and without a slash at its end. -/
theorem enforced_iff (limits : PolicyLimits) :
    Enforced limits ↔ ∀ pre ∈ intended limits,bare pre ≠ [] →
      ∃ start ∈ effective limits,Host.casefold (bare pre) = start ∨
        (start ++ ['/']) <+: Host.casefold (bare pre) := by
  constructor
  · intro enforced pre found named
    have own : Covers pre (bare pre) := ⟨named,.inl rfl⟩
    have denied := enforced (tagging (bare pre)) {} 1
      ⟨pre,found,bare pre,by simp [actionPaths,tagging],own⟩
    exact isProtected_iff.mp (tagging_denied denied)
  · intro each action facts level ⟨pre,found,path,named,covered⟩
    have own := isProtected_iff.mpr (each pre found covered.1)
    exact denied_of_isProtected named (isProtected_under own covered)

end Enforcing

open scoped AsciiHost in
/-- With `Private` configured, a tag edit under it is offered for confirmation, and so is one
under `.localnote`, which the list no longer names. -/
theorem private_exposed :
    ¬ Enforced {protectedPrefixes := ["Private".toList]} ∧
      ∀ path ∈ ["Private/diary.md".toList,".localnote/diary.md".toList],
        (∃ pre ∈ intended {protectedPrefixes := ["Private".toList]},Covers pre path) ∧
        ((PolicyEngine.init {protectedPrefixes := ["Private".toList]}).evaluate
          (tagging path) {} 1).decision = .confirm := by
  have exposed : ∀ path ∈ ["Private/diary.md".toList,".localnote/diary.md".toList],
      (∃ pre ∈ intended {protectedPrefixes := ["Private".toList]},Covers pre path) ∧
        ((PolicyEngine.init {protectedPrefixes := ["Private".toList]}).evaluate
          (tagging path) {} 1).decision = .confirm := by
    simp only [Covers]
    decide +kernel
  refine ⟨fun enforced => ?_,exposed⟩
  obtain ⟨⟨pre,found,covered⟩,confirmed⟩ := exposed "Private/diary.md".toList (by simp)
  have denied := enforced (tagging "Private/diary.md".toList) {} 1
    ⟨pre,found,_,by simp [actionPaths,tagging],covered⟩
  rw [confirmed] at denied
  cases denied

end LocalBook.Policies
