import LocalBook.Policies.Protecting

/-! The verdict on a set under other limits and in another order. -/
namespace LocalBook.Policies

/-- An engine that bounds, permits and protects no less strictly. -/
structure Tighter (tight engine : PolicyEngine) : Prop where
  actions : tight.maxActions ≤ engine.maxActions
  files : tight.maxFiles ≤ engine.maxFiles
  chars : tight.maxModifiedChars ≤ engine.maxModifiedChars
  level2Chars : tight.maxLevel2ModifiedChars ≤ engine.maxLevel2ModifiedChars
  level2Files : tight.level2MaxFiles ≤ engine.level2MaxFiles
  automatic : tight.level2AutoActions ⊆ engine.level2AutoActions
  prefixes : engine.protectedPrefixes ⊆ tight.protectedPrefixes

/-- The same of what the engines are built from. -/
structure Within (tight limits : PolicyLimits) : Prop where
  actions : tight.maxActions ≤ limits.maxActions
  files : tight.maxFiles ≤ limits.maxFiles
  chars : tight.maxModifiedChars ≤ limits.maxModifiedChars
  level2Chars : tight.maxLevel2ModifiedChars ≤ limits.maxLevel2ModifiedChars
  level2Files : tight.level2MaxFiles ≤ limits.level2MaxFiles
  automatic : tight.level2AutoActions ⊆ limits.level2AutoActions
  prefixes : effective limits ⊆ effective tight

theorem clamp_le {low high high' : Nat} {a b : Int} (bound : high ≤ high') (le : a ≤ b) :
    clamp low high a ≤ clamp low high' b := by
  rw [clamp,clamp]
  have := Int.toNat_le_toNat le
  omega

theorem Within.tighter {tight limits : PolicyLimits} (within : Within tight limits) :
    Tighter (.init tight) (.init limits) where
  actions := clamp_le le_rfl within.actions
  files := clamp_le le_rfl within.files
  chars := clamp_le le_rfl within.chars
  level2Chars := clamp_le le_rfl within.level2Chars
  level2Files := clamp_le (clamp_le le_rfl within.files) within.level2Files
  automatic kind found := by
    obtain ⟨listed,tags⟩ := List.mem_filter.mp found
    exact List.mem_filter.mpr ⟨within.automatic listed,tags⟩
  prefixes := within.prefixes

section Verdicts

variable [Host] {engine tight : PolicyEngine} {action : Action} {facts : ActionFacts} {level : Nat}

structure Passes (engine : PolicyEngine) (action : Action) (facts : ActionFacts) (level : Nat) :
    Prop where
  unmet : ∀ rule ∈ engine.denyRules action facts level,rule.1 ≠ true
  mutable : level ≠ 0
  automatic : level = 2 → action.action ∈ engine.level2AutoActions ∧
    facts.fileCount ≤ engine.level2MaxFiles

theorem evaluate_reached (unmet : ∀ rule ∈ engine.denyRules action facts level,rule.1 ≠ true) :
    engine.evaluate action facts level =
      let result := {decision := .confirm,level,actionType := some action.action}
      if level = 0 then result.deny "readonly_mutation"
      else if level = 1 then
        {result with matchedRules := result.matchedRules ++ ["level1_requires_confirmation"]}
      else engine.evaluateLevel2 action facts result := by
  have same := @checked_kept {decision := .confirm,level,actionType := some action.action}
    (engine.denyRules action facts level) (by rw [Ne,checked_decision]; simpa using unmet)
  simp [PolicyEngine.evaluate,PolicyEngine.evaluateDenyRules,minLevelByAction,same]

theorem Passes.decision (passes : Passes engine action facts level) :
    (engine.evaluate action facts level).decision = if level = 1 then .confirm else .allow := by
  obtain ⟨unmet,mutable,automatic⟩ := passes
  have free := unmet
  rw [evaluate_reached unmet]
  simp only [PolicyEngine.denyRules,List.forall_mem_cons] at free
  obtain ⟨known,_,shielded,_,scope,_,_,_,_,overwrite,present,_,_,_,_,_,_,_,budget,body,_⟩ := free
  by_cases one : level = 1
  · simp [one]
  · have two : level = 2 := by
      simp at known
      omega
    subst two
    obtain ⟨configured,files⟩ := automatic rfl
    have tags : action.action = .addTags ∨ action.action = .removeTags := by
      simpa [autoActions] using engine.tagsOnly _ configured
    have existing : facts.existing = true := by
      rcases tags with kind | kind <;> simpa [mutatesExisting,kind] using present
    have within : facts.modifiedChars ≤ engine.maxLevel2ModifiedChars := by simpa using budget
    simp_all [PolicyEngine.evaluateLevel2,Nat.not_lt.mpr files,Nat.not_lt.mpr within]

theorem passes_iff : (engine.evaluate action facts level).decision ≠ .deny ↔
    Passes engine action facts level := by
  constructor
  · intro passed
    have unmet : ∀ rule ∈ engine.denyRules action facts level,rule.1 ≠ true :=
      fun rule found applies => passed (evaluate_denied found applies)
    refine ⟨unmet,?_,?_⟩
    · rintro rfl
      rw [evaluate_reached unmet] at passed
      exact passed rfl
    · rintro rfl
      have automatic := (evaluate_automatic passed).2
      exact ⟨automatic.configured,automatic.files⟩
  · intro passes
    rw [passes.decision]
    split <;> nofun

theorem Passes.loosened (tighter : Tighter tight engine) (passes : Passes tight action facts level) :
    Passes engine action facts level := by
  obtain ⟨unmet,mutable,automatic⟩ := passes
  refine ⟨?_,mutable,fun two => ⟨tighter.automatic (automatic two).1,
    (automatic two).2.trans tighter.level2Files⟩⟩
  have shielded (path : Text) (here : isProtected engine.protectedPrefixes path = true) :
      isProtected tight.protectedPrefixes path = true := by
    obtain ⟨pre,found,fits⟩ := isProtected_iff.mp here
    exact isProtected_iff.mpr ⟨pre,tighter.prefixes found,fits⟩
  have files := tighter.files
  have chars := tighter.chars
  have level2Chars := tighter.level2Chars
  simp only [PolicyEngine.denyRules,List.forall_mem_cons] at unmet ⊢
  obtain ⟨r1,r2,free,r4,r5,count,r7,r8,r9,r10,r11,r12,r13,r14,r15,r16,r17,r18,budget,r20⟩ := unmet
  refine ⟨r1,r2,?_,r4,r5,?_,r7,r8,r9,r10,r11,r12,r13,r14,r15,r16,r17,r18,?_,r20⟩
  · intro applies
    apply free
    simp only [Bool.or_eq_true,Bool.and_eq_true] at applies ⊢
    exact applies.imp (Or.imp id (shielded _)) fun target => ⟨target.1,shielded _ target.2⟩
  · simp only [ne_eq,decide_eq_true_eq] at count ⊢
    omega
  · simp only [ne_eq,decide_eq_true_eq] at budget ⊢
    split at budget <;> split <;> omega

def verdict (engine : PolicyEngine) (items : List (Action × ActionFacts)) (level : Nat) :
    PolicyDecision :=
  (engine.evaluateSet (items.map Prod.fst) (items.map Prod.snd) level).decision

variable {items items' : List (Action × ActionFacts)}

theorem verdict_eq (items : List (Action × ActionFacts)) : verdict engine items level =
    if items = [] ∨ engine.maxActions < items.length then .deny
    else if ¬ (items.flatMap fun item => mutatedPaths item.1).Nodup then .deny
    else if engine.maxModifiedChars < (items.map fun item => item.2.modifiedChars).sum then .deny
    else if ∃ item ∈ items,(engine.evaluate item.1 item.2 level).decision = .deny then .deny
    else if ∃ item ∈ items,(engine.evaluate item.1 item.2 level).decision = .confirm then .confirm
    else .allow := by
  have facts : PolicyEngine.factList (items.map Prod.fst) (items.map Prod.snd) =
      items.map Prod.snd := by simp [PolicyEngine.factList]
  have apart : conflictingPaths (items.map Prod.fst) ≠ [] ↔
      ¬ (items.flatMap fun item => mutatedPaths item.1).Nodup := by
    rw [ne_eq,conflictingPaths_eq_nil,List.flatMap_map]
  simp only [verdict,PolicyEngine.evaluateSet,facts,apart,List.zip_map',List.map_map,
    Function.comp_def,List.length_map,List.map_eq_nil_iff,List.any_map,List.any_eq_true,
    decide_eq_true_eq,apply_ite PolicySetResult.decision,PolicyEngine.deniedSet]

theorem verdict_perm (perm : items.Perm items') :
    verdict engine items level = verdict engine items' level := by
  simp only [verdict_eq,← List.length_eq_zero_iff,perm.length_eq,
    (perm.flatMap_right _).nodup_iff,(perm.map _).sum_eq,perm.mem_iff]

structure PassesAll (engine : PolicyEngine) (items : List (Action × ActionFacts)) (level : Nat) :
    Prop where
  few : ¬ (items = [] ∨ engine.maxActions < items.length)
  apart : (items.flatMap fun item => mutatedPaths item.1).Nodup
  chars : ¬ engine.maxModifiedChars < (items.map fun item => item.2.modifiedChars).sum
  each : ∀ item ∈ items,Passes engine item.1 item.2 level

theorem passesAll (passed : verdict engine items level ≠ .deny) :
    PassesAll engine items level := by
  rw [verdict_eq] at passed
  split_ifs at passed with few apart chars denied
  all_goals first
    | exact absurd rfl passed
    | exact ⟨few,apart,chars,fun item found => passes_iff.mp fun deny => denied ⟨item,found,deny⟩⟩

theorem PassesAll.verdict (passes : PassesAll engine items level) : verdict engine items level =
    if ∃ item ∈ items,(if level = 1 then PolicyDecision.confirm else .allow) = .confirm
    then .confirm else .allow := by
  have denied : ¬ ∃ item ∈ items,(engine.evaluate item.1 item.2 level).decision = .deny :=
    fun ⟨item,found,deny⟩ => passes_iff.mpr (passes.each item found) deny
  rw [verdict_eq,if_neg passes.few,if_neg (not_not.mpr passes.apart),if_neg passes.chars,
    if_neg denied]
  refine if_congr (exists_congr fun item => and_congr_right fun found => ?_) rfl rfl
  rw [(passes.each item found).decision]

/-- A set that passes the tighter engine gets the same verdict of the other one. -/
theorem verdict_loosened (tighter : Tighter tight engine)
    (passed : verdict tight items level ≠ .deny) :
    verdict engine items level = verdict tight items level := by
  have passes := passesAll passed
  have actions := tighter.actions
  have total := tighter.chars
  have loosened : PassesAll engine items level :=
    ⟨fun many => passes.few (many.imp id fun many => by omega),passes.apart,
      fun many => passes.chars (by omega),
      fun item found => (passes.each item found).loosened tighter⟩
  rw [passes.verdict,loosened.verdict]

/-- Stricter limits and another order of the actions change the verdict on a set to a denial, or
not at all. -/
theorem verdict_within {tight limits : PolicyLimits} (within : Within tight limits)
    (perm : items.Perm items') (level : Nat) :
    verdict (.init tight) items' level = .deny ∨
      verdict (.init tight) items' level = verdict (.init limits) items level := by
  by_cases denied : verdict (.init tight) items' level = .deny
  · exact .inl denied
  · rw [verdict_perm perm]
    exact .inr (verdict_loosened within.tighter denied).symm

section Parts

variable {chosen : List (Action × ActionFacts)} {files : Nat}

/-- The action in a set that touches so many files. -/
def among (files : Nat) (item : Action × ActionFacts) : Action × ActionFacts :=
  (item.1,{item.2 with fileCount := files})

theorem Passes.among (passes : Passes engine action facts level) (fewer : files ≤ facts.fileCount) :
    Passes engine action {facts with fileCount := files} level := by
  obtain ⟨unmet,mutable,automatic⟩ := passes
  refine ⟨?_,mutable,fun two => ⟨(automatic two).1,fewer.trans (automatic two).2⟩⟩
  simp only [PolicyEngine.denyRules,List.forall_mem_cons] at unmet ⊢
  obtain ⟨r1,r2,r3,r4,r5,count,rest⟩ := unmet
  refine ⟨r1,r2,r3,r4,r5,?_,rest⟩
  simp only [ne_eq,decide_eq_true_eq] at count ⊢
  omega

theorem PassesAll.part (passes : PassesAll engine items level) (sub : chosen.Sublist items)
    (some_ : chosen ≠ []) (fewer : ∀ item ∈ chosen,files ≤ item.2.fileCount) :
    PassesAll engine (chosen.map (among files)) level := by
  refine ⟨?_,?_,?_,fun item found => ?_⟩
  · have short := sub.length_le
    rw [List.map_eq_nil_iff,List.length_map]
    rintro (none_ | many)
    · exact some_ none_
    · exact passes.few (.inr (by omega))
  · rw [List.flatMap_map]
    exact passes.apart.sublist (sub.flatMap _)
  · rw [List.map_map]
    have less := (sub.map fun item => item.2.modifiedChars).sum_le_sum fun _ _ => Nat.zero_le _
    exact fun many => passes.chars (many.trans_le less)
  · obtain ⟨original,here,rfl⟩ := List.mem_map.mp found
    exact (passes.each original (sub.subset here)).among (fewer original here)

/-- What is chosen of a set that passes gets the verdict of the whole, however few files it still
touches. -/
theorem verdict_part (passed : verdict engine items level ≠ .deny) (sub : chosen.Sublist items)
    (some_ : chosen ≠ []) (fewer : ∀ item ∈ chosen,files ≤ item.2.fileCount) :
    verdict engine (chosen.map (among files)) level = verdict engine items level := by
  have passes := passesAll passed
  have whole : items ≠ [] := fun none_ => passes.few (.inl none_)
  have each {l : List (Action × ActionFacts)} (some_ : l ≠ []) (P : Prop) :
      (∃ item ∈ l,P) ↔ P := by
    obtain ⟨item,found⟩ := List.exists_mem_of_ne_nil l some_
    exact ⟨fun found => found.elim fun _ here => here.2,fun here => ⟨item,found,here⟩⟩
  rw [passes.verdict,(passes.part sub some_ fewer).verdict]
  simp only [each whole,each (mt List.map_eq_nil_iff.mp some_)]

end Parts

end Verdicts

section Tags

open scoped AsciiHost

def tagLimits : PolicyLimits := {level2AutoActions := [.addTags]}

def twoTags : List (Action × ActionFacts) :=
  [(tagging "a.md".toList,{}),(tagging "b.md".toList,{})]

theorem twoTags_within :
    verdict (.init {tagLimits with maxActions := 1}) twoTags.reverse 2 = .deny ∨
      verdict (.init {tagLimits with maxActions := 1}) twoTags.reverse 2 =
        verdict (.init tagLimits) twoTags 2 := by
  refine verdict_within ⟨?_,?_,?_,?_,?_,?_,?_⟩ (List.reverse_perm _).symm 2 <;> decide

theorem oneTag_verdict : verdict (.init tagLimits) ((twoTags.take 1).map (among 1)) 2 =
    verdict (.init tagLimits) twoTags 2 :=
  verdict_part (by decide) (List.take_sublist ..) (by decide) (by decide)

end Tags

end LocalBook.Policies
