import LocalBook.Actions.Hunks
import LocalBook.Policies.Protecting
import LocalBook.Scheduler.Running

/-! The size of a patch. The policy compares the difference of the lengths before and after, so
that what a patch removes and what it inserts count against each other. -/
namespace LocalBook

theorem size_encodeUtf8 (t : Text) : (encodeUtf8 t).size = Text.utf8Length t := by
  induction t with
  | nil => rfl
  | cons c rest ih =>
    simp only [encodeUtf8,String.toByteArray_ofList] at ih ⊢
    rw [List.utf8Encode_cons,ByteArray.size_append,ih]
    simp [Text.utf8Length,List.utf8Encode]

@[simp] theorem Text.utf8Length_append (a b : Text) :
    Text.utf8Length (a ++ b) = Text.utf8Length a + Text.utf8Length b := by
  simp [Text.utf8Length]

namespace Patches

/-- The bytes a patch takes out and those it puts in. -/
def bytesOut (hunks : List PatchHunk) : Nat :=
  (hunks.map fun hunk => Text.utf8Length hunk.oldText).sum

def bytesIn (hunks : List PatchHunk) : Nat :=
  (hunks.map fun hunk => Text.utf8Length hunk.newText).sum

/-- The characters removed or inserted by the hunks that change something. -/
def changedChars (hunks : List PatchHunk) : Nat :=
  ((hunks.filter fun hunk => hunk.oldText ≠ hunk.newText).map fun hunk =>
    hunk.oldText.length + hunk.newText.length).sum

/-- Each hunk takes out what it names and puts in what it carries. -/
theorem replaceHunks_bytes (hunks : List PatchHunk) {offset : Int} {text result : Text}
    (run : replaceHunks hunks offset text = .ok result) :
    Text.utf8Length result + bytesOut hunks = Text.utf8Length text + bytesIn hunks := by
  induction hunks generalizing offset text with
  | nil =>
    obtain rfl := Except.ok.inj run
    rfl
  | cons hunk rest ih =>
    simp only [replaceHunks] at run
    split at run
    · cases run
    · split at run
      · cases run
      next same =>
        have same : slice text ((hunk.start : Int) + offset).toNat
            (((hunk.start : Int) + offset).toNat + hunk.oldText.length) = hunk.oldText := by
          simpa using same
        have whole := take_slice_drop text
          (Nat.le_add_right ((hunk.start : Int) + offset).toNat hunk.oldText.length)
        rw [same] at whole
        have length := congrArg Text.utf8Length whole
        have later := ih run
        simp only [Text.utf8Length_append] at length later
        simp only [bytesOut,bytesIn,List.map_cons,List.sum_cons] at later ⊢
        omega

theorem applyHunks_bytes {text after : Text} {hunks : List PatchHunk}
    (applied : applyHunks text hunks = .ok after) :
    Text.utf8Length after + bytesOut hunks = Text.utf8Length text + bytesIn hunks := by
  have taken : (byStart hunks).Perm hunks := byStart_perm
  have out : bytesOut (byStart hunks) = bytesOut hunks := (taken.map _).sum_eq
  have put : bytesIn (byStart hunks) = bytesIn hunks := (taken.map _).sum_eq
  cases run : replaceHunks (byStart hunks) 0 text with
  | error reason =>
    rw [applyHunks_eq,applyHunksWithin_error run] at applied
    cases applied
  | ok result =>
    rw [applyHunks_eq,applyHunksWithin_ok run,bounded] at applied
    split at applied
    · cases applied
    · obtain rfl := Except.ok.inj applied
      rw [← out,← put]
      exact replaceHunks_bytes _ run

end Patches

namespace Agents.AgentJobService

open Effect Vault Policies

variable [Host]

/-- No run that the policy lets pass changes more of the note than the budget. The runs are those
of any service, on any disk, in which the note has the text and one of the actions is the
patch. -/
def Budgeted (text : Text) (hunks : List PatchHunk) : Prop :=
  ∀ (s : AgentJobService) (limits : PolicyLimits) (d : Disk) (actions : List Action)
    (preflight : Preflight) (level : Nat) (action : Action),
    s.policy = PolicyEngine.init limits →
    eval ReadOp.answer (s.preflight actions) d = .ok preflight →
    (s.policy.evaluateSet actions preflight.facts level).decision ≠ .deny →
    action ∈ actions → action.action = .patchNote → action.patch = hunks →
    d.tree.FileAt (relativeParts action.file) (encodeUtf8 text) →
    Patches.changedChars hunks ≤ s.policy.maxModifiedChars

section Passing

variable {s : AgentJobService} {d : Disk} {action : Action} {item : Prepared} {text : Text}

theorem preflightOne_patch (kind : action.action = .patchNote)
    (prepared : eval ReadOp.answer (s.preflightOne action) d = .ok item)
    (file : d.tree.FileAt (relativeParts action.file) (encodeUtf8 text))
    (existing : item.facts.existing = true) (markdown : item.facts.markdown = true) :
    ∃ after,Patches.applyHunks text action.patch = .ok after ∧
      item.facts.modifiedChars = modified (encodeUtf8 after).size (encodeUtf8 text).size ∧
      item.facts.bodyChange = true := by
  simp only [preflightOne,eval_bind_eq_ok,kind,eval_pure] at prepared
  obtain ⟨⟨data,digest⟩,read,⟨judged,operation⟩,made,same⟩ := prepared
  obtain rfl := Except.ok.inj same
  simp only [preflightUpdate,kind,reduceCtorEq,if_false] at made
  cases digest with
  | none =>
    obtain ⟨rfl,rfl⟩ := Prod.mk.inj (Except.ok.inj made)
    cases existing
  | some digest =>
    cases marked : isMarkdown action.file with
    | false =>
      simp only [marked,Bool.not_false,Bool.or_true,if_true] at made
      obtain ⟨rfl,rfl⟩ := Prod.mk.inj (Except.ok.inj made)
      cases markdown
    | true =>
      obtain ⟨_,held,_,_⟩ := eval_readBytes.mp (eval_tryRead read)
      have same : data = encodeUtf8 text := by
        have both := held.2.symm.trans file.2
        simpa using both
      subst same
      simp only [marked,Option.isSome_some,Bool.not_true,Bool.or_self,Bool.false_eq_true,
        if_false,decodeUtf8_encodeUtf8,patched,kind,eval_bind_eq_ok,eval_ofExcept,
        eval_pure] at made
      obtain ⟨⟨facts,after⟩,⟨result,patch,rest⟩,last⟩ := made
      obtain ⟨rfl,rfl⟩ := Prod.mk.inj (Except.ok.inj last)
      obtain ⟨rfl,rfl⟩ := Prod.mk.inj (Except.ok.inj rest)
      refine ⟨result,?_,rfl,rfl⟩
      cases applied : Patches.applyHunks text action.patch with
      | error message => simp [applied,supported] at patch
      | ok written => simpa [applied,supported] using patch

structure PatchPassed (engine : PolicyEngine) (facts : ActionFacts) : Prop where
  existing : facts.existing = true
  markdown : facts.markdown = true
  within : facts.bodyChange = true → facts.modifiedChars ≤ engine.maxModifiedChars

theorem patchPassed {engine : PolicyEngine} {facts : ActionFacts} {level : Nat}
    (kind : action.action = .patchNote)
    (passed : (engine.evaluate action facts level).decision ≠ .deny) :
    PatchPassed engine facts := by
  have unmet : ∀ rule ∈ engine.denyRules action facts level,rule.1 ≠ true :=
    fun rule found applies => passed (evaluate_denied found applies)
  simp only [PolicyEngine.denyRules,List.forall_mem_cons] at unmet
  obtain ⟨valid,low,_,_,_,_,_,markdown,_,_,present,_,_,_,_,_,_,_,budget,body,_⟩ := unmet
  refine ⟨by simpa [mutatesExisting,kind] using present,by simpa using markdown,fun rewritten => ?_⟩
  have first : level ≠ 2 := by simpa [rewritten] using body
  simpa [first] using budget

/-- The rewritten note of a run that has passed. -/
theorem passed_patch {actions : List Action} {preflight : Preflight} {level : Nat}
    (prepared : eval ReadOp.answer (s.preflight actions) d = .ok preflight)
    (passed : (s.policy.evaluateSet actions preflight.facts level).decision ≠ .deny)
    (found : action ∈ actions) (kind : action.action = .patchNote)
    (file : d.tree.FileAt (relativeParts action.file) (encodeUtf8 text)) :
    ∃ after,Patches.applyHunks text action.patch = .ok after ∧
      modified (encodeUtf8 after).size (encodeUtf8 text).size ≤ s.policy.maxModifiedChars := by
  obtain ⟨_,_,each⟩ := evaluateSet_passed (preflight_lengths prepared) passed
  obtain ⟨items,same,named,made⟩ := preflight_each prepared
  have pairs : actions.zip preflight.facts = items.map fun item =>
      (item.action,(counted (distinctFiles actions).length item).facts) := by
    rw [Preflight.facts,same,← named]
    simp [List.zip_map',Function.comp_def]
  obtain ⟨item,listed,rfl⟩ : ∃ item ∈ items,item.action = action := by
    rw [← named] at found
    simpa using found
  have judged := patchPassed kind (each _ (by
    rw [pairs]
    exact List.mem_map.mpr ⟨item,listed,rfl⟩))
  obtain ⟨after,applied,measured,rewritten⟩ := preflightOne_patch kind (made item listed) file
    judged.existing judged.markdown
  refine ⟨after,applied,?_⟩
  rw [← measured]
  exact judged.within rewritten

end Passing

omit [Host] in
theorem maxModifiedChars_le (limits : PolicyLimits) :
    (PolicyEngine.init limits).maxModifiedChars ≤ 20000 := by
  simp [PolicyEngine.init,clamp]

section Measured

variable (text : Text) (hunks : List PatchHunk)

def notePath : Text := "note.md".toList

def measuring (net : Nat) : AgentJobService where
  vault := ⟨Text.utf8Length text + 1,Nat.succ_pos _⟩
  policy := PolicyEngine.init {maxModifiedChars := net}
  recovery := ⟨⟨100,by decide⟩,100⟩
  frontmatter := Runner.loadsTags
  protectedPrefixes := defaultProtectedPrefixes
  maxJournalBytes := 100

def patchOf : Action where
  actionId := "a".toList
  action := .patchNote
  file := notePath
  patch := hunks
  expectedSha256 := some (List.replicate 64 '0')

def oneNote : Disk := Disk.bare.setTree [notePath] (some (.file (encodeUtf8 text)))

omit [Host] in
theorem oneNote_file : (oneNote text).tree.FileAt (relativeParts notePath)
    (encodeUtf8 text) := by
  have vacant : Disk.bare.tree.VacantAt [notePath] := by
    refine ⟨fun p below => ?_,by decide +kernel⟩
    obtain rfl : p = [] := by simpa using below
    decide +kernel
  exact file_of_vacant vacant

theorem eval_measured {after : Text} (net : Nat)
    (applied : Patches.applyHunks text hunks = .ok after) :
    eval ReadOp.answer ((measuring text net).preflightOne (patchOf hunks)) (oneNote text) =
      .ok {action := patchOf hunks
           facts := {
            existing := true,markdown := true,attachment := false,bodyChange := true
            modifiedChars := modified (encodeUtf8 after).size (encodeUtf8 text).size}
           operation := some {
            operation := .update,path := notePath,beforeExists := true
            beforeBytes := some (encodeUtf8 text)
            beforeHash := some (sha256Bytes (encodeUtf8 text))
            afterBytes := some (encodeUtf8 after),afterHash := none}} := by
  have named : PublicPath notePath := (validatePublicPath_iff.mp
    (by decide : validatePublicPath notePath = .ok notePath)).1
  have small : (encodeUtf8 text).size ≤ Text.utf8Length text + 1 := by
    rw [size_encodeUtf8]
    omega
  have content : eval ReadOp.answer ((measuring text net).vault.readBytes notePath)
      (oneNote text) = .ok (encodeUtf8 text,sha256Bytes (encodeUtf8 text)) :=
    eval_readBytes.mpr ⟨named,oneNote_file text,small,rfl⟩
  have read : eval ReadOp.answer ((measuring text net).tryRead notePath)
      (oneNote text) = .ok (encodeUtf8 text,some (sha256Bytes (encodeUtf8 text))) := by
    rw [tryRead,eval_andThen,content]
    rfl
  have folded : Host.casefold notePath = notePath := by
    rw [Host.casefold_ascii _ (by decide)]
    decide
  have marked : isMarkdown notePath = true := by
    simp only [isMarkdown,folded]
    decide
  have free : (measuring text net).guarded notePath = false := by
    simp only [guarded,measuring,isProtected,folded]
    decide
  have unguarded : (measuring text net).guarded [] = false := rfl
  simp [preflightOne,patchOf,read,eval_bind,preflightUpdate,patched,marked,free,unguarded,applied,
    supported]

/-- The facts that are found. -/
def factsOf (net : Nat) : ActionFacts := {modifiedChars := net,bodyChange := true}

theorem preflight_measured {after : Text} {net : Nat}
    (applied : Patches.applyHunks text hunks = .ok after)
    (measured : modified (encodeUtf8 after).size (encodeUtf8 text).size = net) :
    ∃ preflight,eval ReadOp.answer ((measuring text net).preflight [patchOf hunks])
      (oneNote text) = .ok preflight ∧ preflight.facts = [factsOf net] := by
  have one := eval_measured text hunks net applied
  have files : (distinctFiles [patchOf hunks]).length = 1 := by
    simp [distinctFiles,mutatedPaths,patchOf]
  simp [AgentJobService.preflight,preflightEach,eval_bind,one,Preflight.facts,files,measured,
    factsOf]

/-- That patch is left to a confirmation. -/
theorem measured_passed {net : Nat} (small : net ≤ 20000) :
    ((measuring text net).policy.evaluateSet [patchOf hunks] [factsOf net] 1).decision =
      .confirm := by
  have folded : Host.casefold notePath = notePath := by
    rw [Host.casefold_ascii _ (by decide)]
    decide
  have free : isProtected (measuring text net).policy.protectedPrefixes notePath = false := by
    have prefixes : (measuring text net).policy.protectedPrefixes = defaultProtectedPrefixes := rfl
    simp only [prefixes,isProtected,folded]
    decide
  have budget : (measuring text net).policy.maxModifiedChars = net := by
    simp [measuring,PolicyEngine.init,clamp,small]
  have each : ((measuring text net).policy.evaluate (patchOf hunks) (factsOf net) 1).decision =
      .confirm := by
    apply evaluate_confirmed
    have some_file : (measuring text net).policy.maxFiles ≠ 0 := by
      simp [measuring,PolicyEngine.init,clamp]
    simp [PolicyEngine.denyRules,patchOf,factsOf,free,minLevelByAction,mutatesExisting,falsy,
      budget,some_file]
  have single : conflictingPaths [patchOf hunks] = [] := by
    apply conflictingPaths_eq_nil.mpr
    simp [mutatedPaths,patchOf]
  have many : ¬ (measuring text net).policy.maxActions < 1 := by
    simp [measuring,PolicyEngine.init,clamp]
  have measured : (factsOf net).modifiedChars = net := rfl
  simp [PolicyEngine.evaluateSet,single,many,PolicyEngine.factList,budget,each,measured]

end Measured

section Budgets

variable {text : Text} {hunks : List PatchHunk}

omit [Host] in
/-- What is measured depends on the patch alone. -/
theorem net_bytes {after : Text} (applied : Patches.applyHunks text hunks = .ok after) :
    modified (encodeUtf8 after).size (encodeUtf8 text).size =
      modified (Patches.bytesIn hunks) (Patches.bytesOut hunks) := by
  have bytes := Patches.applyHunks_bytes applied
  simp only [modified,size_encodeUtf8]
  omega

/-- With the measured difference for a budget the patch passes. -/
theorem changed_of_budgeted {after : Text} (budgeted : Budgeted text hunks)
    (applied : Patches.applyHunks text hunks = .ok after) :
    Patches.changedChars hunks ≤ modified (Patches.bytesIn hunks) (Patches.bytesOut hunks) ∨
      20000 < modified (Patches.bytesIn hunks) (Patches.bytesOut hunks) := by
  by_cases small : modified (Patches.bytesIn hunks) (Patches.bytesOut hunks) ≤ 20000
  · obtain ⟨preflight,prepared,facts⟩ := preflight_measured text hunks applied (net_bytes applied)
    have kept := budgeted (measuring text _) _ (oneNote text) [patchOf hunks] preflight 1
      (patchOf hunks) rfl prepared (by rw [facts,measured_passed text hunks small]; simp)
      (by simp) rfl rfl (oneNote_file text)
    left
    simpa [measuring,PolicyEngine.init,clamp,small] using kept
  · omega

/-- For a note and a patch of it, the budget is kept in every run exactly when the patch does not
apply, or changes no more characters than the bytes by which it lengthens or shortens the note,
or when that difference exceeds what any configuration allows. -/
theorem budgeted_iff (text : Text) (hunks : List PatchHunk) :
    Budgeted text hunks ↔ ∀ after,Patches.applyHunks text hunks = .ok after →
      Patches.changedChars hunks ≤ modified (Patches.bytesIn hunks) (Patches.bytesOut hunks) ∨
        20000 < modified (Patches.bytesIn hunks) (Patches.bytesOut hunks) := by
  constructor
  · intro budgeted after applied
    exact changed_of_budgeted budgeted applied
  · intro enough s limits d actions preflight level action engine prepared passed found kind patch
      file
    subst patch
    obtain ⟨after,applied,within⟩ := passed_patch prepared passed found kind file
    have ceiling := maxModifiedChars_le limits
    rw [net_bytes applied] at within
    rw [engine] at within ⊢
    have condition := enough after applied
    omega

end Budgets

end Agents.AgentJobService

section Overrun

open scoped AsciiHost

/-- With a budget of no characters at all, a note is rewritten whole by a text of its length. -/
theorem rewritten_unbudgeted : ¬ Agents.AgentJobService.Budgeted "draft".toList
    [{start := 0,oldText := "draft".toList,newText := "final".toList}] := by
  intro budgeted
  have applied : Patches.applyHunks "draft".toList
      [{start := 0,oldText := "draft".toList,newText := "final".toList}] =
        .ok "final".toList := by
    rw [Patches.applyHunks,List.mergeSort_singleton]
    decide
  have kept := Agents.AgentJobService.changed_of_budgeted budgeted applied
  revert kept
  decide

end Overrun

end LocalBook
