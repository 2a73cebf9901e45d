import LocalBook.Vault.Watcher

/-! What the watcher hands on. Every event it queues reaches the callback, under its own key
or merged with a later one; but a move is queued only when both of its ends are visible. -/
namespace LocalBook.Vault

section Visibility

variable {root : WatchRoot} {raw shown : Text}

/-- The Vault shows this path to its consumers under that name: it is a valid path below the
root, inside neither a hidden nor the derived directory. -/
structure Visible (root : WatchRoot) (raw shown : Text) : Prop where
  located : ∃ parts, osParts raw = some (root.path ++ parts) ∧ display parts = shown ∧
    ∃ inside, root.resolve (root.path ++ parts) = some (root.path ++ inside)
  derived : isReservedDerivedPath shown = false
  plain : hasHiddenPart shown = false
  named : Canonical shown

theorem relativeTo_eq_some {base path parts : Path} :
    relativeTo base path = some parts ↔ path = base ++ parts := by
  unfold relativeTo
  by_cases below : base.isPrefixOf path
  · obtain ⟨rest,rfl⟩ := List.isPrefixOf_iff_prefix.mp below
    simp
  · simp only [below,Bool.false_eq_true,if_false,reduceCtorEq,false_iff]
    rintro rfl
    exact below (List.isPrefixOf_iff_prefix.mpr (List.prefix_append _ _))

/-- The watcher keeps exactly the visible paths. -/
theorem normalizeOsPath_iff : normalizeOsPath root raw = some shown ↔ Visible root raw shown := by
  have valid : ∀ text : Text, (∃ relative, validateRelativePath text false = .ok relative) ↔
      Canonical text := by
    intro text
    simp [validate_iff]
  simp only [normalizeOsPath,Option.bind_eq_bind,Option.bind_eq_some_iff,relativeTo_eq_some]
  constructor
  · rintro ⟨path,read,real,resolved,inside,rfl,parts,rfl,kept⟩
    split at kept
    · cases kept
    · split at kept
      · cases kept
      · split at kept
        · rename_i derived hidden _ relative accepted
          obtain rfl := Option.some.inj kept
          exact ⟨⟨parts,read,rfl,inside,resolved⟩,by simpa using derived,by simpa using hidden,
            (valid _).mp ⟨relative,accepted⟩⟩
        · cases kept
  · rintro ⟨⟨parts,read,rfl,inside,resolved⟩,derived,plain,named⟩
    obtain ⟨relative,accepted⟩ := (valid _).mpr named
    exact ⟨_,read,_,resolved,inside,rfl,parts,rfl,by simp [derived,plain,accepted]⟩

/-- The path is visible under some name. -/
def Seen (root : WatchRoot) (raw : Text) : Prop := ∃ shown, Visible root raw shown

theorem not_seen_iff : ¬ Seen root raw ↔ normalizeOsPath root raw = none := by
  simp only [Seen,← normalizeOsPath_iff,Option.eq_none_iff_forall_not_mem,Option.mem_def,
    not_exists]

end Visibility

/-- What a raw move changes in the visible namespace, as an event to hand on. -/
inductive NetChange (root : WatchRoot) (rawOld rawNew : Text) (isDirectory : Bool) :
    Option VaultEvent → Prop where
  | moved (old : Visible root rawOld oldPath) (new : Visible root rawNew newPath) :
      NetChange root rawOld rawNew isDirectory (some (.moved oldPath newPath isDirectory))
  | appeared (old : ¬ Seen root rawOld) (new : Visible root rawNew newPath) :
      NetChange root rawOld rawNew isDirectory (some (.created newPath isDirectory))
  | replaced (old : ¬ Seen root rawOld) (new : Visible root rawNew newPath) :
      NetChange root rawOld rawNew isDirectory (some (.modified newPath isDirectory))
  | vanished (old : Visible root rawOld oldPath) (new : ¬ Seen root rawNew) :
      NetChange root rawOld rawNew isDirectory (some (.deleted oldPath isDirectory))
  | unseen (old : ¬ Seen root rawOld) (new : ¬ Seen root rawNew) :
      NetChange root rawOld rawNew isDirectory none

/-- The event a move is queued as tells its net change exactly when both ends are visible or
neither is. -/
theorem netChange_emitMoved {root : WatchRoot} {rawOld rawNew : Text} {isDirectory : Bool} :
    NetChange root rawOld rawNew isDirectory (emitMoved root rawOld rawNew isDirectory) ↔
      (Seen root rawOld ↔ Seen root rawNew) := by
  cases old : normalizeOsPath root rawOld with
  | none =>
    have hidden := not_seen_iff.mpr old
    have dropped : emitMoved root rawOld rawNew isDirectory = none := by simp [emitMoved,old]
    rw [dropped]
    constructor
    · intro change
      cases change with
      | unseen _ new => simp [hidden,new]
    · intro same
      exact .unseen hidden (same.not.mp hidden)
  | some oldPath =>
    have visible := normalizeOsPath_iff.mp old
    cases new : normalizeOsPath root rawNew with
    | none =>
      have hidden := not_seen_iff.mpr new
      have dropped : emitMoved root rawOld rawNew isDirectory = none := by
        simp [emitMoved,old,new]
      rw [dropped]
      constructor
      · intro change
        cases change with
        | unseen old _ => exact absurd ⟨oldPath,visible⟩ old
      · intro same
        exact absurd (same.mp ⟨oldPath,visible⟩) hidden
    | some newPath =>
      have arrived := normalizeOsPath_iff.mp new
      have queued : emitMoved root rawOld rawNew isDirectory =
          some (.moved oldPath newPath isDirectory) := by simp [emitMoved,old,new]
      rw [queued]
      exact ⟨fun _ => ⟨fun _ => ⟨newPath,arrived⟩,fun _ => ⟨oldPath,visible⟩⟩,
        fun _ => .moved visible arrived⟩

namespace VaultWatcher

variable {root : WatchRoot} {debounce : Int} {w : VaultWatcher}

def Keyed (w : VaultWatcher) : Prop := ∀ entry ∈ w.pending, entry.1 = entry.2.2.key

/-- An event with this key waits, or was handed on after the first `mark` ones. -/
def Waiting (mark : Nat) (key : EventKind × List Text) (w : VaultWatcher) : Prop :=
  (∃ entry ∈ w.pending, entry.1 = key) ∨ ∃ event ∈ w.handed.drop mark, event.key = key

theorem mem_foldl_pop {pending : Dict (EventKind × List Text) (Int × VaultEvent)}
    {due : List VaultEvent} {entry : (EventKind × List Text) × Int × VaultEvent} :
    entry ∈ due.foldl (fun pending event => pending.pop event.key) pending ↔
      entry ∈ pending ∧ ∀ event ∈ due, entry.1 ≠ event.key := by
  induction due generalizing pending with
  | nil => simp
  | cons event rest ih =>
    rw [List.foldl_cons,ih,Dict.pop,List.mem_filter,List.forall_mem_cons,decide_eq_true_eq,
      and_assoc]

theorem keyed_step (keyed : Keyed w) (s : Step) : Keyed (step root debounce w s) := by
  cases s with
  | raw event now =>
    rw [step]
    split
    · intro entry found
      rcases Dict.mem_set found with rfl | old
      · rfl
      · exact keyed entry old
    · exact keyed
  | tick now =>
    intro entry found
    exact keyed entry (mem_foldl_pop.mp found).1
  | flush =>
    intro entry found
    cases found

/-- What was handed on stays so. -/
theorem handed_step (w : VaultWatcher) (s : Step) :
    w.handed <+: (step root debounce w s).handed := by
  cases s with
  | raw event now =>
    rw [step]
    split <;> exact List.prefix_rfl
  | tick now => exact List.prefix_append _ _
  | flush => exact List.prefix_append _ _

theorem waiting_of_handed {w' : VaultWatcher} {mark : Nat} {key : EventKind × List Text}
    (grown : w.handed <+: w'.handed)
    (found : ∃ event ∈ w.handed.drop mark, event.key = key) : Waiting mark key w' := by
  obtain ⟨event,member,same⟩ := found
  obtain ⟨later,more⟩ := grown
  refine .inr ⟨event,?_,same⟩
  rw [← more,List.drop_append]
  exact List.mem_append_left _ member

/-- An event that waits goes on waiting until it is handed on. -/
theorem waiting_step {mark : Nat} {key : EventKind × List Text} (keyed : Keyed w)
    (behind : mark ≤ w.handed.length) (waiting : Waiting mark key w) (s : Step) :
    Waiting mark key (step root debounce w s) := by
  rcases waiting with ⟨entry,found,rfl⟩ | handed
  · cases s with
    | raw event now =>
      rw [step]
      split
      · rename_i event queued
        by_cases same : entry.1 = event.key
        · exact .inl ⟨_,Dict.set_mem _ _ _,same.symm⟩
        · exact .inl ⟨entry,Dict.mem_set_of_ne found same,rfl⟩
      · exact .inl ⟨entry,found,rfl⟩
    | tick now =>
      by_cases due : ∃ event ∈ (w.pending.filter fun entry => entry.2.1 ≤ now).map
          (fun entry => entry.2.2), event.key = entry.1
      · obtain ⟨event,member,same⟩ := due
        refine .inr ⟨event,?_,same⟩
        rw [step,dispatchDue,List.drop_append_of_le_length behind]
        exact List.mem_append_right _ member
      · push Not at due
        exact .inl ⟨entry,mem_foldl_pop.mpr ⟨found,fun event member => (due event member).symm⟩,
          rfl⟩
    | flush =>
      refine .inr ⟨entry.2.2,?_,(keyed entry found).symm⟩
      rw [step,flush,List.drop_append_of_le_length behind]
      exact List.mem_append_right _ (List.mem_map_of_mem found)
  · exact waiting_of_handed (handed_step w s) handed

theorem waiting_run {mark : Nat} {key : EventKind × List Text} (keyed : Keyed w)
    (behind : mark ≤ w.handed.length) (waiting : Waiting mark key w) (steps : List Step) :
    Keyed (run root debounce steps w) ∧ mark ≤ (run root debounce steps w).handed.length ∧
      Waiting mark key (run root debounce steps w) := by
  induction steps generalizing w with
  | nil => exact ⟨keyed,behind,waiting⟩
  | cons s rest ih =>
    exact ih (keyed_step keyed s) (behind.trans (handed_step w s).length_le)
      (waiting_step keyed behind waiting s)

theorem keyed_run (keyed : Keyed w) (steps : List Step) : Keyed (run root debounce steps w) := by
  induction steps generalizing w with
  | nil => exact keyed
  | cons s rest ih => exact ih (keyed_step keyed s)

def Queued (root : WatchRoot) (steps : List Step) (event : VaultEvent) : Prop :=
  ∃ raw now, Step.raw raw now ∈ steps ∧ emit root raw = some event

theorem queued_run (steps : List Step) :
    (∀ entry ∈ (run root debounce steps {}).pending, Queued root steps entry.2.2) ∧
      ∀ event ∈ (run root debounce steps {}).handed, Queued root steps event := by
  induction steps using List.reverseRecOn with
  | nil => simp [run]
  | append_singleton before s ih =>
    obtain ⟨waiting,handed⟩ := ih
    have earlier : ∀ event, Queued root before event → Queued root (before ++ [s]) event := by
      rintro event ⟨raw,now,member,same⟩
      exact ⟨raw,now,List.mem_append_left _ member,same⟩
    have unfolded : run root debounce (before ++ [s]) {} =
        step root debounce (run root debounce before {}) s := by
      simp [run,List.foldl_append]
    rw [unfolded]
    cases s with
    | raw raw now =>
      rw [step]
      split
      · rename_i event queued
        refine ⟨fun entry found => ?_,fun event found => earlier _ (handed event found)⟩
        rcases Dict.mem_set found with rfl | old
        · exact ⟨raw,now,by simp,queued⟩
        · exact earlier _ (waiting entry old)
      · exact ⟨fun entry found => earlier _ (waiting entry found),
          fun event found => earlier _ (handed event found)⟩
    | tick now =>
      refine ⟨fun entry found => earlier _ (waiting entry (mem_foldl_pop.mp found).1),
        fun event found => ?_⟩
      rcases List.mem_append.mp found with old | due
      · exact earlier _ (handed event old)
      · obtain ⟨entry,member,rfl⟩ := List.mem_map.mp due
        exact earlier _ (waiting entry (List.mem_filter.mp member).1)
    | flush =>
      refine ⟨by simp [step,flush],fun event found => ?_⟩
      rcases List.mem_append.mp found with old | all
      · exact earlier _ (handed event old)
      · obtain ⟨entry,member,rfl⟩ := List.mem_map.mp all
        exact earlier _ (waiting entry member)

/-- Every raw move of the run is queued as its net change in the visible namespace, what is
queued for it is handed on afterwards, and nothing else ever is. -/
structure TellsMoves (root : WatchRoot) (debounce : Int) (steps : List Step) : Prop where
  queued : ∀ rawOld rawNew isDirectory now, Step.raw (.moved rawOld rawNew isDirectory) now ∈
    steps → NetChange root rawOld rawNew isDirectory
      (emit root (.moved rawOld rawNew isDirectory))
  dispatched : ∀ before raw now after event, steps = before ++ .raw raw now :: after →
    emit root raw = some event → ∃ other ∈ (run root debounce (steps ++ [.flush]) {}).handed.drop
      (run root debounce before {}).handed.length, other.key = event.key
  sound : ∀ event ∈ (run root debounce steps {}).handed, Queued root steps event

/-- Whatever the observer reports, and whenever the waiting events are dispatched: the
watcher tells the net change of every move if and only if no move crosses the border between
visible and hidden names. -/
theorem tellsMoves_iff {steps : List Step} :
    TellsMoves root debounce steps ↔
      ∀ rawOld rawNew isDirectory now, Step.raw (.moved rawOld rawNew isDirectory) now ∈ steps →
        (Seen root rawOld ↔ Seen root rawNew) := by
  constructor
  · intro tells rawOld rawNew isDirectory now member
    exact netChange_emitMoved.mp (tells.queued rawOld rawNew isDirectory now member)
  · intro borders
    refine ⟨fun rawOld rawNew isDirectory now member =>
      netChange_emitMoved.mpr (borders rawOld rawNew isDirectory now member),?_,
      (queued_run steps).2⟩
    rintro before raw now after event rfl queued
    have keyed : Keyed (run root debounce before {}) := keyed_run (by simp [Keyed]) before
    have here : Waiting (run root debounce before {}).handed.length event.key
        (step root debounce (run root debounce before {}) (.raw raw now)) := by
      simp only [step,queued]
      exact .inl ⟨_,Dict.set_mem _ _ _,rfl⟩
    have later := (@waiting_run root debounce) (keyed_step keyed _)
      (handed_step _ _).length_le here (after ++ [.flush])
    have whole : run root debounce (before ++ .raw raw now :: after ++ [.flush]) {} =
        run root debounce (after ++ [.flush])
          (step root debounce (run root debounce before {}) (.raw raw now)) := by
      simp [run,List.foldl_append]
    rw [whole]
    rcases later.2.2 with ⟨entry,found,-⟩ | handed
    · simp [run,List.foldl_append,step,flush] at found
    · exact handed

end VaultWatcher

section Update

/-- The Vault at `/v`, on a file system without links. -/
def plainRoot : WatchRoot where
  path := ["v".toList]
  resolve := some

def moveByHand : List VaultWatcher.Step :=
  [.raw (.moved "/v/a.md".toList "/v/b.md".toList false) 0]

/-- A note is updated: the new content is written to a hidden file that then replaces it. -/
def replacing : List VaultWatcher.Step :=
  [.raw (.moved "/v/.localnote-tmp-1".toList "/v/a.md".toList false) 0]

theorem seen_of_normalizeOsPath {root : WatchRoot} {raw : Text}
    (kept : (normalizeOsPath root raw).isSome = true) : Seen root raw := by
  obtain ⟨shown,found⟩ := Option.isSome_iff_exists.mp kept
  exact ⟨shown,normalizeOsPath_iff.mp found⟩

theorem moveByHand_tellsMoves : VaultWatcher.TellsMoves plainRoot 200 moveByHand := by
  refine VaultWatcher.tellsMoves_iff.mpr fun rawOld rawNew isDirectory now member => ?_
  obtain ⟨⟨rfl,rfl,rfl⟩,rfl⟩ : (rawOld = _ ∧ rawNew = _ ∧ isDirectory = _) ∧ now = _ := by
    simpa [moveByHand] using member
  exact ⟨fun _ => seen_of_normalizeOsPath (by decide),
    fun _ => seen_of_normalizeOsPath (by decide)⟩

/-- The replacement of a note is dropped, because the file that replaces it was hidden. -/
theorem replacing_untold : ¬ VaultWatcher.TellsMoves plainRoot 200 replacing := by
  intro tells
  have change := tells.queued _ _ _ _ (List.mem_singleton.mpr rfl)
  have dropped : emit plainRoot (.moved "/v/.localnote-tmp-1".toList "/v/a.md".toList false) =
      none := by decide
  rw [dropped] at change
  cases change with
  | unseen old new => exact new (seen_of_normalizeOsPath (by decide))

end Update

end LocalBook.Vault
