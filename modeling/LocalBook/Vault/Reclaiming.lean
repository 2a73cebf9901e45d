import LocalBook.Vault.Trash

/-! Which detached directories of the trash are found again. A cleanup renames what it has found
once more, to a name that no cleanup looks for: what it has claimed is lost to the trash when its
removal fails or is cut off, and everything else is found and dealt with in the end. -/
namespace LocalBook.Vault

open Effect Trash

namespace TrashName

def home : TrashName → Option Text
  | .holder id | .purge id _ | .delete id _ => some id
  | .gc _ => none

def token : TrashName → Option Nat
  | .holder _ => none
  | .purge _ token | .delete _ token | .gc token => some token

def isGc : TrashName → Bool
  | .gc _ => true
  | _ => false

def isHolder : TrashName → Bool
  | .holder _ => true
  | _ => false

end TrashName

def Generated (id : Text) : Prop := '-' ∉ id ∧ '.' ∉ id

/-- Every entry has its payload in one place, under a name that was drawn for it. -/
structure Bin.Sound (b : Bin) : Prop where
  names : b.names.Nodup
  homes : (b.names.filterMap TrashName.home).Nodup
  drawn : ∀ name ∈ b.names,∀ token ∈ name.token,token < b.drawn
  ids : ∀ name ∈ b.names,∀ id ∈ name.home,Generated id
  listed : ∀ item ∈ b.index,Generated item.id

/-- No claimed directory is on disk. -/
def Bin.Unclaimed (b : Bin) : Prop := ∀ name ∈ b.names,name.isGc = false

/-- What a call may rely on. -/
def Fits (b : Bin) : TrashOp → Prop
  | .rename source target => (target.home = none ∨ target.home = source.home) ∧
    ∀ token ∈ target.token,token < b.drawn
  | .writeIndex items => ∀ item ∈ items,Generated item.id
  | _ => True

section Steps

variable {b b' : Bin} {op : TrashOp} {response : op.Res}

theorem Bin.names_rename (source target : TrashName) : (b.rename source target).names =
    b.names.map fun name => if name = source then target else name := by
  simp only [Bin.names,Bin.rename,List.map_map]
  apply List.map_congr_left
  intro entry _
  by_cases same : entry.name = source <;> simp [same]

theorem Bin.names_remove (name : TrashName) :
    (b.remove name).names = b.names.filter fun other => other ≠ name := by
  simp [Bin.names,Bin.remove,List.filter_map,Function.comp_def]

theorem Bin.names_shrink (name : TrashName) (left : List (Path × Node)) :
    (b.shrink name left).names = b.names := by
  simp only [Bin.names,Bin.shrink,List.map_map]
  apply List.map_congr_left
  intro entry _
  by_cases same : entry.name = name <;> simp [same]

theorem filterMap_sublist {α β : Type} {f g : α → Option β} (l : List α)
    (fewer : ∀ a,f a = g a ∨ f a = none) : (l.filterMap f).Sublist (l.filterMap g) := by
  induction l with
  | nil => simp
  | cons a rest ih =>
    rcases fewer a with same | none
    · rw [List.filterMap_cons,List.filterMap_cons,same]
      cases g a with
      | none => exact ih
      | some value => exact ih.cons_cons value
    · rw [List.filterMap_cons_none none,List.filterMap_cons]
      cases g a with
      | none => exact ih
      | some value => exact ih.cons value

theorem filterMap_unique {α β : Type} {f : α → Option β} {l : List α} {a c : α} {value : β}
    (distinct : (l.filterMap f).Nodup) (first : a ∈ l) (second : c ∈ l) (left : f a = some value)
    (right : f c = some value) : a = c := by
  induction l with
  | nil => cases first
  | cons x rest ih =>
    rw [List.filterMap_cons] at distinct
    rcases List.mem_cons.mp first with rfl | before <;>
      rcases List.mem_cons.mp second with rfl | behind
    · rfl
    · rw [left] at distinct
      exact ((List.nodup_cons.mp distinct).1 (List.mem_filterMap.mpr ⟨c,behind,right⟩)).elim
    · rw [right] at distinct
      exact ((List.nodup_cons.mp distinct).1 (List.mem_filterMap.mpr ⟨a,before,left⟩)).elim
    · refine ih ?_ before behind
      cases here : f x with
      | none => simpa [here] using distinct
      | some value => exact (List.nodup_cons.mp (by simpa [here] using distinct)).2

theorem Bin.Sound.rename {source target : TrashName} (sound : b.Sound)
    (fits : Fits b (.rename source target)) (found : source ∈ b.names)
    (free : target ∉ b.names) : (b.rename source target).Sound := by
  have renamed : ∀ name ∈ (b.rename source target).names,
      name = target ∨ (name ∈ b.names ∧ name ≠ source) := by
    intro name named
    rw [Bin.names_rename,List.mem_map] at named
    obtain ⟨old,there,rfl⟩ := named
    by_cases same : old = source
    · simp [same]
    · simp [same,there]
  refine ⟨?_,?_,?_,?_,sound.listed⟩
  · rw [Bin.names_rename]
    apply sound.names.map_on
    intro a ha c hc equal
    by_cases first : a = source <;> by_cases second : c = source
    · rw [first,second]
    · exact absurd hc (by simp_all)
    · exact absurd ha (by simp_all)
    · simpa [first,second] using equal
  · rw [Bin.names_rename,List.filterMap_map]
    refine sound.homes.sublist (filterMap_sublist _ fun name => ?_)
    by_cases same : name = source
    · rcases fits.1 with none | equal
      · exact .inr (by simp [same,none])
      · exact .inl (by simp [same,equal])
    · exact .inl (by simp [same])
  · intro name named token drawn
    rcases renamed name named with rfl | old
    · exact fits.2 token drawn
    · exact sound.drawn name old.1 token drawn
  · intro name named id belongs
    rcases renamed name named with rfl | old
    · rcases fits.1 with none | equal
      · rw [none] at belongs
        cases belongs
      · exact sound.ids source found id (equal ▸ belongs)
    · exact sound.ids name old.1 id belongs

theorem Bin.Sound.does (sound : b.Sound) (fits : Fits b op)
    (made : TrashOp.Does op b response b') : b'.Sound := by
  cases made with
  | fails => exact sound
  | stops errno left =>
    have same (name : TrashName) (left : List (Path × Node)) : (b.shrink name left).names =
      b.names := Bin.names_shrink name left
    exact ⟨by rw [same]; exact sound.names,by rw [same]; exact sound.homes,
      by rw [same]; exact sound.drawn,by rw [same]; exact sound.ids,sound.listed⟩
  | plain =>
    cases op with
    | ensureRoot | readIndex | glob | blobPath => exact sound
    | writeIndex items => exact ⟨sound.names,sound.homes,sound.drawn,sound.ids,fits⟩
    | uuid =>
      exact ⟨sound.names,sound.homes,fun name named token drawn =>
        Nat.lt_succ_of_lt (sound.drawn name named token drawn),sound.ids,sound.listed⟩
    | lstat name =>
      simp only [TrashOp.step]
      split <;> exact sound
    | rename source target =>
      simp only [TrashOp.step]
      split
      · exact sound
      next found =>
        split
        · exact sound
        next free => exact sound.rename fits (by simpa using found) free
    | rmtree name =>
      simp only [TrashOp.step]
      split
      next found =>
        have fewer : (b.remove name).names.Sublist b.names := by
          rw [Bin.names_remove]
          exact List.filter_sublist
        exact ⟨sound.names.sublist fewer,sound.homes.sublist (fewer.filterMap _),
          fun other named => sound.drawn other (fewer.subset named),
          fun other named => sound.ids other (fewer.subset named),sound.listed⟩
      · exact sound

end Steps

structure Bin.Calm (b : Bin) : Prop where
  sound : b.Sound
  unclaimed : b.Unclaimed

def Spared : Behaviour TrashOp TrashOp.Res Bin := fun op b response b' =>
  TrashOp.Does op b response b' ∧
    ∀ token,op = .lstat (.gc token) ∨ op = .rmtree (.gc token) → ∃ value,response = .ok value

def Mild (b : Bin) (op : TrashOp) : Prop :=
  Fits b op ∧ ∀ source target,op = .rename source target → target.isGc = false

section Calm

variable {b b' : Bin} {op : TrashOp} {response : op.Res}

theorem Bin.Unclaimed.does (unclaimed : b.Unclaimed)
    (mild : ∀ source target,op = .rename source target → target.isGc = false)
    (made : TrashOp.Does op b response b') : b'.Unclaimed := by
  cases made with
  | fails => exact unclaimed
  | stops errno left =>
    intro name named
    rw [Bin.names_shrink] at named
    exact unclaimed name named
  | plain =>
    cases op with
    | ensureRoot | readIndex | writeIndex | glob | uuid | blobPath => exact unclaimed
    | lstat name =>
      simp only [TrashOp.step]
      split <;> exact unclaimed
    | rename source target =>
      simp only [TrashOp.step]
      split
      · exact unclaimed
      · split
        · exact unclaimed
        · intro name named
          rw [Bin.names_rename,List.mem_map] at named
          obtain ⟨old,there,rfl⟩ := named
          by_cases same : old = source
          · rw [if_pos same]
            exact mild source target rfl
          · rw [if_neg same]
            exact unclaimed old there
    | rmtree name =>
      simp only [TrashOp.step]
      split
      · intro other named
        rw [Bin.names_remove] at named
        exact unclaimed other (List.mem_filter.mp named).1
      · exact unclaimed

theorem Bin.Calm.does (calm : b.Calm) (mild : Mild b op) (made : Spared op b response b') :
    b'.Calm := ⟨calm.sound.does mild.1 made.1,calm.unclaimed.does mild.2 made.1⟩

theorem mild_other (other : ∀ source target,op ≠ .rename source target)
    (written : ∀ items,op = .writeIndex items → ∀ item ∈ items,Generated item.id) :
    Mild b op := by
  refine ⟨?_,fun source target same => absurd same (other source target)⟩
  cases op with
  | rename source target => exact absurd rfl (other source target)
  | writeIndex items => exact written items rfl
  | ensureRoot | readIndex | glob | uuid | blobPath | lstat | rmtree => trivial

variable {α : Type} {Q : Except Exc α → Bin → Prop}

theorem always_attempt {report : Errno → Exc} {Q : Except Exc op.Value → Bin → Prop}
    (calm : b.Calm) (mild : Mild b op)
    (good : ∀ value b',Spared op b (.ok value) b' → Q (.ok value) b')
    (bad : ∀ reason b',Q (.error reason) b') :
    Always Spared Bin.Calm (attempt op report) b Q := by
  refine Always.bind (always_perform calm fun response b' made => ⟨calm.does mild made,?_⟩)
  cases response with
  | ok value => exact ⟨calm.does mild made,good value b' made⟩
  | error errno => exact ⟨calm.does mild made,bad _ _⟩

theorem stays_suppressed {P : Unit → Prop} (calm : b.Calm) (mild : Mild b op) (post : P ()) :
    Stays Spared Bin.Calm (suppressed op) b P := by
  refine Always.bind (always_perform calm fun response b' made => ⟨calm.does mild made,?_⟩)
  exact ⟨calm.does mild made,post⟩

theorem stays_attempt {report : Errno → Exc} {P : op.Value → Prop} (calm : b.Calm)
    (mild : Mild b op) (good : ∀ value b',Spared op b (.ok value) b' → P value) :
    Stays Spared Bin.Calm (attempt op report) b P :=
  always_attempt calm mild good fun _ _ => trivial

theorem mild_plain (other : ∀ source target,op ≠ .rename source target)
    (unwritten : ∀ items,op ≠ .writeIndex items) : Mild b op :=
  mild_other other fun items same => absurd same (unwritten items)

namespace TrashService

variable {item : TrashItem} {items : List TrashItem} {limit : Option Nat} {moment : Int}

def Listed (items : List TrashItem) : Prop := ∀ item ∈ items,Generated item.id

theorem stays_loadIndex (calm : b.Calm) : Stays Spared Bin.Calm loadIndex b Listed := by
  refine stays_attempt calm (mild_plain (by simp) (by simp)) fun value b' made => ?_
  cases made.1 with
  | plain => exact calm.sound.listed

theorem stays_writeIndex (calm : b.Calm) (listed : Listed items) :
    Stays Spared Bin.Calm (writeIndex items) b fun _ => True := by
  refine Stays.bind (P := fun _ => True) (stays_attempt calm (mild_plain (by simp) (by simp))
    fun _ _ _ => trivial) fun _ t calm _ => ?_
  refine stays_attempt calm (mild_other (by simp) ?_) fun _ _ _ => trivial
  intro others same
  obtain rfl := TrashOp.writeIndex.inj same
  exact listed

def Belongs (item : TrashItem) (quarantine : Option TrashName) : Prop :=
  ∀ name ∈ quarantine,name.home = some item.id

theorem stays_restoreQuarantine {quarantine : Option TrashName} (calm : b.Calm)
    (belongs : Belongs item quarantine) :
    Stays Spared Bin.Calm (restoreQuarantine item quarantine) b fun _ => True := by
  cases quarantine with
  | none => exact stays_pure calm trivial
  | some name =>
    refine stays_suppressed calm ⟨⟨.inr ?_,by simp [TrashName.token]⟩,?_⟩ trivial
    · rw [belongs name rfl]
      rfl
    · intro source target same
      obtain ⟨rfl,rfl⟩ := TrashOp.rename.inj same
      rfl

/-- A holder renamed to a name that has been drawn for it. -/
theorem stays_moveAside {name : Nat → TrashName} {first second : Errno → Exc} (calm : b.Calm)
    (homes : ∀ token,(name token).home = some item.id)
    (tokens : ∀ token,(name token).token = some token) (kept : ∀ token,(name token).isGc = false) :
    Stays Spared Bin.Calm (do
      let token ← attempt .uuid first
      attempt (.rename (.holder item.id) (name token)) second
      pure (some (name token)) : Trash (Option TrashName)) b (Belongs item) := by
  refine Always.bind (always_attempt calm (mild_plain (by simp) (by simp)) ?_
    fun _ _ => trivial)
  intro (token : Nat) b' made
  have calm := calm.does (mild_plain (by simp) (by simp)) made
  have drawn : token < b'.drawn := by
    cases made.1 with
    | plain => exact Nat.lt_succ_self _
  have mild : Mild b' (.rename (.holder item.id) (name token)) := by
    refine ⟨⟨.inr (homes token),?_⟩,?_⟩
    · intro other found
      rw [tokens] at found
      obtain rfl := Option.some.inj found
      exact drawn
    · intro source target same
      obtain ⟨rfl,rfl⟩ := TrashOp.rename.inj same
      exact kept token
  refine Stays.bind (P := fun _ => True) (stays_attempt calm mild fun _ _ _ => trivial)
    fun _ t calm _ => stays_pure calm ?_
  intro name' same
  obtain rfl := Option.some.inj same
  exact homes token

theorem stays_blobPath (calm : b.Calm) :
    Stays Spared Bin.Calm (blobPath item) b fun _ => True :=
  stays_attempt calm (mild_plain (by simp) (by simp)) fun _ _ _ => trivial

theorem belongs_none : Belongs item none := by simp [Belongs]

theorem stays_quarantinePayload (calm : b.Calm) :
    Stays Spared Bin.Calm (quarantinePayload item) b (Belongs item) := by
  refine Stays.bind (stays_blobPath calm) fun _ t calm _ => ?_
  refine Always.bind (always_perform calm fun response b' made => ?_)
  have calm := calm.does (mild_plain (by simp) (by simp)) made
  refine ⟨calm,?_⟩
  rcases response with errno | value
  · cases errno with
    | enoent => exact stays_pure calm belongs_none
    | _ => exact stays_throw calm
  · exact stays_moveAside calm (fun _ => rfl) (fun _ => rfl) fun _ => rfl

theorem stays_detach (calm : b.Calm) :
    Stays Spared Bin.Calm (detach item) b (Belongs item) := by
  refine Always.bind (always_perform calm fun response b' made => ?_)
  have calm := calm.does (mild_plain (by simp) (by simp)) made
  refine ⟨calm,?_⟩
  rcases response with errno | value
  · exact stays_pure calm belongs_none
  · exact Stays.bind (stays_blobPath calm) fun _ t calm _ =>
      stays_moveAside calm (fun _ => rfl) (fun _ => rfl) fun _ => rfl

def AllBelong (moved : List (TrashItem × Option TrashName)) : Prop :=
  ∀ pair ∈ moved,Belongs pair.1 pair.2

variable {moved : List (TrashItem × Option TrashName)}

theorem allBelong_append {quarantine : Option TrashName} (all : AllBelong moved)
    (belongs : Belongs item quarantine) : AllBelong (moved ++ [(item,quarantine)]) := by
  intro pair found
  rcases List.mem_append.mp found with old | new
  · exact all pair old
  · obtain rfl := List.mem_singleton.mp new
    exact belongs

theorem stays_quarantineEach (calm : b.Calm) (all : AllBelong moved) :
    Stays Spared Bin.Calm (quarantineEach items moved) b fun value => AllBelong value.1 := by
  induction items generalizing b moved with
  | nil => exact stays_pure calm all
  | cons item rest ih =>
    refine Stays.andThen (stays_quarantinePayload calm) fun result t calm found => ?_
    cases result with
    | ok quarantine => exact ih calm (allBelong_append all found)
    | error reason => exact stays_pure calm all

theorem stays_detachEach (calm : b.Calm) (all : AllBelong moved) :
    Stays Spared Bin.Calm (detachEach items moved) b fun value => AllBelong value.1 := by
  induction items generalizing b moved with
  | nil => exact stays_pure calm all
  | cons item rest ih =>
    refine Stays.andThen (stays_detach calm) fun result t calm found => ?_
    rcases result with reason | (_ | name)
    · exact stays_pure calm all
    · exact ih calm all
    · exact ih calm (allBelong_append all found)

theorem stays_restoreEach (calm : b.Calm) (all : AllBelong moved) :
    Stays Spared Bin.Calm (restoreEach moved) b fun _ => True := by
  induction moved generalizing b with
  | nil => exact stays_pure calm trivial
  | cons pair rest ih =>
    exact Stays.bind (stays_restoreQuarantine calm (all pair (by simp))) fun _ t calm _ =>
      ih calm fun pair found => all pair (by simp [found])

theorem stays_removeEach {quarantines : List (Option TrashName)} (calm : b.Calm) :
    Stays Spared Bin.Calm (removeEach quarantines) b fun _ => True := by
  induction quarantines generalizing b with
  | nil => exact stays_pure calm trivial
  | cons first rest ih =>
    cases first with
    | none => exact ih calm
    | some name =>
      exact Stays.bind (P := fun _ => True)
        (stays_suppressed calm (mild_plain (by simp) (by simp)) trivial) fun _ t calm _ => ih calm

theorem stays_undo {reason : Exc} {α : Type} {P : α → Prop} (calm : b.Calm)
    (all : AllBelong moved) : Stays Spared Bin.Calm (do
      restoreEach moved.reverse
      Proc.throw reason : Trash α) b P :=
  Stays.bind (stays_restoreEach calm fun pair found => all pair (by simpa using found))
    fun _ _ calm _ => stays_throw calm

theorem stays_delete (entryId : Text) (calm : b.Calm) :
    Stays Spared Bin.Calm (delete entryId) b fun _ => True := by
  have looked : Stays Spared Bin.Calm (entry entryId) b fun found => Listed found.1 := by
    refine Stays.bind (stays_loadIndex calm) fun items t calm listed => ?_
    split
    · exact stays_pure calm listed
    · exact stays_throw calm
  refine Stays.bind looked fun ⟨items,item⟩ t calm listed => ?_
  refine Stays.bind (stays_quarantinePayload calm) fun quarantine t calm belongs => ?_
  have others : Listed (items.filter fun other => other.id ≠ item.id) :=
    fun other kept => listed other (List.mem_filter.mp kept).1
  refine Stays.bind (P := fun _ => True) (Stays.tryCatch (stays_writeIndex calm others)
    fun reason t calm => Stays.bind (stays_restoreQuarantine calm belongs) fun _ _ calm _ =>
      stays_throw calm) fun _ t calm _ => ?_
  refine Stays.bind (P := fun _ => True) ?_ fun _ t calm _ => stays_pure calm trivial
  cases quarantine with
  | none => exact stays_throw calm
  | some name => exact stays_suppressed calm (mild_plain (by simp) (by simp)) trivial

theorem stays_ofExcept {result : Except Exc Unit} (calm : b.Calm) :
    Stays Spared Bin.Calm (Proc.ofExcept result : Trash Unit) b fun _ => True := by
  cases result <;> exact ⟨calm,trivial⟩

theorem stays_empty (calm : b.Calm) : Stays Spared Bin.Calm empty b fun _ => True := by
  refine Stays.bind (stays_loadIndex calm) fun items t calm _ => ?_
  refine Stays.bind (stays_quarantineEach calm (by simp [AllBelong]))
    fun ⟨quarantined,ended⟩ t calm all => ?_
  refine Stays.bind (P := fun _ => True) (Stays.tryCatch ?_ fun reason t calm =>
    stays_undo calm all) fun _ t calm _ => ?_
  · refine Stays.bind (stays_ofExcept calm) fun _ t calm _ => ?_
    split
    · exact stays_pure calm trivial
    · exact stays_writeIndex calm (by simp [Listed])
  · exact Stays.bind (stays_removeEach calm) fun _ t calm _ => stays_pure calm trivial

variable (s : TrashService)

theorem splitExpired_kept (listed : Listed items) (taken : Nat) :
    Listed (s.splitExpired moment limit items taken).2 := by
  induction items generalizing taken with
  | nil => simp [splitExpired,Listed]
  | cons item rest ih =>
    have later : Listed rest := fun other found => listed other (by simp [found])
    simp only [splitExpired]
    split
    · exact ih later _
    · intro other found
      rcases List.mem_cons.mp found with rfl | found
      · exact listed other (by simp)
      · exact ih later _ other found

theorem stays_purgeExpired (calm : b.Calm) :
    Stays Spared Bin.Calm (s.purgeExpired moment limit) b fun _ => True := by
  refine Stays.bind (P := fun _ => True) (stays_raiseIf calm trivial) fun _ t calm _ => ?_
  refine Stays.bind (stays_loadIndex calm) fun items t calm listed => ?_
  dsimp only
  split
  · exact stays_pure calm trivial
  · refine Stays.bind (stays_detachEach calm (by simp [AllBelong]))
      fun ⟨moved,ended⟩ t calm all => ?_
    refine Stays.bind (P := fun _ => True) (Stays.tryCatch ?_ fun reason t calm =>
      stays_undo calm all) fun _ t calm _ => ?_
    · exact Stays.bind (stays_ofExcept calm) fun _ t calm _ =>
        stays_writeIndex calm (s.splitExpired_kept listed 0)
    · exact Stays.bind (stays_removeEach calm) fun _ t calm _ => stays_pure calm trivial

end TrashService

end Calm

section Names

variable {name : TrashName}

theorem second_of_start (pre : Text) {t : Text} {c : Char} (second : pre[1]? = some c)
    (found : pre <+: t) : t[1]? = some c := by
  obtain ⟨rest,rfl⟩ := found
  have inside : 1 < pre.length := by
    by_contra short
    rw [List.getElem?_eq_none (by omega)] at second
    cases second
  rw [List.getElem?_append_left inside,second]

/-- Only a directory detached by `delete` has a name of that pattern. -/
theorem delete_of_prefix (ids : ∀ id ∈ name.home,Generated id)
    (found : Text.startsWith name.text deleteDirPrefix = true) :
    ∃ id token,name = .delete id token := by
  have found : deleteDirPrefix <+: name.text := by simpa [Text.startsWith] using found
  have second : name.text[1]? = some 'd' := second_of_start _ (by decide) found
  cases name with
  | delete id token => exact ⟨id,token,rfl⟩
  | purge id token =>
    have other : (TrashName.purge id token).text[1]? = some 'p' := by
      apply second_of_start purgeDirPrefix (by decide)
      simp only [TrashName.text,List.append_assoc,List.prefix_append]
    simp [second] at other
  | gc token =>
    have other : (TrashName.gc token).text[1]? = some 'g' := by
      apply second_of_start ".gc-".toList (by decide)
      simp only [TrashName.text,List.prefix_append]
    simp [second] at other
  | holder id =>
    have found : deleteDirPrefix <+: id := found
    have dot : '.' ∈ id := found.subset (by decide)
    exact absurd dot (ids _ rfl).2

theorem identifier_delete {id : Text} (plain : '-' ∉ id) (token : Nat) :
    (TrashName.delete id token).identifier = id := by
  have text : (TrashName.delete id token).text.drop deleteDirPrefix.length =
      id ++ '-' :: hex token := by simp [TrashName.text,List.append_assoc]
  rw [TrashName.identifier,text,Text.split,List.splitOn_append_cons_self,
    List.splitOn_eq_singleton plain]
  rfl

theorem detached_of_globbed (ids : ∀ id ∈ name.home,Generated id) (found : name.globbed = true) :
    name.isGc = false ∧ name.isHolder = false := by
  have found : purgeDirPrefix <+: name.text ∨ deleteDirPrefix <+: name.text := by
    simpa [TrashName.globbed,Text.startsWith] using found
  have second : name.text[1]? = some 'p' ∨ name.text[1]? = some 'd' :=
    found.imp (second_of_start _ (by decide)) (second_of_start _ (by decide))
  cases name with
  | delete id token | purge id token => exact ⟨rfl,rfl⟩
  | gc token =>
    have other : (TrashName.gc token).text[1]? = some 'g' := by
      apply second_of_start ".gc-".toList (by decide)
      simp only [TrashName.text,List.prefix_append]
    simp [other] at second
  | holder id =>
    have dot : '.' ∈ id := found.elim (fun found => (found : purgeDirPrefix <+: id).subset
      (by decide)) fun found => (found : deleteDirPrefix <+: id).subset (by decide)
    exact absurd dot (ids _ rfl).2

theorem not_globbed_gc (token : Nat) : (TrashName.gc token).globbed = false := by
  by_contra found
  have ids : ∀ id ∈ (TrashName.gc token).home,Generated id := by simp [TrashName.home]
  have detached := detached_of_globbed ids (Bool.eq_true_of_not_eq_false found)
  cases detached.1

theorem globbed_of_detached (claimed : name.isGc = false) (holder : name.isHolder = false) :
    name.globbed = true := by
  cases name with
  | holder id => cases holder
  | gc token => cases claimed
  | purge id token =>
    simp [TrashName.globbed,TrashName.text,Text.startsWith,List.append_assoc]
  | delete id token =>
    simp [TrashName.globbed,TrashName.text,Text.startsWith,List.append_assoc]

end Names

section Cleaning

variable {b b' : Bin} {claimed old : List TrashName} {name : TrashName}

def Tracked (b : Bin) (claimed : List TrashName) : Prop :=
  ∀ name ∈ b.names,name.isGc = true → name ∈ claimed

theorem tracked_nil : Tracked b [] ↔ b.Unclaimed := by
  simp [Tracked,Bin.Unclaimed]

theorem Tracked.does {op : TrashOp} {response : op.Res} (tracked : Tracked b claimed)
    (mild : ∀ source target,op = .rename source target → target.isGc = false)
    (made : TrashOp.Does op b response b') : Tracked b' claimed := by
  have kept : ∀ name ∈ b'.names,name.isGc = true → name ∈ b.names := by
    intro name named gc
    cases made with
    | fails => exact named
    | stops errno left =>
      rw [Bin.names_shrink] at named
      exact named
    | plain =>
      cases op with
      | ensureRoot | readIndex | writeIndex | glob | uuid | blobPath => exact named
      | lstat other =>
        simp only [TrashOp.step] at named
        split at named <;> exact named
      | rename source target =>
        simp only [TrashOp.step] at named
        split at named
        · exact named
        · split at named
          · exact named
          · rw [Bin.names_rename,List.mem_map] at named
            obtain ⟨other,there,rfl⟩ := named
            by_cases same : other = source
            · rw [if_pos same,mild source target rfl] at gc
              cases gc
            · rwa [if_neg same]
      | rmtree other =>
        simp only [TrashOp.step] at named
        split at named
        · rw [Bin.names_remove] at named
          exact (List.mem_filter.mp named).1
        · exact named
  exact fun name named gc => tracked name (kept name named gc) gc

theorem Tracked.claim {token : Nat} {response : Except Errno Unit} (tracked : Tracked b old)
    (made : TrashOp.Does (.rename name (.gc token)) b response b') :
    (response = .ok () ∧ Tracked b' (old ++ [.gc token])) ∨
      ((∃ errno,response = .error errno) ∧ Tracked b' old) := by
  cases made with
  | fails errno => exact .inr ⟨⟨errno,rfl⟩,tracked⟩
  | plain =>
    simp only [TrashOp.step]
    split
    · exact .inr ⟨⟨_,rfl⟩,tracked⟩
    · split
      · exact .inr ⟨⟨_,rfl⟩,tracked⟩
      · refine .inl ⟨rfl,fun other named gc => ?_⟩
        rw [Bin.names_rename,List.mem_map] at named
        obtain ⟨before,there,rfl⟩ := named
        by_cases same : before = name
        · simp [same]
        · rw [if_neg same] at gc ⊢
          exact List.mem_append_left _ (tracked before there gc)

namespace TrashService

theorem always_claim {indexedIds : List Text} (sound : b.Sound) (tracked : Tracked b old)
    (ids : ∀ id ∈ name.home,Generated id) :
    Always Spared Bin.Sound (claim indexedIds name) b fun result b' =>
      ∃ found,result = .ok found ∧ (∀ claimed ∈ found,claimed.isGc = true) ∧
        Tracked b' (old ++ found.toList) := by
  unfold claim
  split
  next pattern =>
    obtain ⟨id,token,rfl⟩ := delete_of_prefix ids pattern.1
    have own : (TrashName.delete id token).identifier = id :=
      identifier_delete (ids id rfl).1 token
    refine Always.bind (Always.bind (always_perform sound fun response b' made => ?_))
    have fits : Fits b (.rename (.delete id token)
        (.holder (TrashName.delete id token).identifier)) := by
      rw [own]
      exact ⟨.inr rfl,by simp [TrashName.token]⟩
    have sound := sound.does fits made.1
    have tracked := tracked.does (fun source target same => by
      obtain ⟨_,rfl⟩ := TrashOp.rename.inj same
      rfl) made.1
    exact ⟨sound,sound,sound,none,rfl,by simp,by simpa using tracked⟩
  · refine Always.bind (Always.bind (always_perform sound fun response b' made => ?_))
    have tracked := tracked.does (by simp) made.1
    have later := sound.does (by trivial) made.1
    cases made.1 with
    | fails errno mayFail => exact absurd rfl mayFail
    | plain =>
      refine ⟨later,later,?_⟩
      refine Always.bind (always_perform later fun response b'' made => ?_)
      have fits : Fits {b with drawn := b.drawn + 1} (.rename name (.gc b.drawn)) :=
        ⟨.inl rfl,by simp [TrashName.token]⟩
      have sound := later.does fits made.1
      rcases tracked.claim made.1 with ⟨rfl,tracked⟩ | ⟨⟨errno,rfl⟩,tracked⟩
      · exact ⟨sound,sound,_,rfl,by simp [TrashName.isGc],tracked⟩
      · exact ⟨sound,sound,none,rfl,by simp,by simpa using tracked⟩

theorem always_claimEach {indexedIds : List Text} {found : List TrashName} (sound : b.Sound)
    (tracked : Tracked b old) (ids : ∀ name ∈ found,∀ id ∈ name.home,Generated id) :
    Always Spared Bin.Sound (claimEach indexedIds found) b fun result b' =>
      ∃ claimed,result = .ok claimed ∧ (∀ name ∈ claimed,name.isGc = true) ∧
        Tracked b' (old ++ claimed) := by
  induction found generalizing b old with
  | nil => exact ⟨sound,[],rfl,by simp,by simpa using tracked⟩
  | cons name rest ih =>
    refine Always.bind ((always_claim sound tracked (ids name (by simp))).imp
      fun result b sound done => ?_)
    obtain ⟨first,rfl,gcs,tracked⟩ := done
    refine Always.bind ((ih sound tracked fun other there => ids other (by simp [there])).imp
      fun result b sound done => ?_)
    obtain ⟨later,rfl,others,tracked⟩ := done
    refine ⟨sound,first.toList ++ later,rfl,?_,by simpa [List.append_assoc] using tracked⟩
    intro other there
    rcases List.mem_append.mp there with here | here
    · exact gcs other (by simpa using here)
    · exact others other here

omit old claimed in
theorem gone_of_removed {response : Except Errno Unit}
    (made : TrashOp.Does (.rmtree name) b response b') (removed : response = .ok ()) :
    ∀ other ∈ b'.names,other ∈ b.names ∧ other ≠ name := by
  cases made with
  | fails errno => cases removed
  | stops errno left => cases removed
  | plain =>
    by_cases found : name ∈ b.names
    · intro other named
      simp only [TrashOp.step,if_pos found,Bin.names_remove] at named
      simpa using List.mem_filter.mp named
    · simp [TrashOp.step,found] at removed

theorem always_removeClaim {token : Nat} {rest : List TrashName} (sound : b.Sound)
    (tracked : Tracked b (.gc token :: rest)) :
    Always Spared Bin.Sound (removeClaim (.gc token)) b fun result b' =>
      (∃ removed,result = .ok removed) ∧ Tracked b' rest := by
  refine Always.bind (always_perform sound fun response b' made => ?_)
  have sound := sound.does (by trivial) made.1
  have tracked := tracked.does (by simp) made.1
  obtain ⟨_,rfl⟩ := made.2 token (.inl rfl)
  refine ⟨sound,Always.bind (always_perform sound fun response b'' made => ?_)⟩
  have later := sound.does (by trivial) made.1
  obtain ⟨_,rfl⟩ := made.2 token (.inr rfl)
  refine ⟨later,later,⟨1,rfl⟩,?_⟩
  intro name named gc
  obtain ⟨before,other⟩ := gone_of_removed made.1 rfl name named
  exact (List.mem_cons.mp (tracked name before gc)).resolve_left other

theorem always_removeClaimed (sound : b.Sound) (tracked : Tracked b claimed)
    (gcs : ∀ name ∈ claimed,name.isGc = true) :
    Always Spared Bin.Sound (removeClaimed claimed) b fun _ b' => b'.Unclaimed := by
  induction claimed generalizing b with
  | nil => exact ⟨sound,tracked_nil.mp tracked⟩
  | cons name rest ih =>
    obtain ⟨token,rfl⟩ : ∃ token,name = .gc token := by
      have gc := gcs name (by simp)
      cases name with
      | gc token => exact ⟨token,rfl⟩
      | holder | purge | delete => cases gc
    refine Always.bind ((always_removeClaim sound tracked).imp fun result b sound done => ?_)
    obtain ⟨⟨removed,rfl⟩,gone⟩ := done
    refine Always.bind ((ih sound gone fun other there => gcs other (by simp [there])).imp
      fun result b sound done => ?_)
    cases result with
    | ok _ => exact ⟨sound,done⟩
    | error reason => exact done

theorem stays_cleanable {limit : Nat} (calm : b.Calm) :
    Stays Spared Bin.Calm (cleanable limit) b fun found =>
      ∀ name ∈ found.1,∀ id ∈ name.home,Generated id := by
  refine Stays.bind (P := fun _ => True) (stays_attempt calm (mild_plain (by simp) (by simp))
    fun _ _ _ => trivial) fun _ t calm _ => ?_
  refine Stays.bind (P := fun found : List TrashName => ∀ name ∈ found,∀ id ∈ name.home,
    Generated id) (stays_attempt calm (mild_plain (by simp) (by simp)) fun value b' made => ?_)
    fun found t calm ids => ?_
  · cases made.1 with
    | plain => exact fun name there => calm.sound.ids name (List.mem_filter.mp there).1
  · refine Stays.bind (stays_loadIndex calm) fun items t calm _ => stays_pure calm ?_
    intro name there
    exact ids name ((List.mem_insertionSort _).mp (List.mem_of_mem_take there))

/-- A cleanup ends with nothing claimed on disk. -/
theorem always_cleanQuarantine {limit : Nat} (calm : b.Calm) :
    Always Spared Bin.Sound (cleanQuarantine limit) b fun _ b' => b'.Unclaimed := by
  have first : Always Spared Bin.Sound (cleanable limit) b fun result t => t.Calm ∧
      Gives (fun found => ∀ name ∈ found.1,∀ id ∈ name.home,Generated id) result :=
    ((stays_cleanable calm).imp fun result t calm post => ⟨calm,post⟩).mono fun t calm => calm.sound
  refine Always.andThen (first.imp fun result t sound found => ?_)
  obtain ⟨calm,ids⟩ := found
  rcases result with reason | ⟨entries,indexedIds⟩
  · exact ⟨sound,calm.unclaimed⟩
  · have empty : Tracked t [] := tracked_nil.mpr calm.unclaimed
    refine Always.bind ((always_claimEach sound empty ids).imp fun result t sound done => ?_)
    obtain ⟨claimed,rfl,gcs,tracked⟩ := done
    exact always_removeClaimed sound (by simpa using tracked) gcs

end TrashService

end Cleaning

section Passes

open TrashService

variable {b : Bin} {name : TrashName} {indexedIds : List Text}

theorem run_attempt {op : TrashOp} {report : Errno → Exc} {value : op.Value}
    (answer : (op.step b).1 = .ok value) :
    run TrashOp.step (attempt op report) b = (.ok value,(op.step b).2) := by
  simp [attempt,run_bind,answer]

theorem step_rename {target : TrashName} (found : name ∈ b.names) (free : target ∉ b.names) :
    TrashOp.step (.rename name target) b = (.ok (),b.rename name target) := by
  simp [TrashOp.step,found,free]

def cleanName (b : Bin) (indexedIds : List Text) (name : TrashName) : TrashName :=
  if Text.startsWith name.text deleteDirPrefix ∧ name.identifier ∈ indexedIds then
    .holder name.identifier
  else .gc b.drawn

theorem cleanName_free (sound : b.Sound) (found : name ∈ b.names) :
    cleanName b indexedIds name ∉ b.names := by
  unfold cleanName
  split
  next pattern =>
    obtain ⟨id,token,rfl⟩ := delete_of_prefix (sound.ids name found) pattern.1
    rw [identifier_delete (sound.ids _ found id rfl).1]
    intro holder
    cases filterMap_unique sound.homes found holder rfl rfl
  · intro claimed
    exact absurd (sound.drawn _ claimed b.drawn rfl) (Nat.lt_irrefl _)

theorem run_claim (sound : b.Sound) (found : name ∈ b.names) :
    ∃ claimed : Option TrashName,
      (∀ other ∈ claimed,other = .gc b.drawn ∧ cleanName b indexedIds name = .gc b.drawn) ∧
      (claimed = none → ∃ id token,name = .delete id token ∧ id ∈ indexedIds ∧
        cleanName b indexedIds name = .holder id) ∧
      ∃ drawn,b.drawn ≤ drawn ∧ (claimed ≠ none → b.drawn < drawn) ∧
        run TrashOp.step (claim indexedIds name) b = (.ok claimed,
          {b.rename name (cleanName b indexedIds name) with drawn}) := by
  have free : cleanName b indexedIds name ∉ b.names := cleanName_free sound found
  unfold cleanName at free ⊢
  by_cases pattern : Text.startsWith name.text deleteDirPrefix = true ∧
      name.identifier ∈ indexedIds
  · obtain ⟨id,token,rfl⟩ := delete_of_prefix (sound.ids name found) pattern.1
    have own := identifier_delete (sound.ids _ found id rfl).1 token
    rw [if_pos pattern] at free ⊢
    refine ⟨none,by simp,fun _ => ⟨id,token,rfl,own ▸ pattern.2,by rw [own]⟩,b.drawn,le_refl _,
      by simp,?_⟩
    simp only [claim,if_pos pattern,suppressed,run_bind,run_perform,step_rename found free,run_pure]
    rfl
  · rw [if_neg pattern] at free ⊢
    refine ⟨some (.gc b.drawn),by simp,by simp,b.drawn + 1,Nat.le_succ _,fun _ =>
      Nat.lt_succ_self _,?_⟩
    have drawn : run TrashOp.step (attempt .uuid fun errno => Exc.os errno) b =
      (.ok b.drawn,{b with drawn := b.drawn + 1}) := run_attempt rfl
    have renamed : TrashOp.step (.rename name (.gc b.drawn)) {b with drawn := b.drawn + 1} =
      (.ok (),({b with drawn := b.drawn + 1} : Bin).rename name (.gc b.drawn)) :=
        step_rename found free
    simp only [claim,if_neg pattern,run_bind,drawn,run_perform,renamed,run_pure]
    rfl

/-- What the claiming of `found` makes of the entries. -/
structure Claims (b : Bin) (indexedIds : List Text) (found claimed : List TrashName)
    (b' : Bin) : Prop where
  sound : b'.Sound
  index : b'.index = b.index
  from' : ∀ entry ∈ b'.entries,(entry ∈ b.entries ∧ entry.name ∉ found) ∨ entry.name ∈ claimed ∨
    ∃ id token,entry.name = .holder id ∧ ⟨.delete id token,entry.nodes⟩ ∈ b.entries ∧
      .delete id token ∈ found ∧ id ∈ indexedIds
  kept : ∀ entry ∈ b.entries,entry.name ∉ found → entry ∈ b'.entries
  gcs : ∀ name ∈ claimed,name ∈ b'.names ∧ ∃ token,name = .gc token ∧ b.drawn ≤ token
  distinct : claimed.Nodup

theorem mem_rename {source target : TrashName} {entry : TrashEntry} :
    entry ∈ (b.rename source target).entries ↔
      (entry ∈ b.entries ∧ entry.name ≠ source) ∨
        (entry.name = target ∧ ⟨source,entry.nodes⟩ ∈ b.entries) := by
  simp only [Bin.rename,List.mem_map]
  constructor
  · rintro ⟨old,there,rfl⟩
    by_cases same : old.name = source
    · right
      subst same
      simpa using there
    · left
      simpa [same] using there
  · rintro (⟨there,other⟩ | ⟨same,there⟩)
    · exact ⟨entry,there,by simp [other]⟩
    · refine ⟨_,there,?_⟩
      cases entry
      simp_all

theorem cleanName_sound (sound : b.Sound) (found : name ∈ b.names) {drawn : Nat}
    (later : b.drawn ≤ drawn) (claims : cleanName b indexedIds name = .gc b.drawn → b.drawn < drawn) :
    ({b.rename name (cleanName b indexedIds name) with drawn} : Bin).Sound := by
  have free : cleanName b indexedIds name ∉ b.names := cleanName_free sound found
  let ahead : Bin := {b with drawn}
  have ready : ahead.Sound := ⟨sound.names,sound.homes,fun other named token drawn =>
    (sound.drawn other named token drawn).trans_le later,sound.ids,sound.listed⟩
  have fits : Fits ahead (.rename name (cleanName b indexedIds name)) := by
    unfold cleanName at claims ⊢
    split
    next pattern =>
      obtain ⟨id,token,rfl⟩ := delete_of_prefix (sound.ids name found) pattern.1
      rw [identifier_delete (sound.ids _ found id rfl).1]
      exact ⟨.inr rfl,by simp [TrashName.token]⟩
    next other =>
      rw [if_neg other] at claims
      exact ⟨.inl rfl,by simpa [TrashName.token] using claims rfl⟩
  exact ready.rename fits found free

theorem Claims.cons {rest claimed : List TrashName} {b' : Bin} {claim : Option TrashName}
    {drawn : Nat} (others : Claims {b.rename name (cleanName b indexedIds name) with drawn}
      indexedIds rest claimed b')
    (claims : ∀ other ∈ claim,other = .gc b.drawn ∧ cleanName b indexedIds name = .gc b.drawn)
    (returned : claim = none → ∃ id token,name = .delete id token ∧ id ∈ indexedIds ∧
      cleanName b indexedIds name = .holder id) (later : b.drawn ≤ drawn)
    (beyond : claim ≠ none → b.drawn < drawn) (here : name ∈ b.names)
    (kept : ∀ token,.gc token ∉ name :: rest) (fresh : name ∉ rest) :
    Claims b indexedIds (name :: rest) (claim.toList ++ claimed) b' := by
  have cleaned : (∃ token,cleanName b indexedIds name = .gc token) ∨
      ∃ id,cleanName b indexedIds name = .holder id := by
    unfold cleanName
    split
    · exact .inr ⟨_,rfl⟩
    · exact .inl ⟨_,rfl⟩
  refine ⟨others.sound,others.index,?_,?_,?_,?_⟩
  · intro entry there
    rcases others.from' entry there with ⟨old,outside⟩ | among | ⟨id,token,same,old,named,listed⟩
    · rcases mem_rename.mp old with ⟨old,other⟩ | ⟨same,old⟩
      · exact .inl ⟨old,by simp [other,outside]⟩
      · cases claim with
        | none =>
          obtain ⟨id,token,rfl,listed,holder⟩ := returned rfl
          exact .inr (.inr ⟨id,token,same.trans holder,old,by simp,listed⟩)
        | some other =>
          obtain ⟨rfl,gc⟩ := claims other rfl
          exact .inr (.inl (by simp [same,gc]))
    · exact .inr (.inl (List.mem_append_right _ among))
    · rcases mem_rename.mp old with ⟨old,other⟩ | ⟨equal,_⟩
      · exact .inr (.inr ⟨id,token,same,old,by simp [named],listed⟩)
      · rcases cleaned with ⟨_,gc⟩ | ⟨_,holder⟩
        · simp [gc] at equal
        · simp [holder] at equal
  · intro entry there outside
    rw [List.mem_cons,not_or] at outside
    exact others.kept entry (mem_rename.mpr (.inl ⟨there,outside.1⟩)) outside.2
  · intro other among
    rcases List.mem_append.mp among with first | among
    · obtain ⟨rfl,gc⟩ := claims other (by simpa using first)
      obtain ⟨entry,there,named⟩ := List.mem_map.mp here
      have moved : (⟨.gc b.drawn,entry.nodes⟩ : TrashEntry) ∈
          (b.rename name (cleanName b indexedIds name)).entries := by
        refine mem_rename.mpr (.inr ⟨gc.symm,?_⟩)
        rw [← named]
        exact there
      have stays := others.kept _ moved fun inside => kept b.drawn (by simp [inside])
      exact ⟨List.mem_map.mpr ⟨_,stays,rfl⟩,b.drawn,rfl,le_refl _⟩
    · obtain ⟨present,token,same,bound⟩ := others.gcs other among
      exact ⟨present,token,same,later.trans bound⟩
  · cases claim with
    | none => exact others.distinct
    | some other =>
      obtain ⟨rfl,_⟩ := claims other rfl
      refine List.nodup_cons.mpr ⟨fun among => ?_,others.distinct⟩
      obtain ⟨_,token,same,bound⟩ := others.gcs _ among
      obtain rfl := TrashName.gc.inj same
      exact absurd (beyond (by simp)) (Nat.not_lt.mpr bound)

theorem run_claimEach {found : List TrashName} (sound : b.Sound) (distinct : found.Nodup)
    (present : ∀ name ∈ found,name ∈ b.names) (detached : ∀ name ∈ found,name.globbed = true) :
    ∃ claimed b',run TrashOp.step (claimEach indexedIds found) b = (.ok claimed,b') ∧
      Claims b indexedIds found claimed b' := by
  induction found generalizing b with
  | nil => exact ⟨[],b,rfl,sound,rfl,fun entry there => .inl ⟨there,by simp⟩,
      fun entry there _ => there,by simp,by simp⟩
  | cons name rest ih =>
    obtain ⟨fresh,distinct⟩ := List.nodup_cons.mp distinct
    have here := present name (by simp)
    obtain ⟨claim,claims,returned,drawn,later,beyond,first⟩ :=
      @run_claim b name indexedIds sound here
    have moved : ({b.rename name (cleanName b indexedIds name) with drawn} : Bin).Sound := by
      refine cleanName_sound sound here later fun claimed => beyond fun none => ?_
      obtain ⟨id,_,_,_,same⟩ := returned none
      rw [claimed] at same
      cases same
    have others : ∀ other ∈ rest,other ∈
        ({b.rename name (cleanName b indexedIds name) with drawn} : Bin).names := by
      intro other there
      have old := present other (by simp [there])
      change other ∈ (b.rename name _).names
      rw [Bin.names_rename]
      exact List.mem_map.mpr ⟨other,old,by
        rw [if_neg]
        rintro rfl
        exact fresh there⟩
    obtain ⟨claimed,b',second,rest'⟩ := ih moved distinct others
      fun other there => detached other (by simp [there])
    refine ⟨claim.toList ++ claimed,b',?_,?_⟩
    · simp only [claimEach,run_bind,first,second,run_pure]
    · exact rest'.cons claims returned later beyond here
        (fun token named => by
          have globbed := detached _ named
          rw [not_globbed_gc] at globbed
          cases globbed) fresh

theorem run_removeClaimed {claimed : List TrashName} (distinct : claimed.Nodup)
    (present : ∀ name ∈ claimed,name ∈ b.names) :
    ∃ removed b',run TrashOp.step (removeClaimed claimed) b = (.ok removed,b') ∧
      b'.entries = b.entries.filter (fun entry => entry.name ∉ claimed) ∧ b'.index = b.index ∧
      b'.drawn = b.drawn := by
  induction claimed generalizing b with
  | nil => exact ⟨0,b,rfl,by simp,rfl,rfl⟩
  | cons name rest ih =>
    obtain ⟨fresh,distinct⟩ := List.nodup_cons.mp distinct
    have here := present name (by simp)
    have first : run TrashOp.step (removeClaim name) b = (.ok 1,b.remove name) := by
      simp [removeClaim,run_bind,TrashOp.step,here]
    have others : ∀ other ∈ rest,other ∈ (b.remove name).names := by
      intro other there
      rw [Bin.names_remove]
      refine List.mem_filter.mpr ⟨present other (by simp [there]),?_⟩
      simp only [ne_eq,decide_eq_true_eq]
      rintro rfl
      exact fresh there
    obtain ⟨removed,b',second,entries,index,drawn⟩ := ih distinct others
    refine ⟨1 + removed,b',?_,?_,index,drawn⟩
    · simp only [removeClaimed,run_bind,first,second,run_pure]
    · rw [entries,Bin.remove,List.filter_filter]
      apply List.filter_congr
      intro entry _
      simp [Bool.and_comm]

/-- A cleanup that nothing disturbs. -/
def cleaned (b : Bin) : Bin :=
  (run TrashOp.step (cleanQuarantine defaultPurgeBatchSize) b).2

/-- The directories a cleanup finds, of which it takes the first ones. -/
def found (b : Bin) : List TrashName :=
  ((b.names.filter TrashName.globbed).insertionSort fun a c => a.text ≤ c.text).take
    defaultPurgeBatchSize

theorem cleaned_claims (calm : b.Calm) : ∃ claimed b',
    Claims b (b.index.map TrashItem.id) (found b) claimed b' ∧
      (cleaned b).entries = b'.entries.filter (fun entry => entry.name ∉ claimed) ∧
      (cleaned b).index = b.index ∧ (cleaned b).drawn = b'.drawn := by
  have globbed : ∀ name ∈ found b,name ∈ b.names ∧ name.globbed = true := by
    intro name there
    have listed := (List.mem_insertionSort _).mp (List.mem_of_mem_take there)
    exact List.mem_filter.mp listed
  have distinct : (found b).Nodup := by
    refine (List.Nodup.sublist (List.take_sublist _ _) ?_)
    exact (List.perm_insertionSort _ _).nodup_iff.mpr (calm.sound.names.filter _)
  obtain ⟨claimed,b',first,claims⟩ := @run_claimEach b (b.index.map TrashItem.id) (found b)
    calm.sound distinct (fun name there => (globbed name there).1)
    fun name there => (globbed name there).2
  obtain ⟨removed,b'',second,entries,index,drawn⟩ := run_removeClaimed claims.distinct
    fun name there => (claims.gcs name there).1
  have prepared : run TrashOp.step (cleanable defaultPurgeBatchSize) b =
      (.ok (found b,b.index.map TrashItem.id),b) := rfl
  have whole : cleaned b = b'' := by
    rw [cleaned,cleanQuarantine,run_andThen,prepared]
    simp only [run_bind,first,second]
  rw [whole]
  exact ⟨claimed,b',claims,entries,index.trans claims.index,drawn⟩

/-- Cleanups have dealt with every detached directory: what the index still lists is back in its
place, the others are gone. -/
structure Reclaimed (b b' : Bin) : Prop where
  none : ∀ name ∈ b'.names,name.isHolder = true
  from' : ∀ entry ∈ b'.entries,entry ∈ b.entries ∨ ∃ id token,entry.name = .holder id ∧
    ⟨.delete id token,entry.nodes⟩ ∈ b.entries ∧ id ∈ b.index.map TrashItem.id
  kept : ∀ entry ∈ b.entries,entry.name.isHolder = true → entry ∈ b'.entries

/-- Later cleanups find every detached directory. -/
def Reclaimable (b : Bin) : Prop := ∃ passes,Reclaimed b (cleaned^[passes] b)

theorem cleaned_calm (calm : b.Calm) : (cleaned b).Calm := by
  obtain ⟨claimed,b',claims,entries,index,drawn⟩ := cleaned_claims calm
  have names : (cleaned b).names = b'.names.filter (· ∉ claimed) := by
    simp [Bin.names,entries,List.filter_map,Function.comp_def]
  have fewer : (cleaned b).names.Sublist b'.names := by
    rw [names]
    exact List.filter_sublist
  refine ⟨⟨claims.sound.names.sublist fewer,claims.sound.homes.sublist (fewer.filterMap _),
    fun name there => ?_,fun name there => claims.sound.ids name (fewer.subset there),?_⟩,?_⟩
  · rw [drawn]
    exact claims.sound.drawn name (fewer.subset there)
  · rw [index]
    exact calm.sound.listed
  · intro name there
    rw [names] at there
    obtain ⟨there,unclaimed⟩ := List.mem_filter.mp there
    obtain ⟨entry,listed,rfl⟩ := List.mem_map.mp there
    rcases claims.from' entry listed with ⟨old,_⟩ | among | ⟨id,token,same,_⟩
    · exact calm.unclaimed _ (List.mem_map.mpr ⟨entry,old,rfl⟩)
    · exact absurd among (by simpa using unclaimed)
    · rw [same]
      rfl

def waiting (b : Bin) : Nat := (b.names.filter TrashName.globbed).length

theorem cleaned_waiting (calm : b.Calm) (some_waiting : waiting b ≠ 0) :
    waiting (cleaned b) < waiting b := by
  obtain ⟨claimed,b',claims,entries,_,_⟩ := cleaned_claims calm
  obtain ⟨first,there⟩ : ∃ first,first ∈ found b := by
    have length : (found b).length ≠ 0 := by
      simp only [found,List.length_take,List.length_insertionSort,defaultPurgeBatchSize]
      change min 16 (waiting b) ≠ 0
      omega
    exact List.exists_mem_of_length_pos (by omega)
  have here : first ∈ b.names.filter TrashName.globbed :=
    (List.mem_insertionSort _).mp (List.mem_of_mem_take there)
  have inside : (cleaned b).names.filter TrashName.globbed ⊆
      (b.names.filter TrashName.globbed).erase first := by
    intro name named
    obtain ⟨named,globbed⟩ := List.mem_filter.mp named
    obtain ⟨entry,listed,rfl⟩ := List.mem_map.mp named
    rw [entries] at listed
    obtain ⟨listed,unclaimed⟩ := List.mem_filter.mp listed
    rcases claims.from' entry listed with ⟨old,outside⟩ | among | ⟨id,token,same,_⟩
    · refine (List.mem_erase_of_ne ?_).mpr (List.mem_filter.mpr ⟨List.mem_map.mpr
        ⟨entry,old,rfl⟩,globbed⟩)
      rintro rfl
      exact outside there
    · exact absurd among (by simpa using unclaimed)
    · have ids := claims.sound.ids entry.name (List.mem_map.mpr ⟨entry,listed,rfl⟩)
      have holder := (detached_of_globbed ids globbed).2
      rw [same] at holder
      cases holder
  have distinct : ((cleaned b).names.filter TrashName.globbed).Nodup :=
    (cleaned_calm calm).sound.names.filter _
  have fits := (List.subperm_of_subset distinct inside).length_le
  rw [List.length_erase_of_mem here] at fits
  have positive := List.length_pos_of_mem here
  simp only [waiting]
  omega

theorem reclaimed_none (calm : b.Calm) (empty : waiting b = 0) : Reclaimed b b := by
  refine ⟨fun name there => ?_,fun entry there => .inl there,fun entry there _ => there⟩
  by_contra detached
  have globbed := globbed_of_detached (calm.unclaimed name there)
    (Bool.eq_false_iff.mpr detached)
  have listed := List.mem_filter.mpr ⟨there,globbed⟩
  rw [List.eq_nil_of_length_eq_zero empty] at listed
  cases listed

theorem Reclaimed.step {b' : Bin} (calm : b.Calm) (later : Reclaimed (cleaned b) b') :
    Reclaimed b b' := by
  obtain ⟨claimed,middle,claims,entries,index,_⟩ := cleaned_claims calm
  have origin : ∀ entry ∈ (cleaned b).entries,entry ∈ b.entries ∨
      ∃ id token,entry.name = .holder id ∧ ⟨.delete id token,entry.nodes⟩ ∈ b.entries ∧
        id ∈ b.index.map TrashItem.id := by
    intro entry there
    rw [entries] at there
    obtain ⟨there,unclaimed⟩ := List.mem_filter.mp there
    rcases claims.from' entry there with ⟨old,_⟩ | among | ⟨id,token,same,old,_,listed⟩
    · exact .inl old
    · exact absurd among (by simpa using unclaimed)
    · exact .inr ⟨id,token,same,old,listed⟩
  refine ⟨later.none,fun entry there => ?_,fun entry there holder => ?_⟩
  · rcases later.from' entry there with old | ⟨id,token,same,old,listed⟩
    · exact origin entry old
    · rcases origin _ old with old | ⟨_,_,equal,_⟩
      · exact .inr ⟨id,token,same,old,index ▸ listed⟩
      · cases equal
  · refine later.kept entry ?_ holder
    have ids := calm.sound.ids entry.name (List.mem_map.mpr ⟨entry,there,rfl⟩)
    have outside : entry.name ∉ found b := by
      intro inside
      have globbed := (List.mem_filter.mp ((List.mem_insertionSort _).mp
        (List.mem_of_mem_take inside))).2
      rw [(detached_of_globbed ids globbed).2] at holder
      cases holder
    rw [entries]
    refine List.mem_filter.mpr ⟨claims.kept entry there outside,?_⟩
    simp only [decide_eq_true_eq]
    intro among
    obtain ⟨_,token,same,_⟩ := claims.gcs _ among
    rw [same] at holder
    cases holder

/-- As long as nothing claimed is on disk, cleanups deal with everything. -/
theorem reclaimable_of_calm (calm : b.Calm) : Reclaimable b := by
  induction count : waiting b using Nat.strong_induction_on generalizing b with
  | _ count ih =>
    by_cases empty : waiting b = 0
    · exact ⟨0,reclaimed_none calm empty⟩
    · obtain ⟨passes,later⟩ := ih (waiting (cleaned b)) (count ▸ cleaned_waiting calm empty)
        (cleaned_calm calm) rfl
      exact ⟨passes + 1,later.step calm⟩

end Passes

inductive TrashActivity where
  | delete (entryId : Text)
  | empty
  | purge (moment : Int) (limit : Option Nat)
  | clean (limit : Nat)
  | list (moment : Int)

namespace TrashActivity

def proc (s : TrashService) : TrashActivity → Trash Unit
  | .delete entryId => do
    let _ ← TrashService.delete entryId
    pure ()
  | .empty => do
    let _ ← TrashService.empty
    pure ()
  | .purge moment limit => do
    let _ ← s.purgeExpired moment limit
    pure ()
  | .clean limit => do
    let _ ← TrashService.cleanQuarantine limit
    pure ()
  | .list moment => do
    let _ ← s.listEntries moment
    pure ()

end TrashActivity

/-- States reached by activities that may fail or be cut off at any call. -/
inductive TrashHistory (does : Behaviour TrashOp TrashOp.Res Bin) (cuttable : Bin → Prop)
    (s : TrashService) (start : Bin) : Bin → Prop where
  | start : TrashHistory does cuttable s start start
  | next {b b' : Bin} {activity : TrashActivity} {outcome : Option (Except Exc Unit)}
    (before : TrashHistory does cuttable s start b)
    (run : Runs does cuttable (activity.proc s) b outcome b') :
    TrashHistory does cuttable s start b'

section Histories

open TrashService

variable {b b' start : Bin} {s : TrashService} {α : Type}

theorem Stays.quiet {p : Trash α} {P : α → Prop} (stays : Stays Spared Bin.Calm p b P) :
    Always Spared Bin.Sound p b fun _ t => t.Unclaimed :=
  (stays.imp fun _ _ calm _ => calm.unclaimed).mono fun _ calm => calm.sound

theorem always_discarded {p : Trash α}
    (always : Always Spared Bin.Sound p b fun _ t => t.Unclaimed) :
    Always Spared Bin.Sound (do let _ ← p; pure () : Trash Unit) b fun _ t => t.Unclaimed := by
  refine Always.bind (always.imp fun result t sound unclaimed => ?_)
  cases result with
  | ok _ => exact ⟨sound,unclaimed⟩
  | error reason => exact unclaimed

theorem always_sequence {β : Type} {p : Trash α} {f : α → Trash β}
    (first : Always Spared Bin.Sound p b fun _ t => t.Unclaimed)
    (second : ∀ value t,t.Calm → Always Spared Bin.Sound (f value) t fun _ t => t.Unclaimed) :
    Always Spared Bin.Sound (p >>= f) b fun _ t => t.Unclaimed := by
  refine Always.bind (first.imp fun result t sound unclaimed => ?_)
  cases result with
  | ok value => exact second value t ⟨sound,unclaimed⟩
  | error reason => exact unclaimed

theorem always_activity (activity : TrashActivity) (calm : b.Calm) :
    Always Spared Bin.Sound (activity.proc s) b fun _ t => t.Unclaimed := by
  cases activity with
  | delete entryId => exact always_discarded (Stays.quiet (stays_delete entryId calm))
  | empty => exact always_discarded (Stays.quiet (stays_empty calm))
  | purge moment limit => exact always_discarded (Stays.quiet (s.stays_purgeExpired calm))
  | clean limit => exact always_discarded (always_cleanQuarantine calm)
  | list moment =>
    refine always_discarded ?_
    refine always_sequence (Stays.quiet (P := fun _ => True) (stays_attempt calm
      (mild_plain (by simp) (by simp)) fun _ _ _ => trivial)) fun _ t calm => ?_
    refine always_sequence (always_cleanQuarantine calm) fun _ t calm => ?_
    refine always_sequence (Stays.quiet (s.stays_purgeExpired calm)) fun _ t calm => ?_
    exact Stays.quiet (stays_loadIndex calm)

/-- In a history in which no removal of a claimed directory fails, and the process is never cut
off while one is on disk, every detached directory is found by later cleanups. -/
theorem reclaimed_of_spared (calm : start.Calm)
    (history : TrashHistory Spared Bin.Unclaimed s start b) : Reclaimable b := by
  have kept : b.Calm := by
    induction history with
    | start => exact calm
    | next before run ih =>
      obtain ⟨sound,cut,ended⟩ := (always_activity _ ih).runs run
      rename_i _ outcome
      cases outcome with
      | none => exact ⟨sound,cut rfl⟩
      | some result => exact ⟨sound,ended result rfl⟩
  exact reclaimable_of_calm kept

def expiredBin : Bin where
  entries := [⟨.holder "a".toList,[(["note.md".toList],.file "note".toUTF8)]⟩]
  index := [⟨"a".toList,"note.md".toList,.file,4,1,0,"a/note.md".toList⟩]
  drawn := 0

def monthTrash : TrashService := ⟨30,by decide⟩

theorem generated_a : Generated "a".toList := ⟨by decide,by decide⟩

theorem expiredBin_calm : expiredBin.Calm := by
  refine ⟨⟨by decide,by decide,by decide,?_,?_⟩,by unfold Bin.Unclaimed; decide⟩
  · intro name there id belongs
    obtain rfl : name = .holder "a".toList := by simpa [expiredBin,Bin.names] using there
    obtain rfl := Option.some.inj belongs
    exact generated_a
  · intro item there
    obtain rfl := List.mem_singleton.mp there
    exact generated_a

/-- What a failed purge has left: the directory of an expired entry. -/
def leftover : Bin where
  entries := [⟨.purge "a".toList 0,[(["note.md".toList],.file "note".toUTF8)]⟩]
  index := []
  drawn := 1

theorem leftover_calm : leftover.Calm := by
  refine ⟨⟨by decide,by decide,by decide,?_,by simp [leftover]⟩,by unfold Bin.Unclaimed; decide⟩
  intro name there id belongs
  obtain rfl : name = .purge "a".toList 0 := by simpa [leftover,Bin.names] using there
  obtain rfl := Option.some.inj belongs
  exact generated_a

theorem spared_plain {op : TrashOp} (other : ∀ token,op ≠ .lstat (.gc token))
    (kept : ∀ token,op ≠ .rmtree (.gc token)) : Spared op b (op.step b).1 (op.step b).2 :=
  ⟨.plain,fun token same => same.elim (fun same => absurd same (other token))
    fun same => absurd same (kept token)⟩

theorem expiredBin_purged :
    TrashHistory Spared Bin.Unclaimed monthTrash expiredBin leftover := by
  have run : Runs Spared Bin.Unclaimed
      ((TrashActivity.purge (31 * dayMicroseconds) none).proc monthTrash) expiredBin
      (some (.ok ())) leftover := by
    iterate 7 refine .call (spared_plain (by simp) (by simp)) ?_
    exact .call ⟨.fails .eacces (by simp),by simp⟩ .done
  exact .next .start run

theorem expiredBin_reclaimed : Reclaimable leftover :=
  reclaimed_of_spared expiredBin_calm expiredBin_purged

def TrashOp.stuck (op : TrashOp) (b : Bin) : op.Res × Bin := match op with
  | .rmtree _ => (.error .eacces,b)
  | op => op.step b

theorem TrashOp.stuck_does (op : TrashOp) (b : Bin) :
    TrashOp.Does op b (op.stuck b).1 (op.stuck b).2 := by
  cases op with
  | rmtree name => exact .fails _ (by simp)
  | _ => exact .plain

def leaked : Bin := (run TrashOp.stuck ((TrashActivity.clean 16).proc monthTrash) leftover).2

theorem leaked_reached :
    TrashHistory TrashOp.Does (fun _ => True) monthTrash leftover leaked :=
  .next .start (runs_handler TrashOp.stuck_does)

/-- No cleanup looks for it any more. -/
theorem leaked_unreclaimable :
    leftover.Calm ∧ TrashHistory TrashOp.Does (fun _ => True) monthTrash leftover leaked ∧
      ¬ Reclaimable leaked := by
  refine ⟨leftover_calm,leaked_reached,?_⟩
  rintro ⟨passes,reclaimed⟩
  have still : cleaned leaked = leaked := by decide +kernel
  rw [Function.iterate_fixed still] at reclaimed
  exact absurd (reclaimed.none (.gc 1) (by decide +kernel)) (by decide)

end Histories

end LocalBook.Vault
