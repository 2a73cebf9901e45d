import LocalBook.Index.Resolving
import LocalBook.Search.Snippet
import LocalBook.Vault.Naming
import LocalBook.Workspace.Nesting
import LocalBook.Workspace.Store

/-! Following a link of a note: the file that the workspace opens or creates for it, beside the one
that the index resolves it to. -/
namespace LocalBook.Workspace.Following

open Hierarchy (VaultFileEntry nameOf folderOf nul)

/-- `/\.(md|markdown)$/i.test(name)`. -/
def isMarkdown (name : Text) : Bool :=
  let lower := name.map Text.asciiLower
  Text.endsWith lower ".md".toList || Text.endsWith lower ".markdown".toList

/-- `name.replace(/\.(md|markdown)$/i, "")`. -/
def withoutMarkdown (name : Text) : Text :=
  let lower := name.map Text.asciiLower
  if Text.endsWith lower ".md".toList then name.take (name.length - 3)
  else if Text.endsWith lower ".markdown".toList then name.take (name.length - 9)
  else name

/-- `/^[A-Za-z][A-Za-z0-9+.-]*:/.test(name)`. -/
def hasScheme (name : Text) : Bool :=
  match name with
  | [] => false
  | first :: rest => first.isAlpha &&
      (rest.dropWhile fun c => c.isAlphanum || c = '+' || c = '.' || c = '-').head? = some ':'

def wikilinkCreatePath (notePath target : Text) : Option Text :=
  let name := trim target
  if name = [] ∨ nul ∈ name ∨ '\\' ∈ name then none
  else if hasScheme name then none
  else if Text.startsWith name ['/'] ∨ Text.endsWith name ['/'] then none
  else if ∃ segment ∈ Text.split '/' name,segment ∈ [[],['.'],['.','.']] then none
  else
    let withExtension := if isMarkdown (nameOf name) then name else name ++ ".md".toList
    let base := folderOf notePath
    some (if base ≠ [] then base ++ '/' :: withExtension else withExtension)

/-- `createNote`, where the server accepts some paths. -/
def createNote (accepts : Text → Bool) (path : Text) : Option Text :=
  let clean := Text.lstripBy (· = '/') (trim path)
  if clean = [] ∨ ['.','.'] ∈ Text.split '/' clean then none
  else if accepts clean then some clean else none

inductive Followed where
  | opened (path : Text)
  | created (path : Text)
  | refused
deriving DecidableEq

section Opening

variable [Hierarchy.Locale]

/-- The entry is a file whose name is that of the target, without a Markdown extension. -/
def SameStem (target : Text) (entry : VaultFileEntry) : Prop :=
  entry.kind = .file ∧ Hierarchy.Locale.toLowerCase (withoutMarkdown (nameOf entry.path)) =
    Hierarchy.Locale.toLowerCase (withoutMarkdown (nameOf target))

instance (target : Text) : DecidablePred (SameStem target) := fun _ => by
  unfold SameStem
  infer_instance

def openOrCreateLinkedNote (entries : List VaultFileEntry) (accepts : Text → Bool)
    (fromPath linkTarget : Text) : Followed :=
  let target := trim linkTarget
  if target = [] then .refused
  else
    match entries.find? (SameStem target ·) with
    | some entry => .opened entry.path
    | none =>
      match (wikilinkCreatePath fromPath target).bind (createNote accepts) with
      | some path => .created path
      | none => .refused

/-- The path is that of the first file with the stem of the target. -/
def FirstNamed (entries : List VaultFileEntry) (target path : Text) : Prop :=
  target ≠ [] ∧ ∃ before entry after,entries = before ++ entry :: after ∧ entry.path = path ∧
    SameStem target entry ∧ ∀ other ∈ before,¬SameStem target other

variable {entries : List VaultFileEntry} {accepts : Text → Bool} {fromPath linkTarget path : Text}

theorem opened_iff : openOrCreateLinkedNote entries accepts fromPath linkTarget = .opened path ↔
    FirstNamed entries (trim linkTarget) path := by
  unfold openOrCreateLinkedNote FirstNamed
  by_cases empty : trim linkTarget = []
  · simp [empty]
  · simp only [if_neg empty]
    cases found : entries.find? (SameStem (trim linkTarget) ·) with
    | none =>
      have absent := List.find?_eq_none.mp found
      constructor
      · intro opened
        cases made : (wikilinkCreatePath fromPath (trim linkTarget)).bind (createNote accepts) with
        | none => simp [made] at opened
        | some path => simp [made] at opened
      · rintro ⟨_,before,entry,after,rfl,_,same,_⟩
        exact absurd (decide_eq_true same) (absent entry (by simp))
    | some entry =>
      obtain ⟨same,before,after,cut,earlier⟩ := List.find?_eq_some_iff_append.mp found
      constructor
      · intro opened
        refine ⟨empty,before,entry,after,cut,Followed.opened.inj opened,of_decide_eq_true same,?_⟩
        intro other inside
        simpa using earlier other inside
      · rintro ⟨_,before',entry',after',cut',rfl,same',earlier'⟩
        have again : entries.find? (SameStem (trim linkTarget) ·) = some entry' := by
          apply List.find?_eq_some_iff_append.mpr
          refine ⟨decide_eq_true same',before',after',cut',fun other inside => ?_⟩
          simpa using earlier' other inside
        rw [Option.some.inj (found.symm.trans again)]

theorem created_iff : openOrCreateLinkedNote entries accepts fromPath linkTarget = .created path ↔
    trim linkTarget ≠ [] ∧ (∀ entry ∈ entries,¬SameStem (trim linkTarget) entry) ∧
      (wikilinkCreatePath fromPath (trim linkTarget)).bind (createNote accepts) = some path := by
  unfold openOrCreateLinkedNote
  by_cases empty : trim linkTarget = []
  · simp [empty]
  · simp only [if_neg empty]
    cases found : entries.find? (SameStem (trim linkTarget) ·) with
    | none =>
      have absent : ∀ entry ∈ entries,¬SameStem (trim linkTarget) entry := by
        simpa using List.find?_eq_none.mp found
      cases made : (wikilinkCreatePath fromPath (trim linkTarget)).bind (createNote accepts) with
      | none => simp
      | some made => simpa [empty] using fun _ => absent
    | some entry =>
      have same : SameStem (trim linkTarget) entry := by
        have found' := List.find?_some found
        simpa using found'
      have there := List.mem_of_find?_eq_some found
      constructor
      · intro created
        cases created
      · exact fun all => absurd same (all.2.1 entry there)

end Opening

/-! ### Where a note is created -/

section Placing

def asNote (name : Text) : Text :=
  if isMarkdown (nameOf name) then name else name ++ ".md".toList

def cleaned (path : Text) : Text := Text.lstripBy (· = '/') (trim path)

/-- What a note created from this one has in front of its name. -/
def front (source : Text) : Text := cleaned (folderOf source ++ ['/'])

theorem rstripBy_solid {drop : Char → Bool} {last : Char} (solid : drop last = false)
    (stem : Text) : Text.rstripBy drop (stem ++ [last]) = stem ++ [last] := by
  simp [Text.rstripBy,solid]

theorem lstripBy_solid {drop : Char → Bool} {t : Text} {c : Char} (first : t.head? = some c)
    (solid : drop c = false) : Text.lstripBy drop t = t := by
  obtain ⟨rest,rfl⟩ := List.head?_eq_some_iff.mp first
  simp [Text.lstripBy,solid]

theorem head_trim {t : Text} {c : Char} (first : (trim t).head? = some c) :
    isJsSpace c = false := by
  obtain ⟨tail,whole⟩ := Vault.rstripBy_begins isJsSpace (Text.lstripBy isJsSpace t)
  apply Vault.head_lstripBy (t := t)
  change trim t ++ tail = _ at whole
  rw [← whole,List.head?_append,first]
  rfl

theorem last_trim {t : Text} {c : Char} (last : (trim t).getLast? = some c) :
    isJsSpace c = false := Vault.last_rstripBy last

/-- A text that starts and ends with other characters than blanks is not trimmed. -/
theorem trim_fixed {t : Text} (first : ∀ c,t.head? = some c → isJsSpace c = false)
    (last : ∀ c,t.getLast? = some c → isJsSpace c = false) : trim t = t := by
  cases t with
  | nil => rfl
  | cons c rest =>
    have starts : Text.lstripBy isJsSpace (c :: rest) = c :: rest :=
      lstripBy_solid rfl (first c rfl)
    obtain ⟨stem,final,ends⟩ : ∃ stem final,c :: rest = stem ++ [final] :=
      ⟨_,_,(List.dropLast_concat_getLast (List.cons_ne_nil c rest)).symm⟩
    rw [trim,Text.stripBy,starts,ends]
    apply rstripBy_solid
    apply last
    rw [ends,List.getLast?_concat]

theorem asNote_trim {t : Text} (named : trim t ≠ []) :
    ∃ stem last,asNote (trim t) = stem ++ [last] ∧ isJsSpace last = false := by
  unfold asNote
  split
  · refine ⟨(trim t).dropLast,(trim t).getLast named,(List.dropLast_concat_getLast named).symm,?_⟩
    exact last_trim (List.getLast?_eq_getLast_of_ne_nil named)
  · exact ⟨trim t ++ ".m".toList,'d',by simp,by decide⟩

theorem trim_folder (folder : Text) : ∃ kept,(∀ rest,
    Text.lstripBy isJsSpace (folder ++ '/' :: rest) = kept ++ '/' :: rest) ∧
      trim (folder ++ ['/']) = kept ++ ['/'] := by
  have slash : isJsSpace '/' = false := by decide
  obtain ⟨kept,left⟩ : ∃ kept,∀ rest,Text.lstripBy isJsSpace (folder ++ '/' :: rest) =
      kept ++ '/' :: rest := by
    by_cases blank : folder.dropWhile isJsSpace = []
    · exact ⟨[],fun rest => by simp [Text.lstripBy,List.dropWhile_append,blank,slash]⟩
    · exact ⟨folder.dropWhile isJsSpace,fun rest => by
        simp [Text.lstripBy,List.dropWhile_append,blank]⟩
  refine ⟨kept,left,?_⟩
  rw [trim,Text.stripBy,left]
  exact rstripBy_solid slash kept

/-- What is cleaned off stands before the name. -/
theorem cleaned_append {t : Text} {c : Char} (first : (asNote (trim t)).head? = some c)
    (relative : c ≠ '/') (named : trim t ≠ []) (folder : Text) :
    cleaned (folder ++ '/' :: asNote (trim t)) =
      cleaned (folder ++ ['/']) ++ asNote (trim t) := by
  obtain ⟨stem,last,ends,solid⟩ := asNote_trim named
  obtain ⟨kept,left,part⟩ := trim_folder folder
  have whole : trim (folder ++ '/' :: asNote (trim t)) = kept ++ '/' :: asNote (trim t) := by
    rw [trim,Text.stripBy,left,ends]
    have solid' := rstripBy_solid solid (kept ++ '/' :: stem)
    simpa using solid'
  rw [cleaned,cleaned,whole,part]
  have parts : kept ++ '/' :: asNote (trim t) = (kept ++ ['/']) ++ asNote (trim t) := by simp
  have stays : Text.lstripBy (· = '/') (asNote (trim t)) = asNote (trim t) :=
    lstripBy_solid first (by simpa using relative)
  rw [parts,Text.lstripBy,List.dropWhile_append]
  split
  · next gone =>
    rw [Text.lstripBy,List.isEmpty_iff.mp gone]
    exact stays
  · rfl

theorem trim_trim (t : Text) : trim (trim t) = trim t :=
  trim_fixed (fun _ => head_trim) fun _ => last_trim

theorem wikilinkCreatePath_some {source target path : Text}
    (made : wikilinkCreatePath source (trim target) = some path) :
    trim target ≠ [] ∧ Text.startsWith (trim target) ['/'] = false ∧
      path = if folderOf source ≠ [] then folderOf source ++ '/' :: asNote (trim target)
        else asNote (trim target) := by
  simp only [wikilinkCreatePath,trim_trim] at made
  split at made
  · cases made
  split at made
  · cases made
  split at made
  · cases made
  split at made
  · cases made
  next unsafe_ _ rooted _ =>
  refine ⟨fun empty => unsafe_ (.inl empty),?_,(Option.some.inj made).symm⟩
  by_contra starts
  exact rooted (.inl (by simpa using starts))

/-- A created note stands in the folder of the source note, less what is cleaned off. -/
theorem created_path {accepts : Text → Bool} {source target path : Text}
    (made : (wikilinkCreatePath source (trim target)).bind (createNote accepts) = some path) :
    trim target ≠ [] ∧ path = front source ++ asNote (trim target) := by
  obtain ⟨authored,placed,accepted⟩ := Option.bind_eq_some_iff.mp made
  obtain ⟨named,relative,rfl⟩ := wikilinkCreatePath_some placed
  have kept : ∀ {path' : Text},createNote accepts path' = some path → path = cleaned path' := by
    intro path' made'
    simp only [createNote] at made'
    split at made'
    · cases made'
    split at made'
    · exact (Option.some.inj made').symm
    · cases made'
  refine ⟨named,(kept accepted).trans ?_⟩
  obtain ⟨c,rest,whole⟩ := List.exists_cons_of_ne_nil named
  have first : (asNote (trim target)).head? = some c := by
    unfold asNote
    split
    · rw [whole]
      rfl
    · rw [whole]
      rfl
  have other : c ≠ '/' := by
    rintro rfl
    simp [Text.startsWith,whole] at relative
  have solid := head_trim (t := target) (c := c) (by rw [whole]; rfl)
  split
  · exact cleaned_append first other named _
  · next top =>
    rw [front,not_not.mp top]
    obtain ⟨stem,last,ends,solid'⟩ := asNote_trim named
    have stays : cleaned (asNote (trim target)) = asNote (trim target) := by
      have inner : trim (asNote (trim target)) = asNote (trim target) := by
        rw [trim,Text.stripBy,lstripBy_solid first solid,ends]
        exact rstripBy_solid solid' stem
      rw [cleaned,inner]
      exact lstripBy_solid first (by simpa using other)
    rw [stays]
    rfl

/-- It is empty or ends a folder. -/
theorem front_cases (source : Text) : front source = [] ∨ ∃ folder,
    front source = folder ++ ['/'] := by
  obtain ⟨kept,_,part⟩ := trim_folder (folderOf source)
  rw [front,cleaned,part,Text.lstripBy,List.dropWhile_append]
  split
  · exact .inl (by simp)
  · exact .inr ⟨_,rfl⟩

end Placing

/-! ### The name that it gets -/

section Named

variable [Host]

open Index (leaf fullKey noextKey markdownFile variants stripExtension Candidate)

omit [Host] in
theorem leaf_append (folder : Text) {name : Text} (free : '/' ∉ name) :
    leaf (folder ++ '/' :: name) = name := by
  simp [leaf,Vault.split_last_slash folder free]

omit [Host] in
theorem leaf_single {name : Text} (free : '/' ∉ name) : leaf name = name := by
  simp [leaf,Text.split,List.splitOn_eq_singleton free]

omit [Host] in
theorem leaf_md (name : Text) : leaf (name ++ ".md".toList) = leaf name ++ ".md".toList := by
  by_cases slash : '/' ∈ name
  · obtain ⟨folder,last,rfl,free⟩ := Vault.exists_last_slash slash
    have free' : '/' ∉ last ++ ".md".toList := by simpa using free
    have parts : folder ++ '/' :: last ++ ".md".toList =
        folder ++ '/' :: (last ++ ".md".toList) := by simp
    rw [parts,leaf_append _ free',leaf_append _ free]
  · have free : '/' ∉ name ++ ".md".toList := by simpa using slash
    rw [leaf_single free,leaf_single slash]

omit [Host] in
theorem stripExtension_md {name : Text} (named : name ≠ []) :
    stripExtension (name ++ ".md".toList) = name := by
  have split : Text.split '.' (name ++ ".md".toList) = Text.split '.' name ++ ["md".toList] := by
    have last : '.' ∉ "md".toList := by decide
    change Text.split '.' (name ++ '.' :: "md".toList) = _
    rw [Text.split,Text.split,List.splitOn_append_cons_self,List.splitOn_eq_singleton last]
  rw [stripExtension,split,List.dropLast_concat,Text.join_split,List.getLast?_concat,
    if_pos ⟨named,by decide⟩]

omit [Host] in
theorem leaf_front (source : Text) {name : Text} (free : '/' ∉ name) :
    leaf (front source ++ name) = name := by
  rcases front_cases source with top | ⟨folder,inner⟩
  · rw [top,List.nil_append,leaf_single free]
  · rw [inner,List.append_assoc]
    exact leaf_append folder free

variable [Search.FoldsCharacters]

open Search (FoldsCharacters)

theorem casefold_md (name : Text) :
    Host.casefold (name ++ ".md".toList) = Host.casefold name ++ ".md".toList := by
  rw [FoldsCharacters.casefold_append,Host.casefold_ascii ".md".toList (by decide)]
  rfl

theorem casefold_eq_nil {t : Text} (empty : Host.casefold t = []) : t = [] := by
  cases t with
  | nil => rfl
  | cons c rest =>
    rw [Search.casefold_cons] at empty
    exact absurd (List.append_eq_nil_iff.mp empty).1 (FoldsCharacters.casefold_ne_nil c)

/-- A note in the folder of its link is found under a bare name that has a Markdown extension or
none at all. -/
theorem bare_iff {source name : Text} (bare : '/' ∉ name) (named : name ≠ []) :
    Candidate {front source ++ asNote name} name (front source ++ asNote name) ↔
      isMarkdown (nameOf name) = true ∨ stripExtension name = name := by
  have alone : nameOf name = name := by simp [nameOf,Text.split,List.splitOn_eq_singleton bare]
  simp only [Candidate,Set.mem_singleton_iff,true_and,if_neg bare,fullKey,noextKey]
  by_cases markdown : isMarkdown (nameOf name) = true
  · have kept : asNote name = name := if_pos markdown
    rw [kept,leaf_front source bare]
    simp [markdown]
  · have written : asNote name = name ++ ".md".toList := if_neg markdown
    have free : '/' ∉ name ++ ".md".toList := by simpa using bare
    have note : markdownFile (front source ++ (name ++ ".md".toList)) = true := by
      rw [markdownFile,← List.append_assoc,casefold_md]
      simp [Text.endsWith]
    rw [written,leaf_front source free,stripExtension_md named,casefold_md]
    constructor
    · rintro (longer | ⟨_,same⟩)
      · simp at longer
      · right
        rcases Index.stripExtension_cases name with kept | ⟨extension,parts⟩
        · exact kept
        · have cut := same
          nth_rewrite 1 [parts] at cut
          rw [FoldsCharacters.casefold_append] at cut
          have empty := casefold_eq_nil (List.append_right_eq_self.mp cut)
          cases empty
    · rintro (markdown' | kept)
      · exact absurd markdown' markdown
      · exact .inr ⟨note,by rw [kept]⟩

/-- With folders in the target, it is found where nothing stands in front of it. -/
theorem nested_iff {source name : Text} (slash : '/' ∈ name) :
    Candidate {front source ++ asNote name} name (front source ++ asNote name) ↔
      front source = [] := by
  simp only [Candidate,Set.mem_singleton_iff,true_and,if_pos slash,fullKey,variants]
  constructor
  · rintro ⟨_,whole⟩
    rcases front_cases source with top | ⟨folder,inner⟩
    · exact top
    have ascii : Host.casefold ['/'] = ['/'] := Host.casefold_ascii ['/'] (by decide)
    have slashes : (Host.casefold (asNote name)).count '/' = (Host.casefold name).count '/' := by
      unfold asNote
      split
      · rfl
      · rw [casefold_md,List.count_append]
        simp
    rw [inner,FoldsCharacters.casefold_append,FoldsCharacters.casefold_append,ascii] at whole
    -- No variant of the target has more slashes than it.
    have most : ∀ path ∈ variants name,path.count '/' = (Host.casefold name).count '/' := by
      simp [variants]
    have counted := most _ whole
    rw [List.count_append,List.count_append,slashes,List.count_singleton_self] at counted
    omega
  · intro top
    rw [top,List.nil_append]
    unfold asNote
    split
    · simp
    · rw [leaf_md,casefold_md,casefold_md]
      simp

end Named

/-! ### Beside the index -/

section Agreeing

variable [Host] [Hierarchy.Locale]

def filesOf (entries : List VaultFileEntry) : List Text :=
  (entries.filter fun entry => entry.kind = .file).map VaultFileEntry.path

structure Agrees (entries : List VaultFileEntry) (accepts : Text → Bool) (source : Text)
    (ref : Index.WikilinkRef) : Prop where
  opens : ∀ path,Index.ResolvesTo path
      (Index.resolveRef source (Index.Basenames.ofFiles (filesOf entries)) ref) →
    openOrCreateLinkedNote entries accepts source ref.target = .opened path
  creates : (Index.resolveRef source (Index.Basenames.ofFiles (filesOf entries)) ref).broken =
      true → ∀ path,openOrCreateLinkedNote entries accepts source ref.target = .created path →
    Index.ResolvesTo path
      (Index.resolveRef source (Index.Basenames.ofFiles (filesOf entries ++ [path])) ref)

/-- A note created for the target is one that the target names. The two sides trim the target
alike but for a few characters such as a byte order mark. -/
def Placed (source target : Text) : Prop :=
  if Text.strip target = trim target then
    if '/' ∈ trim target then front source = []
    else isMarkdown (nameOf (trim target)) = true ∨
      Index.stripExtension (trim target) = trim target
  else Text.strip target ≠ [] ∧ Index.Candidate {front source ++ asNote (trim target)}
    (Text.strip target) (front source ++ asNote (trim target))

/-- The file that the index resolves the link to: the source note itself for a place in it, else
the only candidate. -/
def Resolved (files : List Text) (source : Text) (ref : Index.WikilinkRef) (path : Text) : Prop :=
  if Text.strip ref.target = [] then (ref.section_.isSome ∨ ref.block.isSome) ∧ path = source
  else Index.Candidate {path | path ∈ files} (Text.strip ref.target) path ∧
    ∀ other,Index.Candidate {path | path ∈ files} (Text.strip ref.target) other → other = path

omit [Hierarchy.Locale] in
theorem resolved_iff {files : List Text} {source path : Text} {ref : Index.WikilinkRef}
    (kind : ref.kind ≠ .web) :
    Index.ResolvesTo path (Index.resolveRef source (Index.Basenames.ofFiles files) ref) ↔
      Resolved files source ref path := by
  by_cases named : Text.strip ref.target = []
  · simp only [Resolved,if_pos named]
    by_cases anchored : ref.section_.isSome ∨ ref.block.isSome
    · have there : Index.resolveRef source (Index.Basenames.ofFiles files) ref =
          {ref with resolvedPath := some source,broken := false,ambiguous := false} := by
        simp [Index.resolveRef,kind,named,anchored]
      rw [there]
      constructor
      · rintro ⟨same,_,_⟩
        exact ⟨anchored,(Option.some.inj same).symm⟩
      · rintro ⟨_,rfl⟩
        exact ⟨rfl,rfl,rfl⟩
    · constructor
      · rintro ⟨_,whole,_⟩
        simp [Index.resolveRef,kind,named,anchored] at whole
      · exact fun resolved => absurd resolved.1 anchored
  · rw [Index.resolvesTo_iff (Index.Basenames.hold_ofFiles _) kind fun empty => absurd empty named,
      Resolved,if_neg named]
    exact ⟨fun found => found.2,fun found => ⟨named,found⟩⟩

/-- The index finds nothing for the link. -/
def Dangling (files : List Text) (ref : Index.WikilinkRef) : Prop :=
  if Text.strip ref.target = [] then ¬(ref.section_.isSome ∨ ref.block.isSome)
  else ∀ path,¬Index.Candidate {path | path ∈ files} (Text.strip ref.target) path

omit [Hierarchy.Locale] in
theorem dangling_iff {files : List Text} {source : Text} {ref : Index.WikilinkRef}
    (kind : ref.kind ≠ .web) :
    (Index.resolveRef source (Index.Basenames.ofFiles files) ref).broken = true ↔
      Dangling files ref := by
  by_cases named : Text.strip ref.target = []
  · simp only [Dangling,if_pos named]
    by_cases anchored : ref.section_.isSome ∨ ref.block.isSome
    · simp [Index.resolveRef,kind,named,anchored]
    · simp [Index.resolveRef,kind,named,anchored]
  · have listed : ∀ path,path ∈ (Index.linkCandidates (Index.Basenames.ofFiles files)
        (Text.strip ref.target)).insertionSort Index.byCasefold ↔
          Index.Candidate {path | path ∈ files} (Text.strip ref.target) path := by
      intro path
      rw [List.mem_insertionSort,Index.mem_linkCandidates (Index.Basenames.hold_ofFiles _)]
    simp only [Dangling,if_neg named]
    cases sorted : (Index.linkCandidates (Index.Basenames.ofFiles files)
        (Text.strip ref.target)).insertionSort Index.byCasefold with
    | nil =>
      rw [sorted] at listed
      simp [Index.resolveRef,kind,named,sorted,← listed]
    | cons first rest =>
      rw [sorted] at listed
      have there := (listed first).mp List.mem_cons_self
      simp only [Index.resolveRef,kind,named,sorted,if_false]
      exact ⟨fun broken => absurd broken (by simp),fun absent => absurd there (absent first)⟩

omit [Hierarchy.Locale] in
/-- With one file more, the link goes to that file where the target names it. -/
theorem resolvesTo_added {files : List Text} {added source : Text} {ref : Index.WikilinkRef}
    (kind : ref.kind ≠ .web) (dangling : Dangling files ref) :
    Index.ResolvesTo added
        (Index.resolveRef source (Index.Basenames.ofFiles (files ++ [added])) ref) ↔
      Text.strip ref.target ≠ [] ∧ Index.Candidate {added} (Text.strip ref.target) added := by
  rw [resolved_iff kind]
  by_cases named : Text.strip ref.target = []
  · rw [Dangling,if_pos named] at dangling
    simp [Resolved,named,dangling]
  · rw [Dangling,if_neg named] at dangling
    rw [Resolved,if_neg named]
    constructor
    · rintro ⟨⟨_,there⟩,_⟩
      exact ⟨named,rfl,there⟩
    · rintro ⟨_,_,there⟩
      refine ⟨⟨by simp,there⟩,?_⟩
      rintro other ⟨inside,looks⟩
      rcases List.mem_append.mp inside with old | new
      · exact absurd ⟨old,looks⟩ (dangling other)
      · exact List.mem_singleton.mp new

omit [Hierarchy.Locale] in
theorem placed_iff [Search.FoldsCharacters] {source target : Text} (named : trim target ≠ []) :
    Placed source target ↔ Text.strip target ≠ [] ∧ Index.Candidate
      {front source ++ asNote (trim target)} (Text.strip target)
        (front source ++ asNote (trim target)) := by
  unfold Placed
  split
  · next same =>
    rw [same]
    split
    · next slash =>
      rw [nested_iff slash]
      exact ⟨fun top => ⟨named,top⟩,fun placed => placed.2⟩
    · next bare =>
      rw [bare_iff bare named]
      exact ⟨fun plain => ⟨named,plain⟩,fun placed => placed.2⟩
  · rfl

/-- Following a link agrees with the index iff the file that the index resolves it to is the first
one with the target's stem, and a note created for it is one that the target names. -/
theorem agrees_iff [Search.FoldsCharacters] (entries : List VaultFileEntry)
    (accepts : Text → Bool) (source : Text) {ref : Index.WikilinkRef} (kind : ref.kind ≠ .web) :
    Agrees entries accepts source ref ↔
      (∀ path,Resolved (filesOf entries) source ref path →
        FirstNamed entries (trim ref.target) path) ∧
      (Dangling (filesOf entries) ref → (∀ entry ∈ entries,¬SameStem (trim ref.target) entry) →
        ((wikilinkCreatePath source (trim ref.target)).bind (createNote accepts)).isSome →
          Placed source ref.target) := by
  constructor
  · rintro ⟨opens,creates⟩
    constructor
    · intro path resolved
      exact opened_iff.mp (opens path ((resolved_iff kind).mpr resolved))
    · intro dangling fresh made
      obtain ⟨path,made⟩ := Option.isSome_iff_exists.mp made
      obtain ⟨named,rfl⟩ := created_path made
      have created := created_iff.mpr ⟨named,fresh,made⟩
      have found := creates ((dangling_iff kind).mpr dangling) _ created
      exact (placed_iff named).mpr ((resolvesTo_added kind dangling).mp found)
  · rintro ⟨first,placed⟩
    constructor
    · intro path found
      exact opened_iff.mpr (first path ((resolved_iff kind).mp found))
    · intro broken path created
      have dangling := (dangling_iff kind).mp broken
      obtain ⟨named,fresh,made⟩ := created_iff.mp created
      have there := placed dangling fresh (Option.isSome_iff_exists.mpr ⟨path,made⟩)
      obtain ⟨_,rfl⟩ := created_path made
      exact (resolvesTo_added kind dangling).mpr ((placed_iff named).mp there)

end Agreeing

section Example

open scoped Search.SharpS Hierarchy.PlainLocale

def oneNote : List VaultFileEntry := [⟨"Note.md".toList,.file⟩]

def noteLink : Index.WikilinkRef := {target := "note".toList,raw := "[[note]]".toList}

/-- A bare name is followed to the note of that name. -/
theorem oneNote_agrees : Agrees oneNote (fun _ => true) [] noteLink := by
  have named : Text.strip noteLink.target ≠ [] := by decide
  have there : Index.Candidate {path | path ∈ filesOf oneNote} (Text.strip noteLink.target)
      "Note.md".toList :=
    ⟨show "Note.md".toList ∈ filesOf oneNote by decide,by decide⟩
  apply (agrees_iff oneNote (fun _ => true) [] (by decide)).mpr
  constructor
  · intro path resolved
    rw [Resolved,if_neg named] at resolved
    have same : path = "Note.md".toList := List.mem_singleton.mp resolved.1.1
    rw [same]
    exact ⟨by decide,[],_,[],rfl,rfl,by decide,by simp⟩
  · intro dangling
    rw [Dangling,if_neg named] at dangling
    exact absurd there (dangling _)

def twoNotes : List VaultFileEntry := [⟨"a/Note.md".toList,.file⟩,⟨"b/Note.md".toList,.file⟩]

def folderLink : Index.WikilinkRef := {target := "b/Note".toList,raw := "[[b/Note]]".toList}

theorem folderLink_resolves : Index.ResolvesTo "b/Note.md".toList
    (Index.resolveRef [] (Index.Basenames.ofFiles (filesOf twoNotes)) folderLink) := by
  have named : Text.strip folderLink.target ≠ [] := by decide
  rw [resolved_iff (by decide),Resolved,if_neg named]
  refine ⟨⟨show "b/Note.md".toList ∈ filesOf twoNotes by decide,by decide⟩,?_⟩
  rintro other ⟨inside,looks⟩
  have both : ∀ path ∈ filesOf twoNotes,
      Host.casefold path ∈ Index.variants (Text.strip folderLink.target) →
        path = "b/Note.md".toList := by decide
  rw [if_pos (by decide)] at looks
  exact both other inside looks.2

/-- The link names the second note with its folder, and the first note of that name is opened. -/
theorem folderLink_opens : ¬∀ (entries : List VaultFileEntry) (accepts : Text → Bool)
    (source : Text) (ref : Index.WikilinkRef),ref.kind ≠ .web →
      Agrees entries accepts source ref := by
  intro every
  have agrees := every twoNotes (fun _ => true) [] folderLink (by decide)
  have opened := agrees.opens _ folderLink_resolves
  exact absurd opened (by decide)

end Example

end LocalBook.Workspace.Following
