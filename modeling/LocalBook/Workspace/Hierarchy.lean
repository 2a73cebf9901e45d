import LocalBook.Dict
import LocalBook.Forest
import LocalBook.Posix

/-! The document tree of the workspace: which row of a listing owns which, the rows hung under
their owners, and the rows that are shown while some are collapsed. -/
namespace LocalBook.Workspace.Hierarchy

inductive Kind where
  | file
  | directory
deriving DecidableEq

structure VaultFileEntry where
  path : Text
  kind : Kind
deriving DecidableEq

/-- Case mapping and collation of the JavaScript runtime. What is below a folder sorts behind it,
since the slash is not ignored. -/
class Locale where
  toLowerCase : Text → Text
  localeCompare : Text → Text → Ordering
  swap : ∀ a b,localeCompare b a = (localeCompare a b).swap
  below : ∀ folder rest,localeCompare folder (folder ++ '/' :: rest) = .lt

def nul : Char := Char.ofNat 0

def indexName : Text := "index.md".toList

/-- `segments.slice(0, -1).join("/")`. -/
def folderOf (path : Text) : Text := Text.join ['/'] (Text.split '/' path).dropLast

def nameOf (path : Text) : Text := (Text.split '/' path).getLast?.getD path

def besideOf (path : Text) : Text := path ++ ".md".toList

/-- `parts.slice(0, depth).join("/")`, for every smaller depth. -/
def ancestors (path : Text) : List Text :=
  (List.range ((Text.split '/' path).length - 1)).map fun depth =>
    Text.join ['/'] ((Text.split '/' path).take (depth + 1))

def cleanPaths (entries : List VaultFileEntry) : List Text :=
  (entries.map VaultFileEntry.path).filter (nul ∉ ·)

section Folding

variable [Locale]

/-- The entry is a note that describes its folder. -/
def FolderNote (entry : VaultFileEntry) : Prop :=
  folderOf entry.path ≠ [] ∧ entry.kind = .file ∧
    Locale.toLowerCase (nameOf entry.path) = indexName

instance (entry : VaultFileEntry) : Decidable (FolderNote entry) := by
  unfold FolderNote
  infer_instance

def sameName (paths : List Text) (path : Text) : Option Text :=
  if besideOf path ∈ paths then some (besideOf path) else none

def inherited (paths : List Text) (owner : Dict Text Text) (path : Text) : Option Text :=
  let folder := folderOf path
  if folder ≠ [] then (owner.find folder).or (if folder ∈ paths then some folder else none)
  else none

/-- One round of `foldedPaths`. -/
def fold (paths : List Text) (owner : Dict Text Text) (entry : VaultFileEntry) : Dict Text Text :=
  if entry.path ∉ paths ∨ (owner.find entry.path).isSome then owner
  else if FolderNote entry then
    (owner.set entry.path (folderOf entry.path)).set (folderOf entry.path) entry.path
  else
    match (sameName paths entry.path).or (inherited paths owner entry.path) with
    | some ownerPath => if ownerPath = [] then owner else owner.set entry.path ownerPath
    | none => owner

def foldedPaths (entries : List VaultFileEntry) : Dict Text Text :=
  entries.foldl (fold (cleanPaths entries)) []

/-! ### The tree -/

/-- A row of the tree; the rows under it are the branches of the tree. -/
structure TreeHierarchyNode where
  path : Text
  kind : Kind
  name : Text
  depth : Nat
deriving DecidableEq

def nodesOf (entries : List VaultFileEntry) : Dict Text VaultFileEntry :=
  entries.foldl (fun nodes entry =>
    if nul ∈ entry.path then nodes else nodes.set entry.path entry) []

/-- `paths.sort((a, b) => a.localeCompare(b))`. -/
def sortPaths (paths : List Text) : List Text :=
  paths.insertionSort fun a b => Locale.localeCompare a b ≠ .gt

def childrenOf (nodes : Dict Text VaultFileEntry) (owner : Dict Text Text) (path : Text) :
    List Text :=
  sortPaths ((owner.filter fun row =>
    row.2 = path ∧ (nodes.find row.2).isSome ∧ (nodes.find row.1).isSome).map Prod.fst)

def nodeOf (nodes : Dict Text VaultFileEntry) (depth : Nat) (path : Text) : TreeHierarchyNode where
  path := path
  kind := ((nodes.find path).map VaultFileEntry.kind).getD .file
  name := nameOf path
  depth := depth

/-- `buildTreeHierarchy`, where rows are attached down to a depth; `none` where they do not come to
an end. -/
def buildTreeHierarchy (fuel : Nat) (entries : List VaultFileEntry) :
    Option (List (Forest.Tree TreeHierarchyNode)) :=
  let nodes := nodesOf entries
  let owner := foldedPaths entries
  let roots := sortPaths ((nodes.map Prod.fst).filter fun path => (owner.find path).isNone)
  roots.mapM (Forest.grow (childrenOf nodes owner) (nodeOf nodes) fuel 0)

end Folding

/-! ### The rows that are shown -/

structure FileTreeExpansion where
  expandedPaths : List Text
  collapsedPaths : List Text

/-- Some owner of the row, or an owner of that one, is collapsed; `none` where the owners do not
come to an end. -/
def ownerCollapsed (owner : Dict Text Text) (expansion : FileTreeExpansion) :
    Nat → Text → Option Bool
  | 0,_ => none
  | fuel + 1,path =>
    match owner.find path with
    | none => some false
    | some ownerPath =>
      if ownerPath = [] then some false
      else if ownerPath ∈ expansion.collapsedPaths then some true
      else ownerCollapsed owner expansion fuel ownerPath

def hidden (fuel : Nat) (owner : Dict Text Text) (expansion : FileTreeExpansion) (path : Text) :
    Option Bool :=
  if path ∈ expansion.collapsedPaths ∨ path ∉ expansion.expandedPaths then some true
  else if ∃ above ∈ ancestors path,above ∈ expansion.collapsedPaths then some true
  else ownerCollapsed owner expansion fuel path

def visibleTreeRows (fuel : Nat) (nodes : List (Forest.Tree TreeHierarchyNode))
    (owner : Dict Text Text) (expansion : FileTreeExpansion) : Option (List TreeHierarchyNode) :=
  Forest.walkAllM (fun row => hidden fuel owner expansion row.path) nodes

/-- `expandablePaths`. -/
def expandablePaths (entries : List VaultFileEntry) : List Text :=
  entries.map VaultFileEntry.path

/-- A listing, as the store sorts it: every path once and made of names, and every folder above an
entry listed as a directory. -/
structure Listing [Locale] where
  entries : List VaultFileEntry
  distinct : (entries.map VaultFileEntry.path).Nodup
  clean : ∀ entry ∈ entries,nul ∉ entry.path
  plain : ∀ entry ∈ entries,Posix.Plain entry.path
  parents : ∀ entry ∈ entries,folderOf entry.path ≠ [] →
    ⟨folderOf entry.path,.directory⟩ ∈ entries
  sorted : entries.Pairwise fun a b => Locale.localeCompare a.path b.path ≠ .gt

/-! ### Paths -/

section Paths

variable {path : Text}

def depth (path : Text) : Nat := (Text.split '/' path).length

theorem exists_names (plain : Posix.Plain path) : ∃ dirs name,
    Text.split '/' path = dirs ++ [name] ∧ (∀ comp ∈ dirs,Posix.Named comp) ∧
      Posix.Named name := by
  obtain ⟨dirs,name,names⟩ :=
    (List.eq_nil_or_concat (Text.split '/' path)).resolve_left (List.splitOn_ne_nil _ _)
  rw [List.concat_eq_append] at names
  unfold Posix.Plain at plain
  rw [names] at plain
  exact ⟨dirs,name,names,fun comp member => plain comp (List.mem_append_left _ member),
    plain name (by simp)⟩

theorem join_eq_nil {comps : List Text} (named : ∀ comp ∈ comps,Posix.Named comp) :
    Text.join ['/'] comps = [] ↔ comps = [] := by
  constructor
  · intro empty
    by_contra some_
    obtain ⟨c,rest,begins,_⟩ := Posix.join_first some_ named
    cases begins.symm.trans empty
  · rintro rfl
    rfl

theorem folderOf_spec (plain : Posix.Plain path) (some_ : folderOf path ≠ []) :
    Posix.Plain (folderOf path) ∧ depth path = depth (folderOf path) + 1 ∧
      ancestors path = ancestors (folderOf path) ++ [folderOf path] ∧
      ∃ rest,path = folderOf path ++ '/' :: rest := by
  obtain ⟨dirs,name,names,named,last⟩ := exists_names plain
  have folder : folderOf path = Text.join ['/'] dirs := by simp [folderOf,names]
  rw [folder] at some_
  have dirs_ : dirs ≠ [] := fun none_ => some_ ((join_eq_nil named).mpr none_)
  have inner : Text.split '/' (folderOf path) = dirs := by
    rw [folder,Posix.split_join dirs_ fun comp member => (named comp member).whole]
  refine ⟨?_,by simp [depth,names,inner],?_,name,?_⟩
  · unfold Posix.Plain
    rwa [inner]
  · obtain ⟨n,count⟩ := Nat.exists_eq_succ_of_ne_zero (mt List.length_eq_zero_iff.mp dirs_)
    have whole : dirs.take (n + 1) = dirs := List.take_of_length_le (by omega)
    simp only [ancestors,names,inner,List.length_append,List.length_singleton,count,
      Nat.add_sub_cancel,Nat.succ_eq_add_one,List.range_succ (n := n),List.map_append,
      List.map_cons,List.map_nil]
    congr 1
    · apply List.map_congr_left
      intro m member
      have small := List.mem_range.mp member
      rw [List.take_append_of_le_length (by omega)]
    · rw [List.take_append_of_le_length (by omega),whole,folder]
  · rw [folder,← Posix.join_concat dirs_,← names,Text.join_split]

theorem ancestors_top (plain : Posix.Plain path) (top : folderOf path = []) :
    ancestors path = [] := by
  obtain ⟨dirs,name,names,named,_⟩ := exists_names plain
  have none_ : dirs = [] := (join_eq_nil named).mp (by simpa [folderOf,names] using top)
  simp [ancestors,names,none_]

/-- The note of the same name stands in the same folder. -/
theorem besideOf_spec (plain : Posix.Plain path) : folderOf (besideOf path) = folderOf path ∧
    depth (besideOf path) = depth path ∧ ancestors (besideOf path) = ancestors path := by
  obtain ⟨dirs,name,names,named,last⟩ := exists_names plain
  have whole : ∀ comp ∈ dirs ++ [name ++ ".md".toList],'/' ∉ comp := by
    intro comp member
    rcases List.mem_append.mp member with inside | final
    · exact (named comp inside).whole
    · rw [List.mem_singleton.mp final,List.mem_append]
      rintro (inside | inside)
      · exact last.whole inside
      · exact absurd inside (by decide)
  have joined : besideOf path = Text.join ['/'] (dirs ++ [name ++ ".md".toList]) := by
    have text : path = Text.join ['/'] (dirs ++ [name]) := by rw [← names,Text.join_split]
    by_cases none_ : dirs = []
    · simp [besideOf,text,none_,Text.join]
    · rw [besideOf,text,Posix.join_concat none_,Posix.join_concat none_]
      simp
  have parts : Text.split '/' (besideOf path) = dirs ++ [name ++ ".md".toList] := by
    rw [joined,Posix.split_join (by simp) whole]
  refine ⟨by simp [folderOf,names,parts],by simp [depth,names,parts],?_⟩
  simp only [ancestors,names,parts,List.length_append,List.length_singleton,Nat.add_sub_cancel]
  apply List.map_congr_left
  intro n member
  have small := List.mem_range.mp member
  rw [List.take_append_of_le_length (by omega),List.take_append_of_le_length (by omega)]

end Paths

end LocalBook.Workspace.Hierarchy
