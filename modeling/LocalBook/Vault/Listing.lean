import LocalBook.Vault.Plain
import LocalBook.Posix

/-! The listing of a Vault: a walk through its directories in the order of their scans, which hashes
the first files it meets, and the question whether what it prints can be addressed. -/
namespace LocalBook.Vault

open Effect

/-- What a directory holds, in the order of a scan; symbolic links left out. -/
inductive Folder where
  | nil
  | file (name : Text) (data : Bytes) (rest : Folder)
  | directory (name : Text) (inside rest : Folder)
  | special (name : Text) (rest : Folder)

namespace Folder

def get : Folder → Path → Option Node
  | _, [] => some .dir
  | .nil, _ :: _ => none
  | .file name data rest, first :: behind =>
    if first = name then if behind = [] then some (.file data) else none
    else rest.get (first :: behind)
  | .directory name inside rest, first :: behind =>
    if first = name then inside.get behind else rest.get (first :: behind)
  | .special name rest, first :: behind =>
    if first = name then if behind = [] then some .special else none
    else rest.get (first :: behind)

def names : Folder → List Text
  | .nil => []
  | .file name _ rest | .directory name _ rest | .special name rest => name :: rest.names

end Folder

structure Admitted (name : Text) : Prop where
  some_ : name ≠ []
  notDot : name ≠ ['.']
  notDotDot : name ≠ ['.','.']
  whole : '/' ∉ name
  nul : Char.ofNat 0 ∉ name
  short : Text.utf8Length name ≤ maxSegmentBytes

instance (name : Text) : Decidable (Admitted name) :=
  decidable_of_iff (name ≠ [] ∧ name ≠ ['.'] ∧ name ≠ ['.','.'] ∧ '/' ∉ name ∧
      Char.ofNat 0 ∉ name ∧ Text.utf8Length name ≤ maxSegmentBytes)
    ⟨fun ⟨a,b,c,d,e,f⟩ => ⟨a,b,c,d,e,f⟩,fun ⟨a,b,c,d,e,f⟩ => ⟨a,b,c,d,e,f⟩⟩

/-- Every name in a directory is taken by the file system, and only once. -/
def Folder.Sound : Folder → Prop
  | .nil => True
  | .file name _ rest | .special name rest => Admitted name ∧ name ∉ rest.names ∧ rest.Sound
  | .directory name inside rest =>
    Admitted name ∧ name ∉ rest.names ∧ inside.Sound ∧ rest.Sound

/-- A Vault without symbolic links, within the limit for paths: what its scans show, and the disk
that holds it. -/
structure Content where
  folder : Folder
  sound : folder.Sound
  short : ∀ p,folder.get p ≠ none → Text.utf8Length (display p) ≤ maxRelativePathBytes
  disk : Disk
  held : ∀ p,disk.tree.get p = folder.get p

inductive Kind where
  | file
  | directory
deriving DecidableEq

structure FileEntry where
  path : Text
  kind : Kind
  size : Option Nat
  sha256 : Option Text
deriving DecidableEq

def defaultListHashBudget : Nat := 64

/-- `is_hidden_name`. -/
def isHiddenName (name : Text) : Bool := Text.startsWith name ['.']

def passed (p : Path) (name : Text) : Bool :=
  isReservedDerivedPath (display (p ++ [name])) || isHiddenName name

/-- `visit`: the entries below a directory, and how many files may still be hashed. -/
def visit (maxFileBytes : Nat) : Folder → Path → Nat → List FileEntry × Nat
  | .nil, _, budget => ([],budget)
  | .special _ rest, p, budget => visit maxFileBytes rest p budget
  | .file name data rest, p, budget =>
    if passed p name then visit maxFileBytes rest p budget
    else
      let hashed := data.size ≤ maxFileBytes ∧ 0 < budget
      let behind := visit maxFileBytes rest p (if hashed then budget - 1 else budget)
      (⟨display (p ++ [name]),.file,some data.size,
        if hashed then some (sha256Bytes data) else none⟩ :: behind.1,behind.2)
  | .directory name inside rest, p, budget =>
    if passed p name then visit maxFileBytes rest p budget
    else
      let below := visit maxFileBytes inside (p ++ [name]) budget
      let behind := visit maxFileBytes rest p below.2
      (⟨display (p ++ [name]),.directory,none,none⟩ :: (below.1 ++ behind.1),behind.2)

namespace VaultService

variable (v : VaultService)

/-- `list_tree(".")`. -/
def listTree (folder : Folder) : List FileEntry :=
  (visit v.maxFileBytes folder [] defaultListHashBudget).1.insertionSort
    fun a b => a.path ≤ b.path

/-- `trash`, up to the point where the item is moved: what is to be moved, and its kind. -/
def trashSource (value : Text) (expectedSha256 : Option Text) : Look (Path × Kind) := do
  let relative ← Proc.ofExcept (validatePublicPath value)
  let source ← resolve relative {allowMissing := false}
  let info ← assertSafeExisting source relative
  match info with
  | .file _ =>
    match expectedSha256 with
    | none => Proc.throw (expectedHashRequired relative)
    | some expected => do
      let (_,digest) ← v.snapshot relative source
      if digest = expected then pure (source,.file) else Proc.throw (fileConflict relative)
  | .dir => pure (source,.directory)
  | _ => Proc.throw (notADirectory relative)

end VaultService

/-! ### What the walk meets -/

def listedAs : Node → Option (Kind × Option Nat)
  | .file data => some (.file,some data.size)
  | .dir => some (.directory,none)
  | _ => none

/-- No name on the way is hidden. -/
def Unhidden (p : Path) : Prop := p ≠ [] ∧ ∀ name ∈ p,isHiddenName name = false

def places : Folder → Path → List (Path × Node)
  | .nil, _ => []
  | .special _ rest, p => places rest p
  | .file name data rest, p =>
    if isHiddenName name then places rest p else (p ++ [name],.file data) :: places rest p
  | .directory name inside rest, p =>
    if isHiddenName name then places rest p
    else (p ++ [name],.dir) :: (places inside (p ++ [name]) ++ places rest p)

structure FileEntry.Of (entry : FileEntry) (place : Path × Node) : Prop where
  path : entry.path = display place.1
  listedAs : listedAs place.2 = some (entry.kind,entry.size)
  digest : ∀ digest ∈ entry.sha256,∃ data,place.2 = .file data ∧ digest = sha256Bytes data

theorem display_cons (c : Char) (first : Text) (others : Path) :
    ∃ rest,display ((c :: first) :: others) = c :: rest := by
  rw [display,if_neg (List.cons_ne_nil _ _)]
  cases others with
  | nil => exact ⟨first,by simp [Text.join]⟩
  | cons next others => exact ⟨_,by rw [Posix.join_cons_cons,List.cons_append]⟩

theorem dot_of_reserved {relative : Text} (reserved : isReservedDerivedPath relative = true) :
    ∃ rest,relative = '.' :: rest := by
  simp only [isReservedDerivedPath,Bool.or_eq_true,decide_eq_true_eq] at reserved
  rcases reserved with rfl | below
  · exact ⟨_,rfl⟩
  · obtain ⟨rest,rfl⟩ := List.isPrefixOf_iff_prefix.mp below
    exact ⟨_,rfl⟩

/-- A path below names that are not hidden is not reserved. -/
theorem not_reserved {p : Path} (visible : Unhidden p) (full : ∀ name ∈ p,name ≠ []) :
    isReservedDerivedPath (display p) = false := by
  refine Bool.eq_false_iff.mpr fun reserved => ?_
  obtain ⟨first,others,rfl⟩ := List.exists_cons_of_ne_nil visible.1
  obtain ⟨c,rest,rfl⟩ := List.exists_cons_of_ne_nil (full first List.mem_cons_self)
  obtain ⟨behind,same⟩ := display_cons c rest others
  obtain ⟨_,dot⟩ := dot_of_reserved reserved
  obtain rfl : c = '.' := (List.cons.inj (same.symm.trans dot)).1
  have clear := visible.2 _ List.mem_cons_self
  simp [isHiddenName,Text.startsWith] at clear

theorem passed_eq {p : Path} {name : Text} (clear : ∀ other ∈ p,isHiddenName other = false)
    (full : ∀ other ∈ p ++ [name],other ≠ []) : passed p name = isHiddenName name := by
  unfold passed
  cases hidden : isHiddenName name with
  | true => exact Bool.or_true _
  | false =>
    have visible : Unhidden (p ++ [name]) :=
      ⟨by simp,List.forall_mem_append.mpr ⟨clear,List.forall_mem_singleton.mpr hidden⟩⟩
    rw [not_reserved visible full,Bool.false_or]

/-- The walk prints its places, one entry for each. -/
theorem visit_places (maxFileBytes : Nat) {folder : Folder} (sound : folder.Sound) {p : Path}
    (clear : ∀ name ∈ p,isHiddenName name = false) (full : ∀ name ∈ p,name ≠ [])
    (budget : Nat) :
    List.Forall₂ FileEntry.Of (visit maxFileBytes folder p budget).1 (places folder p) := by
  induction folder generalizing p budget with
  | nil => exact .nil
  | special name rest ih => exact ih sound.2.2 clear full budget
  | file name data rest ih =>
    have longer : ∀ other ∈ p ++ [name],other ≠ [] :=
      List.forall_mem_append.mpr ⟨full,List.forall_mem_singleton.mpr sound.1.some_⟩
    rw [visit,places,passed_eq clear longer]
    split
    · exact ih sound.2.2 clear full budget
    · refine .cons ⟨rfl,rfl,fun digest found => ⟨data,rfl,?_⟩⟩ (ih sound.2.2 clear full _)
      change digest ∈ (if _ then some (sha256Bytes data) else none) at found
      split at found
      · exact (Option.mem_some_iff.mp found).symm
      · cases found
  | directory name inside rest ihInside ih =>
    have longer : ∀ other ∈ p ++ [name],other ≠ [] :=
      List.forall_mem_append.mpr ⟨full,List.forall_mem_singleton.mpr sound.1.some_⟩
    rw [visit,places,passed_eq clear longer]
    split
    · exact ih sound.2.2.2 clear full budget
    · next listed =>
      have clearer : ∀ other ∈ p ++ [name],isHiddenName other = false :=
        List.forall_mem_append.mpr
          ⟨clear,List.forall_mem_singleton.mpr (Bool.eq_false_iff.mpr listed)⟩
      have below := ihInside sound.2.2.1 clearer longer budget
      have none_ : ∀ digest ∈ (none : Option Text),∃ data,
          Node.dir = .file data ∧ digest = sha256Bytes data := fun _ found => (nomatch found)
      exact .cons ⟨rfl,rfl,none_⟩ (List.rel_append below (ih sound.2.2.2 clear full _))

theorem get_names {folder : Folder} {name : Text} {behind : Path}
    (found : folder.get (name :: behind) ≠ none) : name ∈ folder.names := by
  induction folder with
  | nil => exact absurd rfl found
  | special other rest ih =>
    by_cases same : name = other
    · exact same ▸ List.mem_cons_self
    · rw [Folder.get,if_neg same] at found
      exact List.mem_cons_of_mem _ (ih found)
  | file other data rest ih =>
    by_cases same : name = other
    · exact same ▸ List.mem_cons_self
    · rw [Folder.get,if_neg same] at found
      exact List.mem_cons_of_mem _ (ih found)
  | directory other inside rest _ ih =>
    by_cases same : name = other
    · exact same ▸ List.mem_cons_self
    · rw [Folder.get,if_neg same] at found
      exact List.mem_cons_of_mem _ (ih found)

/-- The name stands in front of what the rest of a directory has. -/
theorem get_rest {folder : Folder} {name other : Text} {behind : Path}
    (fresh : name ∉ folder.names) (found : folder.get (other :: behind) ≠ none) : other ≠ name := by
  rintro rfl
  exact fresh (get_names found)

/-- The place is reached from the directory at `p` over names that are not hidden. -/
def Reaches (folder : Folder) (p q : Path) (node : Node) : Prop :=
  ∃ r,q = p ++ r ∧ Unhidden r ∧ folder.get r = some node ∧ (listedAs node).isSome

/-- A place is reached over the first name or without it. -/
theorem reaches_step {folder rest : Folder} {name : Text} (fresh : name ∉ rest.names)
    (others : ∀ first behind,first ≠ name →
      folder.get (first :: behind) = rest.get (first :: behind)) {p q : Path} {node : Node} :
    Reaches folder p q node ↔
      (∃ behind,q = p ++ name :: behind ∧ Unhidden (name :: behind) ∧
        folder.get (name :: behind) = some node ∧ (listedAs node).isSome) ∨
      Reaches rest p q node := by
  constructor
  · rintro ⟨r,same,visible,found,listed⟩
    obtain ⟨first,behind,rfl⟩ := List.exists_cons_of_ne_nil visible.1
    by_cases here : first = name
    · subst here
      exact .inl ⟨behind,same,visible,found,listed⟩
    · exact .inr ⟨_,same,visible,others first behind here ▸ found,listed⟩
  · rintro (⟨behind,same,visible,found,listed⟩ | ⟨r,same,visible,found,listed⟩)
    · exact ⟨_,same,visible,found,listed⟩
    · obtain ⟨first,behind,rfl⟩ := List.exists_cons_of_ne_nil visible.1
      have other := get_rest fresh (found ▸ Option.some_ne_none node)
      exact ⟨_,same,visible,(others first behind other).trans found,listed⟩

theorem unhidden_cons {name : Text} {behind : Path} : Unhidden (name :: behind) ↔
    isHiddenName name = false ∧ (behind = [] ∨ Unhidden behind) := by
  unfold Unhidden
  rw [List.forall_mem_cons]
  constructor
  · rintro ⟨-,here,later⟩
    by_cases last : behind = []
    · exact ⟨here,.inl last⟩
    · exact ⟨here,.inr ⟨last,later⟩⟩
  · rintro ⟨here,last | later⟩
    · exact ⟨List.cons_ne_nil _ _,here,last ▸ fun _ member => (List.not_mem_nil member).elim⟩
    · exact ⟨List.cons_ne_nil _ _,here,later.2⟩

/-- The places are what can be reached over names that are not hidden. -/
theorem mem_places {folder : Folder} (sound : folder.Sound) {p q : Path} {node : Node} :
    (q,node) ∈ places folder p ↔ Reaches folder p q node := by
  induction folder generalizing p with
  | nil =>
    refine iff_of_false (List.not_mem_nil) ?_
    rintro ⟨r,-,visible,found,-⟩
    obtain ⟨first,behind,rfl⟩ := List.exists_cons_of_ne_nil visible.1
    cases found
  | special name rest ih =>
    have step : Reaches (.special name rest) p q node ↔ _ :=
      reaches_step sound.2.1 fun first behind other => by rw [Folder.get,if_neg other]
    rw [places,ih sound.2.2,step]
    refine (or_iff_right ?_).symm
    rintro ⟨behind,-,-,found,listed⟩
    rw [Folder.get,if_pos rfl] at found
    split at found
    · cases found
      cases listed
    · cases found
  | file name data rest ih =>
    rw [places,reaches_step sound.2.1 fun first behind other => by rw [Folder.get,if_neg other]]
    cases hidden : isHiddenName name with
    | true =>
      rw [if_pos rfl,ih sound.2.2]
      refine (or_iff_right ?_).symm
      rintro ⟨behind,-,visible,-,-⟩
      exact absurd (unhidden_cons.mp visible).1 (by simp [hidden])
    | false =>
      rw [if_neg Bool.false_ne_true,List.mem_cons,ih sound.2.2]
      refine or_congr_left ⟨fun same => ?_,?_⟩
      · obtain ⟨rfl,rfl⟩ := Prod.mk.inj same
        exact ⟨[],rfl,unhidden_cons.mpr ⟨hidden,.inl rfl⟩,by simp [Folder.get],rfl⟩
      · rintro ⟨behind,rfl,-,found,-⟩
        rw [Folder.get,if_pos rfl] at found
        split at found
        · next last =>
          obtain rfl := Option.some.inj found
          rw [last]
        · cases found
  | directory name inside rest ihInside ih =>
    rw [places,reaches_step sound.2.1 fun first behind other => by rw [Folder.get,if_neg other]]
    cases hidden : isHiddenName name with
    | true =>
      rw [if_pos rfl,ih sound.2.2.2]
      refine (or_iff_right ?_).symm
      rintro ⟨behind,-,visible,-,-⟩
      exact absurd (unhidden_cons.mp visible).1 (by simp [hidden])
    | false =>
      rw [if_neg Bool.false_ne_true,List.mem_cons,List.mem_append,ih sound.2.2.2,
        ihInside sound.2.2.1,← or_assoc]
      refine or_congr_left ⟨?_,?_⟩
      · rintro (same | ⟨r,rfl,visible,found,listed⟩)
        · obtain ⟨rfl,rfl⟩ := Prod.mk.inj same
          exact ⟨[],rfl,unhidden_cons.mpr ⟨hidden,.inl rfl⟩,by simp [Folder.get],rfl⟩
        · exact ⟨r,by simp,unhidden_cons.mpr ⟨hidden,.inr visible⟩,
            by rw [Folder.get,if_pos rfl,found],listed⟩
      · rintro ⟨behind,rfl,visible,found,listed⟩
        rw [Folder.get,if_pos rfl] at found
        rcases (unhidden_cons.mp visible).2 with rfl | deeper
        · rw [Folder.get] at found
          exact .inl (by rw [Option.some.inj found])
        · exact .inr ⟨behind,by simp,deeper,found,listed⟩

/-- Every path of a walk begins with a name of its directory. -/
theorem names_of_places {folder : Folder} (sound : folder.Sound) {p : Path}
    {place : Path × Node} (member : place ∈ places folder p) :
    ∃ name behind,place.1 = p ++ name :: behind ∧ name ∈ folder.names := by
  obtain ⟨r,same,visible,found,-⟩ := (mem_places sound).mp member
  obtain ⟨first,behind,rfl⟩ := List.exists_cons_of_ne_nil visible.1
  exact ⟨first,behind,same,get_names (found ▸ Option.some_ne_none _)⟩

theorem places_apart {rest : Folder} {name : Text} (fresh : name ∉ rest.names)
    (sound : rest.Sound) (p behind : Path) :
    p ++ name :: behind ∉ (places rest p).map Prod.fst := by
  intro member
  obtain ⟨place,inside,same⟩ := List.mem_map.mp member
  obtain ⟨other,later,shape,known⟩ := names_of_places sound inside
  rw [same] at shape
  obtain ⟨rfl,-⟩ := List.cons.inj (List.append_cancel_left shape)
  exact fresh known

/-- The walk comes to no path twice. -/
theorem nodup_places {folder : Folder} (sound : folder.Sound) (p : Path) :
    ((places folder p).map Prod.fst).Nodup := by
  induction folder generalizing p with
  | nil => exact .nil
  | special name rest ih => exact ih sound.2.2 p
  | file name data rest ih =>
    rw [places]
    split
    · exact ih sound.2.2 p
    · exact List.nodup_cons.mpr ⟨places_apart sound.2.1 sound.2.2 p [],ih sound.2.2 p⟩
  | directory name inside rest ihInside ih =>
    rw [places]
    split
    · exact ih sound.2.2.2 p
    · have below : ∀ path ∈ (places inside (p ++ [name])).map Prod.fst,
          ∃ first behind,path = p ++ name :: first :: behind := by
        intro path member
        obtain ⟨place,there,rfl⟩ := List.mem_map.mp member
        obtain ⟨first,behind,shape,-⟩ := names_of_places sound.2.2.1 there
        exact ⟨first,behind,by simpa using shape⟩
      rw [List.map_cons,List.map_append,List.nodup_cons,List.nodup_append]
      refine ⟨fun member => ?_,ihInside sound.2.2.1 _,ih sound.2.2.2 p,?_⟩
      · rcases List.mem_append.mp member with there | later
        · obtain ⟨first,behind,same⟩ := below _ there
          simpa using congrArg List.length same
        · exact places_apart sound.2.1 sound.2.2.2 p [] later
      · intro path there path' later same
        subst same
        obtain ⟨first,behind,rfl⟩ := below _ there
        exact places_apart sound.2.1 sound.2.2.2 p _ later

/-! ### Which files are hashed -/

def mayHash (maxFileBytes : Nat) (place : Path × Node) : Bool :=
  place.2.isFile && decide (place.2.size ≤ maxFileBytes)

def marks (maxFileBytes : Nat) : Nat → List (Path × Node) → List Bool
  | _, [] => []
  | budget, place :: rest =>
    if mayHash maxFileBytes place then
      decide (0 < budget) :: marks maxFileBytes (budget - 1) rest
    else false :: marks maxFileBytes budget rest

theorem marks_append (maxFileBytes budget : Nat) (front rest : List (Path × Node)) :
    marks maxFileBytes budget (front ++ rest) = marks maxFileBytes budget front ++
      marks maxFileBytes (budget - front.countP (mayHash maxFileBytes)) rest := by
  induction front generalizing budget with
  | nil => rfl
  | cons place front ih =>
    rw [List.cons_append,marks,marks,List.countP_cons]
    split
    · rw [ih,Nat.sub_sub,Nat.add_comm 1]
      rfl
    · rw [ih,Nat.add_zero]
      rfl

/-- The budget goes to the first files that may be hashed. -/
theorem marks_getElem (maxFileBytes : Nat) {budget i : Nat} {l : List (Path × Node)}
    (inside : i < l.length) (marked : i < (marks maxFileBytes budget l).length) :
    (marks maxFileBytes budget l)[i] = true ↔ mayHash maxFileBytes l[i] = true ∧
      (l.take i).countP (mayHash maxFileBytes) < budget := by
  induction l generalizing budget i with
  | nil => exact absurd inside (Nat.not_lt_zero i)
  | cons place rest ih =>
    cases may : mayHash maxFileBytes place with
    | true =>
      have step : marks maxFileBytes budget (place :: rest) =
          decide (0 < budget) :: marks maxFileBytes (budget - 1) rest := by
        rw [marks,if_pos may]
      simp only [step] at marked ⊢
      cases i with
      | zero => simp [may]
      | succ i =>
        simp only [List.getElem_cons_succ,List.take_succ_cons,List.countP_cons,may,if_true]
        rw [ih (Nat.lt_of_succ_lt_succ inside) (Nat.lt_of_succ_lt_succ marked)]
        exact and_congr_right fun _ => by omega
    | false =>
      have step : marks maxFileBytes budget (place :: rest) =
          false :: marks maxFileBytes budget rest := by
        rw [marks,if_neg (by simp [may])]
      simp only [step] at marked ⊢
      cases i with
      | zero => simp [may]
      | succ i =>
        simp only [List.getElem_cons_succ,List.take_succ_cons,List.countP_cons,may,
          Bool.false_eq_true,if_false,Nat.add_zero]
        exact ih (Nat.lt_of_succ_lt_succ inside) (Nat.lt_of_succ_lt_succ marked)

/-- The walk hashes what is marked, and hands the rest of its budget on. -/
theorem visit_marks (maxFileBytes : Nat) {folder : Folder} (sound : folder.Sound) {p : Path}
    (clear : ∀ name ∈ p,isHiddenName name = false) (full : ∀ name ∈ p,name ≠ [])
    (budget : Nat) :
    (visit maxFileBytes folder p budget).1.map (fun entry => entry.sha256.isSome) =
        marks maxFileBytes budget (places folder p) ∧
      (visit maxFileBytes folder p budget).2 =
        budget - (places folder p).countP (mayHash maxFileBytes) := by
  induction folder generalizing p budget with
  | nil => exact ⟨rfl,rfl⟩
  | special name rest ih => exact ih sound.2.2 clear full budget
  | file name data rest ih =>
    have longer : ∀ other ∈ p ++ [name],other ≠ [] :=
      List.forall_mem_append.mpr ⟨full,List.forall_mem_singleton.mpr sound.1.some_⟩
    rw [visit,places,passed_eq clear longer]
    split
    · exact ih sound.2.2 clear full budget
    · have own : mayHash maxFileBytes (p ++ [name],.file data) =
          decide (data.size ≤ maxFileBytes) := Bool.true_and _
      rw [marks,own,List.countP_cons,own]
      by_cases small : data.size ≤ maxFileBytes
      · by_cases left_ : 0 < budget
        · have both : data.size ≤ maxFileBytes ∧ 0 < budget := ⟨small,left_⟩
          have behind := ih sound.2.2 clear full (budget - 1)
          simp only [both,and_self,if_true,decide_true,List.map_cons,Option.isSome_some]
          exact ⟨by rw [behind.1],by rw [behind.2]; omega⟩
        · have behind := ih sound.2.2 clear full budget
          have none_ : budget - 1 = budget := by omega
          simp only [left_,and_false,if_false,small,decide_true,decide_false,if_true,
            List.map_cons,Option.isSome_none,none_]
          exact ⟨by rw [behind.1],by rw [behind.2]; omega⟩
      · have behind := ih sound.2.2 clear full budget
        simp only [small,false_and,if_false,decide_false,Bool.false_eq_true,List.map_cons,
          Option.isSome_none,Nat.add_zero]
        exact ⟨by rw [behind.1],behind.2⟩
  | directory name inside rest ihInside ih =>
    have longer : ∀ other ∈ p ++ [name],other ≠ [] :=
      List.forall_mem_append.mpr ⟨full,List.forall_mem_singleton.mpr sound.1.some_⟩
    rw [visit,places,passed_eq clear longer]
    split
    · exact ih sound.2.2.2 clear full budget
    · next listed =>
      have clearer : ∀ other ∈ p ++ [name],isHiddenName other = false :=
        List.forall_mem_append.mpr
          ⟨clear,List.forall_mem_singleton.mpr (Bool.eq_false_iff.mpr listed)⟩
      have below := ihInside sound.2.2.1 clearer longer budget
      have behind := ih sound.2.2.2 clear full
        (visit maxFileBytes inside (p ++ [name]) budget).2
      have own : mayHash maxFileBytes (p ++ [name],.dir) = false := Bool.false_and _
      rw [marks,if_neg (by simp [own]),List.countP_cons_of_neg (by simp [own]),
        List.countP_append,marks_append,List.map_cons,List.map_append,below.1,behind.1,behind.2,
        below.2]
      exact ⟨rfl,Nat.sub_sub ..⟩

/-! ### What stands at a path of the walk -/

theorem admitted_of_get {folder : Folder} (sound : folder.Sound) {p : Path}
    (found : folder.get p ≠ none) : ∀ name ∈ p,Admitted name := by
  induction folder generalizing p with
  | nil =>
    cases p with
    | nil => exact fun _ member => (List.not_mem_nil member).elim
    | cons first behind => exact absurd rfl found
  | special name rest ih =>
    cases p with
    | nil => exact fun _ member => (List.not_mem_nil member).elim
    | cons first behind =>
      rw [Folder.get] at found
      split at found
      · next same =>
        split at found
        · next last =>
          rw [last,same]
          exact fun _ member => List.mem_singleton.mp member ▸ sound.1
        · exact absurd rfl found
      · exact ih sound.2.2 found
  | file name data rest ih =>
    cases p with
    | nil => exact fun _ member => (List.not_mem_nil member).elim
    | cons first behind =>
      rw [Folder.get] at found
      split at found
      · next same =>
        split at found
        · next last =>
          rw [last,same]
          exact fun _ member => List.mem_singleton.mp member ▸ sound.1
        · exact absurd rfl found
      · exact ih sound.2.2 found
  | directory name inside rest ihInside ih =>
    cases p with
    | nil => exact fun _ member => (List.not_mem_nil member).elim
    | cons first behind =>
      rw [Folder.get] at found
      split at found
      · next same =>
        exact List.forall_mem_cons.mpr ⟨same ▸ sound.1,ihInside sound.2.2.1 found⟩
      · exact ih sound.2.2.2 found

/-- What has something below it is a directory. -/
theorem dir_of_below {folder : Folder} {p behind : Path} (below : behind ≠ [])
    (found : folder.get (p ++ behind) ≠ none) : folder.get p = some .dir := by
  induction folder generalizing p with
  | nil =>
    cases p with
    | nil => rfl
    | cons first rest => exact absurd rfl found
  | special name rest ih =>
    cases p with
    | nil => rfl
    | cons first more =>
      rw [List.cons_append,Folder.get] at found
      rw [Folder.get]
      split at found
      · rw [if_neg (by simp [below])] at found
        exact absurd rfl found
      · next other =>
        rw [if_neg other]
        exact ih found
  | file name data rest ih =>
    cases p with
    | nil => rfl
    | cons first more =>
      rw [List.cons_append,Folder.get] at found
      rw [Folder.get]
      split at found
      · rw [if_neg (by simp [below])] at found
        exact absurd rfl found
      · next other =>
        rw [if_neg other]
        exact ih found
  | directory name inside rest ihInside ih =>
    cases p with
    | nil => rfl
    | cons first more =>
      rw [List.cons_append,Folder.get] at found
      rw [Folder.get]
      split at found
      · next same =>
        rw [if_pos same]
        exact ihInside found
      · next other =>
        rw [if_neg other]
        exact ih found

theorem get_root (folder : Folder) : folder.get [] = some .dir := by
  cases folder <;> rfl

namespace Content

variable (c : Content)

theorem at_of_get {p : Path} {node : Node} (found : c.folder.get p = some node) :
    c.disk.tree.At p node := by
  refine ⟨fun q above => ?_,(c.held p).trans found⟩
  rw [c.held]
  by_cases root : p = []
  · subst root
    obtain rfl := List.prefix_nil.mp above
    exact get_root c.folder
  · obtain ⟨behind,same⟩ := above
    have whole : p = q ++ (behind ++ [p.getLast root]) := by
      rw [← List.append_assoc,same,List.dropLast_append_getLast]
    have below : behind ++ [p.getLast root] ≠ [] := by simp
    refine dir_of_below below ?_
    rw [← whole,found]
    exact Option.some_ne_none node

end Content

/-! ### Which paths the validators take -/

/-- The names a path may have: no backslash anywhere, and in front no drive and no device. -/
def Addressable (p : Path) : Prop :=
  (∀ name ∈ p,Char.ofNat 92 ∉ name) ∧
    ∀ first ∈ p.head?,first[1]? ≠ some ':' ∧ first.head? ≠ some '?'

theorem split_display {p : Path} (some_ : p ≠ []) (whole : ∀ name ∈ p,'/' ∉ name) :
    Text.split '/' (display p) = p := by
  rw [display,if_neg some_,Posix.split_join some_ whole]

theorem display_injective {p q : Path} (some_ : p ≠ []) (other : q ≠ [])
    (whole : ∀ name ∈ p,'/' ∉ name) (whole' : ∀ name ∈ q,'/' ∉ name)
    (same : display p = display q) : p = q := by
  rw [← split_display some_ whole,← split_display other whole',same]

/-- A drive letter is printed only by a name that has a colon behind it. -/
theorem drive_display {c : Char} {first : Text} {others : Path}
    (colon : (c :: first)[1]? ≠ some ':') : hasDrivePrefix (display ((c :: first) :: others)) =
      false := by
  rw [display,if_neg (List.cons_ne_nil _ _)]
  cases first with
  | nil =>
    cases others with
    | nil => rfl
    | cons next others =>
      rw [Posix.join_cons_cons]
      exact Bool.and_false _
  | cons second first =>
    have other : (second == ':') = false := by
      rw [beq_eq_false_iff_ne]
      exact fun same => colon (by rw [same]; rfl)
    cases others with
    | nil =>
      change (isLetter c && second == ':') = false
      rw [other,Bool.and_false]
    | cons next others =>
      rw [Posix.join_cons_cons]
      change (isLetter c && second == ':') = false
      rw [other,Bool.and_false]

theorem mem_display {p : Path} {c : Char} (some_ : p ≠ []) (member : c ∈ display p)
    (other : c ≠ '/') : ∃ name ∈ p,c ∈ name := by
  rw [display,if_neg some_] at member
  exact (Posix.mem_join member).resolve_left other

theorem mem_display_of_mem {p : Path} {c : Char} {name : Text} (inside : name ∈ p)
    (member : c ∈ name) : c ∈ display p := by
  rw [display,if_neg (List.ne_nil_of_mem inside)]
  exact Posix.mem_join_of_mem inside member

/-- A printed path is accepted iff its names may stand in a path. -/
theorem canonical_iff {p : Path} (some_ : p ≠ []) (admitted : ∀ name ∈ p,Admitted name)
    (short : Text.utf8Length (display p) ≤ maxRelativePathBytes) :
    Canonical (display p) ↔ Addressable p := by
  have split := split_display some_ fun name member => (admitted name member).whole
  constructor
  · intro canonical
    refine ⟨fun name member bad => canonical.backslash (mem_display_of_mem member bad),
      fun first head => ⟨?_,?_⟩⟩
    · have colon := canonical.colon
      rw [split,Option.mem_def.mp head] at colon
      exact colon
    · intro mark
      obtain ⟨first',others,rfl⟩ := List.exists_cons_of_ne_nil some_
      obtain rfl := Option.some.inj head
      obtain ⟨c,rest,rfl⟩ := List.exists_cons_of_ne_nil (admitted first' List.mem_cons_self).some_
      obtain ⟨behind,same⟩ := display_cons c rest others
      exact canonical.device (by rw [same]; exact mark)
  · rintro ⟨slashes,head⟩
    obtain ⟨first,others,rfl⟩ := List.exists_cons_of_ne_nil some_
    have ⟨colon,mark⟩ := head first rfl
    have own := admitted first List.mem_cons_self
    obtain ⟨c,rest,rfl⟩ := List.exists_cons_of_ne_nil own.some_
    obtain ⟨behind,same⟩ := display_cons c rest others
    have slash : c ≠ '/' := fun here => own.whole (here ▸ List.mem_cons_self)
    refine ⟨by rw [same]; exact List.cons_ne_nil _ _,fun nul => ?_,fun bad => ?_,?_,
      drive_display colon,?_,short,?_,?_,?_⟩
    · obtain ⟨name,member,inside⟩ := mem_display some_ nul (by decide)
      exact (admitted name member).nul inside
    · obtain ⟨name,member,inside⟩ := mem_display some_ bad (by decide)
      exact slashes name member inside
    · rw [same]
      exact fun here => slash (Option.some.inj here)
    · rw [same]
      exact mark
    · rw [split]
      exact fun empty => (admitted [] empty).some_ rfl
    · rw [split]
      refine List.findSome?_eq_none_iff.mpr fun name member => ?_
      have own := admitted name member
      rw [if_neg (by simp [own.notDot,own.notDotDot]),if_neg (Nat.not_lt.mpr own.short)]
    · rw [split]
      exact colon

/-! ### Everything listed can be addressed -/

namespace VaultService

variable (v : VaultService)

/-- The entries are the visible directories and files, each once and in order. -/
structure Exact (folder : Folder) (entries : List FileEntry) : Prop where
  listed : ∀ path kind size,
    (∃ entry ∈ entries,entry.path = path ∧ entry.kind = kind ∧ entry.size = size) ↔
      ∃ p node,path = display p ∧ Unhidden p ∧ folder.get p = some node ∧
        listedAs node = some (kind,size)
  once : (entries.map FileEntry.path).Nodup
  sorted : entries.Pairwise fun a b => a.path ≤ b.path

/-- The path is accepted, and so are the operations on what stands there. -/
structure Usable [Host] (c : Content) (path : Text) (p : Path) (node : Node) : Prop where
  valid : validateRelativePath path false = .ok path
  read : ∀ data,node = .file data → data.size ≤ v.maxFileBytes →
    eval ReadOp.answer (v.readBytes path) c.disk = .ok (data,sha256Bytes data)
  opened : node = .dir → eval ReadOp.answer (resolveExistingDirectory path false) c.disk = .ok p
  moved : ∀ data destination,node = .file data → PublicPath destination →
    c.disk.tree.VacantAt (relativeParts destination) →
    run FsOp.step (v.moveFile path destination (some (sha256Bytes data))) c.disk =
      (.ok ⟨destination,some (sha256Bytes data),some data.size,.moved⟩,
        LocalBook.Vault.moved c.disk p (relativeParts destination))
  trashedFile : ∀ data,node = .file data →
    eval ReadOp.answer (v.trashSource path (some (sha256Bytes data))) c.disk = .ok (p,.file)
  trashedDirectory : ∀ expected,node = .dir →
    eval ReadOp.answer (v.trashSource path expected) c.disk = .ok (p,.directory)

theorem perm_listTree (folder : Folder) : (v.listTree folder).Perm
    (visit v.maxFileBytes folder [] defaultListHashBudget).1 := List.perm_insertionSort _ _

theorem visit_top {folder : Folder} (sound : folder.Sound) : List.Forall₂ FileEntry.Of
    (visit v.maxFileBytes folder [] defaultListHashBudget).1 (places folder []) :=
  visit_places v.maxFileBytes sound (fun _ member => (List.not_mem_nil member).elim)
    (fun _ member => (List.not_mem_nil member).elim) _

theorem whole_of_place {folder : Folder} (sound : folder.Sound) {p : Path} {node : Node}
    (found : folder.get p = some node) : ∀ name ∈ p,'/' ∉ name := fun name member =>
  (admitted_of_get sound (found ▸ Option.some_ne_none node) name member).whole

theorem mem_listTree {folder : Folder} (sound : folder.Sound) {entry : FileEntry}
    (member : entry ∈ v.listTree folder) : ∃ p node,entry.Of (p,node) ∧ Unhidden p ∧
      folder.get p = some node := by
  obtain ⟨i,here,rfl⟩ := List.getElem_of_mem ((v.perm_listTree folder).mem_iff.mp member)
  have both := List.forall₂_iff_get.mp (v.visit_top sound)
  have there : i < (places folder []).length := both.1 ▸ here
  obtain ⟨r,same,visible,found,-⟩ := (mem_places sound).mp (List.getElem_mem there)
  rw [List.nil_append] at same
  exact ⟨_,_,both.2 i here there,same ▸ visible,same ▸ found⟩

/-- `list_tree` lists exactly what is visible. -/
theorem exact_listTree {folder : Folder} (sound : folder.Sound) :
    Exact folder (v.listTree folder) where
  listed := by
    intro path kind size
    constructor
    · rintro ⟨entry,member,rfl,rfl,rfl⟩
      obtain ⟨p,node,tells,visible,found⟩ := v.mem_listTree sound member
      exact ⟨p,node,tells.path,visible,found,tells.listedAs⟩
    · rintro ⟨p,node,rfl,visible,found,listed⟩
      have inside : (p,node) ∈ places folder [] :=
        (mem_places sound).mpr ⟨p,rfl,visible,found,by rw [listed]; rfl⟩
      obtain ⟨i,here,same⟩ := List.getElem_of_mem inside
      have both := List.forall₂_iff_get.mp (v.visit_top sound)
      have there := lt_of_lt_of_eq here both.1.symm
      have tells := both.2 i there here
      rw [List.get_eq_getElem,List.get_eq_getElem,same] at tells
      refine ⟨_,(v.perm_listTree folder).mem_iff.mpr (List.getElem_mem there),
        tells.path,?_⟩
      have told := Option.some.inj (tells.listedAs.symm.trans listed)
      exact ⟨congrArg Prod.fst told,congrArg Prod.snd told⟩
  once := by
    refine ((v.perm_listTree folder).map FileEntry.path).nodup_iff.mpr ?_
    have paths : (visit v.maxFileBytes folder [] defaultListHashBudget).1.map FileEntry.path =
        (places folder []).map fun place => display place.1 := by
      refine congrFun₂ List.forall₂_eq_eq_eq _ _ |>.mp (List.forall₂_map_left_iff.mpr
        (List.forall₂_map_right_iff.mpr ?_))
      exact (v.visit_top sound).imp fun _ _ tells => tells.path
    rw [paths]
    refine List.Nodup.map_on ?_ (List.Nodup.of_map _ (nodup_places sound []))
    rintro ⟨p,node⟩ inside ⟨q,node'⟩ inside' same
    obtain ⟨_,rfl,visible,found,-⟩ := (mem_places sound).mp inside
    obtain ⟨_,rfl,visible',found',-⟩ := (mem_places sound).mp inside'
    obtain rfl := display_injective visible.1 visible'.1 (whole_of_place sound found)
      (whole_of_place sound found') same
    exact congrArg _ (Option.some.inj (found.symm.trans found'))
  sorted := by
    have total : Std.Total fun a b : FileEntry => a.path ≤ b.path := ⟨fun a b => le_total _ _⟩
    have trans : IsTrans FileEntry fun a b => a.path ≤ b.path := ⟨fun _ _ _ => le_trans⟩
    exact List.pairwise_insertionSort _ _

theorem usable_of_addressable [Host] (c : Content) {p : Path} {node : Node} (visible : Unhidden p)
    (found : c.folder.get p = some node) (addressable : Addressable p)
    (small : node.size ≤ v.maxFileBytes) : v.Usable c (display p) p node := by
  have there : c.folder.get p ≠ none := found ▸ Option.some_ne_none node
  have admitted := admitted_of_get c.sound there
  have canonical : Canonical (display p) :=
    (canonical_iff visible.1 admitted (c.short p there)).mpr addressable
  have free : isReservedDerivedPath (display p) = false :=
    not_reserved visible fun name member => (admitted name member).some_
  have parts : relativeParts (display p) = p := by
    rw [relativeParts_of_canonical canonical,
      split_display visible.1 fun name member => (admitted name member).whole]
  have standing := c.at_of_get found
  have accepted : validatePublicPath (display p) = .ok (display p) :=
    validatePublicPath_iff.mpr ⟨⟨canonical,free⟩,rfl⟩
  have valid : validateRelativePath (display p) false = .ok (display p) :=
    validate_iff.mpr ⟨canonical,rfl⟩
  refine ⟨valid,?_,?_,?_,?_,?_⟩
  · rintro data rfl -
    exact eval_readBytes.mpr ⟨⟨canonical,free⟩,by rw [parts]; exact standing,small,rfl⟩
  · rintro rfl
    exact eval_resolve_directory.mpr ⟨_,valid,parts,Tree.dirs_iff_at.mpr standing⟩
  · rintro data destination rfl public_ vacant
    have known : KnownFile v c.disk (display p) (some (sha256Bytes data)) data :=
      ⟨by rw [parts]; exact standing,small,expects_sha256Bytes data⟩
    rw [run_moveFile v c.disk (display p) (some (sha256Bytes data))
      ⟨⟨canonical,free⟩,public_,known,vacant⟩,parts]
  · rintro data rfl
    have resolved : eval ReadOp.answer (resolve (display p) {allowMissing := false}) c.disk =
        .ok p := (eval_resolve_strict rfl).mpr ⟨_,valid,parts,_,standing,rfl,by simp,by simp⟩
    have safe : eval ReadOp.answer (assertSafeExisting p (display p)) c.disk =
        .ok (.file data) := eval_assertSafeExisting.mpr ⟨standing,rfl⟩
    have content : eval ReadOp.answer (v.snapshot (display p) p) c.disk =
        .ok (data,sha256Bytes data) := (eval_snapshot standing).mpr ⟨small,rfl⟩
    simp [trashSource,eval_bind,accepted,resolved,safe,content]
  · rintro expected rfl
    have resolved : eval ReadOp.answer (resolve (display p) {allowMissing := false}) c.disk =
        .ok p := (eval_resolve_strict rfl).mpr ⟨_,valid,parts,_,standing,rfl,by simp,by simp⟩
    have safe : eval ReadOp.answer (assertSafeExisting p (display p)) c.disk = .ok .dir :=
      eval_assertSafeExisting.mpr ⟨standing,rfl⟩
    simp [trashSource,eval_bind,accepted,resolved,safe]

/-- A file is taken into the trash only within the size limit. -/
theorem small_of_trashed {c : Content} {p : Path} {path expected : Text} {data : Bytes}
    (standing : c.disk.tree.FileAt p data)
    (trashed : eval ReadOp.answer (v.trashSource path (some expected)) c.disk = .ok (p,.file)) :
    data.size ≤ v.maxFileBytes := by
  simp only [trashSource,eval_bind_eq_ok] at trashed
  obtain ⟨relative,-,source,-,info,safe,answer⟩ := trashed
  cases info with
  | file content =>
    simp only [eval_bind_eq_ok] at answer
    obtain ⟨⟨content',digest⟩,snap,last⟩ := answer
    have here := (eval_assertSafeExisting.mp safe).1
    have small := ((eval_snapshot here).mp snap).1
    split at last
    · obtain ⟨rfl,-⟩ := Prod.mk.inj (Except.ok.inj last)
      obtain rfl := Node.file.inj (Option.some.inj (here.2.symm.trans standing.2))
      exact small
    · cases last
  | dir => cases answer
  | symlink target => cases answer
  | special => cases answer

end VaultService

/-! ### A name with a backslash -/

def backslashName : Text := ['a',Char.ofNat 92,'b']

def backslashFolder : Folder := .file backslashName .empty .nil

theorem backslash_sound : backslashFolder.Sound := ⟨by decide,by decide,trivial⟩

theorem backslash_get (p : Path) : backslashFolder.get p =
    if p = [] then some .dir else if p = [backslashName] then some (.file .empty) else none := by
  cases p with
  | nil => rfl
  | cons first behind =>
    rw [if_neg (List.cons_ne_nil _ _),backslashFolder,Folder.get]
    by_cases here : first = backslashName
    · by_cases last : behind = []
      · rw [if_pos here,if_pos last,if_pos (by rw [here,last])]
      · rw [if_pos here,if_neg last,if_neg (by simp [last])]
    · rw [if_neg here,if_neg (by simp [here])]
      rfl

theorem backslash_short (p : Path) (found : backslashFolder.get p ≠ none) :
    Text.utf8Length (display p) ≤ maxRelativePathBytes := by
  rw [backslash_get] at found
  split at found
  · next root => rw [root]; decide
  · split at found
    · next here => rw [here]; decide
    · exact absurd rfl found

theorem backslash_held (p : Path) :
    (Disk.bare.setTree [backslashName] (some (.file .empty))).tree.get p =
      backslashFolder.get p := by
  rw [backslash_get,Disk.setTree_tree,Tree.get_set,Disk.bare,Tree.get_set]
  by_cases root : p = []
  · rw [if_pos root,if_pos root,if_neg (by rw [root]; decide)]
  · rw [if_neg root,if_neg root]
    rfl

def backslashed : Content where
  folder := backslashFolder
  sound := backslash_sound
  short := backslash_short
  disk := Disk.bare.setTree [backslashName] (some (.file .empty))
  held := backslash_held

end LocalBook.Vault
