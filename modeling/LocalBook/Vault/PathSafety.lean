import LocalBook.Vault.Disk

/-! Lexical validation of root-relative paths, and the checks every Vault operation
repeats around its system calls: no symbolic link on the way, nothing outside the
root. On a quiet disk each check is characterised by what stands at the path. -/
namespace LocalBook.Vault

open Effect

def maxRelativePathBytes : Nat := 4096

def maxSegmentBytes : Nat := 255

/-- The `ValueError`s of `normalize_relative_path`. -/
inductive PathFault where
  | empty
  | nul
  | backslash
  | absolute
  | tooLong
  | emptySegment
  | unsafeSegment
  | segmentTooLong
  | drivePrefix
  | devicePrefix
deriving Repr,DecidableEq

def segmentFault (segments : List Text) : Option PathFault :=
  segments.findSome? fun segment =>
    if segment = ['.'] ∨ segment = ['.','.'] then some .unsafeSegment
    else if Text.utf8Length segment > maxSegmentBytes then some .segmentTooLong
    else none

def normalizeRelativePath (value : Text) : Except PathFault Text :=
  let segments := Text.split '/' value
  if value = [] then .error .empty
  else if Char.ofNat 0 ∈ value then .error .nul
  else if Char.ofNat 92 ∈ value then .error .backslash
  else if value.head? = some '/' then .error .absolute
  else if Text.utf8Length value > maxRelativePathBytes then .error .tooLong
  else if [] ∈ segments then .error .emptySegment
  else match segmentFault segments with
    | some fault => .error fault
    | none =>
      if (segments.head?.bind fun first => first[1]?) = some ':' then .error .drivePrefix
      else if value.head? = some '?' then .error .devicePrefix
      else .ok (Text.join ['/'] segments)

def isLetter (c : Char) : Bool := ('a' ≤ c && c ≤ 'z') || ('A' ≤ c && c ≤ 'Z')

/-- `_DRIVE_PREFIX_RE.match`. -/
def hasDrivePrefix : Text → Bool
  | first :: second :: _ => isLetter first && second == ':'
  | _ => false

/-- How `validate_relative_path` reports a fault it finds in the normaliser's message. -/
def PathFault.exc : PathFault → Exc
  | .unsafeSegment | .absolute => pathTraversal "Path contains an unsafe segment"
  | .drivePrefix | .devicePrefix => pathTraversal "Path must be root-relative"
  | _ => invalidRequest "Path is not a valid root-relative POSIX path"

def validateRelativePath (value : Text) (allowRoot : Bool) : Except Exc Text :=
  if allowRoot ∧ (value = [] ∨ value = ['.']) then .ok ['.']
  else if value = [] then .error (invalidRequest "Path must not be empty")
  else if Char.ofNat 0 ∈ value then .error (invalidRequest "Path must not contain NUL")
  else if Char.ofNat 92 ∈ value then .error (pathTraversal "Path must use POSIX separators")
  else if value.head? = some '/' then .error (pathTraversal "Path must be root-relative")
  else if hasDrivePrefix value then .error (pathTraversal "Path must not contain a drive prefix")
  else if value.head? = some '?' then
    .error (pathTraversal "Path must not contain a device prefix")
  else (normalizeRelativePath value).mapError PathFault.exc

def relativeParts (relative : Text) : Path := if relative = ['.'] then [] else Text.split '/' relative

/-- `display_path`. -/
def display (p : Path) : Text := if p = [] then ['.'] else Text.join ['/'] p

def isReservedDerivedPath (relative : Text) : Bool :=
  relative = ".localnote".toList || Text.startsWith relative ".localnote/".toList

/-- What the validator accepts; it then returns the text unchanged. -/
structure Canonical (value : Text) : Prop where
  nonempty : value ≠ []
  nul : Char.ofNat 0 ∉ value
  backslash : Char.ofNat 92 ∉ value
  relative : value.head? ≠ some '/'
  drive : hasDrivePrefix value = false
  device : value.head? ≠ some '?'
  short : Text.utf8Length value ≤ maxRelativePathBytes
  segments : [] ∉ Text.split '/' value
  safe : segmentFault (Text.split '/' value) = none
  colon : ((Text.split '/' value).head?.bind fun first => first[1]?) ≠ some ':'

theorem normalize_iff {value relative : Text} :
    normalizeRelativePath value = .ok relative ↔ value ≠ [] ∧ Char.ofNat 0 ∉ value ∧
      Char.ofNat 92 ∉ value ∧ value.head? ≠ some '/' ∧
      Text.utf8Length value ≤ maxRelativePathBytes ∧ [] ∉ Text.split '/' value ∧
      segmentFault (Text.split '/' value) = none ∧
      ((Text.split '/' value).head?.bind fun first => first[1]?) ≠ some ':' ∧
      value.head? ≠ some '?' ∧ value = relative := by
  unfold normalizeRelativePath
  simp only [Text.join_split,ite_error_eq_ok,Nat.not_lt,gt_iff_lt,ne_eq]
  cases segmentFault (Text.split '/' value) with
  | none => simp only [ite_error_eq_ok,Except.ok.injEq,true_and]
  | some fault => simp

theorem validate_iff {value relative : Text} :
    validateRelativePath value false = .ok relative ↔ Canonical value ∧ relative = value := by
  unfold validateRelativePath
  simp only [Bool.false_eq_true,false_and,if_false,ite_error_eq_ok,mapError_eq_ok,normalize_iff]
  constructor
  · rintro ⟨_,_,_,_,drive,device,nonempty,nul,backslash,absolute,short,segments,safe,colon,_,rfl⟩
    exact ⟨⟨nonempty,nul,backslash,absolute,by simpa using drive,device,short,segments,safe,
      colon⟩,rfl⟩
  · rintro ⟨c,rfl⟩
    exact ⟨c.nonempty,c.nul,c.backslash,c.relative,by simp [c.drive],c.device,c.nonempty,c.nul,
      c.backslash,c.relative,c.short,c.segments,c.safe,c.colon,c.device,rfl⟩

theorem Canonical.ne_dot {value : Text} (canonical : Canonical value) : value ≠ ['.'] := by
  rintro rfl
  have safe := canonical.safe
  revert safe
  decide

/-- A valid path stays valid where the root is allowed too. -/
theorem validate_allowRoot {value : Text} (canonical : Canonical value) :
    validateRelativePath value true = .ok value := by
  have valid : validateRelativePath value false = .ok value := validate_iff.mpr ⟨canonical,rfl⟩
  unfold validateRelativePath at valid ⊢
  simpa [canonical.nonempty,canonical.ne_dot] using valid

theorem relativeParts_of_canonical {value : Text} (canonical : Canonical value) :
    relativeParts value = Text.split '/' value := if_neg canonical.ne_dot

theorem relativeParts_ne_nil {value : Text} (canonical : Canonical value) :
    relativeParts value ≠ [] := by
  rw [relativeParts_of_canonical canonical]
  exact List.splitOn_ne_nil _ _

/-- Two valid texts never name the same place. -/
theorem relativeParts_injective {value other : Text} (first : Canonical value)
    (second : Canonical other) (same : relativeParts value = relativeParts other) :
    value = other := by
  rw [relativeParts_of_canonical first,relativeParts_of_canonical second] at same
  exact Text.split_injective '/' same

theorem exists_last_slash {value : Text} (slash : '/' ∈ value) :
    ∃ parent name, value = parent ++ '/' :: name ∧ '/' ∉ name := by
  obtain ⟨name,parent,same,free⟩ :=
    List.eq_append_cons_of_mem (List.mem_reverse.mpr slash)
  refine ⟨parent.reverse,name.reverse,?_,by simpa using free⟩
  rw [← List.reverse_reverse value,same]
  simp

theorem split_last_slash (parent : Text) {name : Text} (free : '/' ∉ name) :
    Text.split '/' (parent ++ '/' :: name) = Text.split '/' parent ++ [name] := by
  unfold Text.split
  rw [List.splitOn_append_cons_self,List.splitOn_eq_singleton free]

theorem Canonical.parent {parent name : Text} (free : '/' ∉ name)
    (canonical : Canonical (parent ++ '/' :: name)) : Canonical parent := by
  have split := split_last_slash parent free
  have nonempty : parent ≠ [] := by
    rintro rfl
    exact canonical.relative rfl
  obtain ⟨head,tail,rfl⟩ := List.exists_cons_of_ne_nil nonempty
  have first : (Text.split '/' (head :: tail) ++ [name]).head? =
      (Text.split '/' (head :: tail)).head? :=
    List.head?_append_of_ne_nil _ (List.splitOn_ne_nil _ _)
  have segments := canonical.segments
  have safe := canonical.safe
  have colon := canonical.colon
  have short := canonical.short
  rw [split] at segments safe colon
  refine ⟨nonempty,fun found => canonical.nul (by simp at found ⊢; tauto),
    fun found => canonical.backslash (by simp at found ⊢; tauto),canonical.relative,?_,
    canonical.device,?_,fun found => segments (List.mem_append_left _ found),?_,
    by rwa [first] at colon⟩
  · cases tail with
    | nil => rfl
    | cons second rest => exact canonical.drive
  · refine le_trans ?_ short
    simp [Text.utf8Length]
  · simp only [segmentFault,List.findSome?_append,Option.or_eq_none_iff] at safe ⊢
    exact safe.1

/-- The parent of a valid path is the root or the place of a valid text, its display form. -/
theorem validate_display_parent {value : Text} (canonical : Canonical value) :
    ∃ parent, validateRelativePath (display (relativeParts value).dropLast) true = .ok parent ∧
      relativeParts parent = (relativeParts value).dropLast := by
  rw [relativeParts_of_canonical canonical]
  by_cases slash : '/' ∈ value
  · obtain ⟨parent,name,rfl,free⟩ := exists_last_slash slash
    have above := canonical.parent free
    rw [split_last_slash parent free,List.dropLast_concat,display,
      if_neg (by exact List.splitOn_ne_nil _ _),Text.join_split]
    exact ⟨parent,validate_allowRoot above,relativeParts_of_canonical above⟩
  · have alone : Text.split '/' value = [value] := List.splitOn_eq_singleton slash
    rw [alone,List.dropLast_singleton]
    exact ⟨['.'],by decide,by decide⟩

namespace Tree

def Dirs (t : Tree) (p : Path) : Prop := ∀ q, q <+: p → t.get q = some .dir

def At (t : Tree) (p : Path) (node : Node) : Prop := t.Dirs p.dropLast ∧ t.get p = some node

def FileAt (t : Tree) (p : Path) (data : Bytes) : Prop := t.At p (.file data)

def VacantAt (t : Tree) (p : Path) : Prop := t.Dirs p.dropLast ∧ t.get p = none

variable {t : Tree} {p q : Path}

theorem Dirs.parent (dirs : t.Dirs p) : t.Dirs p.dropLast :=
  fun q pre => dirs q (pre.trans (List.dropLast_prefix p))

theorem Dirs.here (dirs : t.Dirs p) : t.get p = some .dir := dirs p (List.prefix_refl p)

theorem Dirs.root (dirs : t.Dirs p) : t.get [] = some .dir := dirs [] (List.nil_prefix)

theorem Dirs.at (dirs : t.Dirs p) : t.At p .dir := ⟨dirs.parent,dirs.here⟩

theorem dirs_of_at (here : t.At p .dir) : t.Dirs p := by
  intro q pre
  rcases List.eq_nil_or_concat' p with rfl | ⟨parent,name,rfl⟩
  · obtain rfl := List.prefix_nil.mp pre
    exact here.2
  · rcases List.prefix_concat_iff.mp pre with rfl | above
    · exact here.2
    · exact here.1 q (by simpa using above)

theorem dirs_iff_at : t.Dirs p ↔ t.At p .dir := ⟨Dirs.at,dirs_of_at⟩

/-- Directories do not notice a change at a name that neither was nor becomes one. -/
theorem dirs_set {node : Option Node} (old : t.get p ≠ some .dir) (new : node ≠ some .dir) :
    (t.set p node).Dirs q ↔ t.Dirs q := by
  refine forall_congr' fun r => imp_congr_right fun _ => ?_
  by_cases same : r = p
  · subst same
    simp [old,new]
  · rw [get_set_ne t node same]

theorem At.set_ne {node : Node} {node' : Option Node} (here : t.At q node) (apart : q ≠ p)
    (old : t.get p ≠ some .dir) (new : node' ≠ some .dir) : (t.set p node').At q node :=
  ⟨(dirs_set old new).mpr here.1,by rw [get_set_ne t node' apart,here.2]⟩

theorem walk_iff (current rest : Path) :
    t.walk current rest = .ok () ↔
      ∀ i < rest.length, t.get (current ++ rest.take i) = some .dir := by
  induction rest generalizing current with
  | nil => simp [walk]
  | cons part rest ih =>
    rw [walk]
    constructor
    · intro walked i bound
      cases node : t.get current with
      | none => simp [node] at walked
      | some here =>
        cases here <;> simp only [node,reduceCtorEq] at walked
        cases i with
        | zero => simpa using node
        | succ i =>
          have deeper := (ih (current ++ [part])).mp walked i (by simpa using bound)
          simpa using deeper
    · intro dirs
      have here : t.get current = some .dir := by simpa using dirs 0 (by simp)
      rw [here]
      refine (ih (current ++ [part])).mpr fun i bound => ?_
      simpa using dirs (i + 1) (by simpa using bound)

theorem walk_parent (p : Path) : t.walk [] p = .ok () ↔ p = [] ∨ t.Dirs p.dropLast := by
  rw [walk_iff]
  rcases List.eq_nil_or_concat' p with rfl | ⟨parent,name,rfl⟩
  · simp
  · have nonempty : parent ++ [name] ≠ [] := by simp
    rw [or_iff_right nonempty,List.dropLast_concat]
    constructor
    · intro dirs q pre
      obtain ⟨tail,rfl⟩ := pre
      have here := dirs q.length (by simp)
      simpa using here
    · intro dirs i bound
      refine dirs _ ?_
      rw [List.take_append_of_le_length (by simp at bound; omega)]
      exact List.take_prefix i parent

theorem lstat_iff {node : Node} (root : t.get [] = some .dir) :
    t.lstat p = .ok node ↔ t.At p node := by
  have base : p = [] ∨ t.Dirs p.dropLast ↔ t.Dirs p.dropLast := by
    refine or_iff_right_of_imp ?_
    rintro rfl q pre
    obtain rfl := List.prefix_nil.mp pre
    exact root
  have walked := (walk_parent (t := t) p).trans base
  unfold lstat
  cases outcome : t.walk [] p with
  | error errno =>
    have notDirs : ¬ t.Dirs p.dropLast := by simp [← walked,outcome]
    simp [At,notDirs]
  | ok value =>
    have dirs : t.Dirs p.dropLast := walked.mp outcome
    cases found : t.get p <;> simp [At,dirs,found]

theorem dirs_of_lstat (found : t.lstat p = .ok .dir) : t.Dirs p := by
  unfold lstat at found
  split at found
  · simp at found
  · simp at found
  · next walked here =>
    obtain rfl := Except.ok.inj found
    rcases (walk_parent p).mp walked with rfl | above
    · intro q pre
      obtain rfl := List.prefix_nil.mp pre
      exact here
    · exact dirs_of_at ⟨above,here⟩

theorem lstat_of_at {node : Node} (here : t.At p node) : t.lstat p = .ok node :=
  (lstat_iff here.1.root).mpr here

theorem lstat_of_vacant (vacant : t.VacantAt p) : t.lstat p = .error .enoent := by
  have walked := (walk_parent (t := t) p).mpr (.inr vacant.1)
  simp [lstat,walked,vacant.2]

theorem read_of_file {data : Bytes} (file : t.FileAt p data) : t.read p = .ok data := by
  simp [read,lstat_of_at file]

theorem resolveLinks_of_dirs (fuel : Nat) (done rest : Path) (enough : rest.length ≤ fuel)
    (free : ∀ i ≤ rest.length, ∀ target, t.get (done ++ rest.take i) ≠ some (.symlink target)) :
    t.resolveLinks fuel done rest = .ok (some (done ++ rest)) := by
  induction rest generalizing done fuel with
  | nil => cases fuel <;> simp [resolveLinks]
  | cons part rest ih =>
    obtain _ | fuel := fuel
    · simp at enough
    · have deeper := ih fuel (done ++ [part]) (by simpa using enough) fun i bound target => by
        simpa using free (i + 1) (by simpa using bound) target
      have here := free 1 (by simp)
      simp only [List.take_succ_cons,List.take_zero] at here
      rw [resolveLinks]
      split
      · next found => exact absurd found (here none)
      · next target found => exact absurd found (here (some target))
      · rw [deeper,List.append_assoc,List.singleton_append]

/-- Below directories, and without a symbolic link at the end, a path is its own realpath. -/
theorem realpath_of_dirs (dirs : t.Dirs p.dropLast)
    (leaf : ∀ target, t.get p ≠ some (.symlink target)) : t.realpath p = .ok (some p) := by
  refine resolveLinks_of_dirs _ [] p (by omega) fun i bound target => ?_
  rcases bound.eq_or_lt with rfl | below
  · simpa using leaf target
  · have pre : p.take i <+: p.dropLast := by
      rw [List.dropLast_eq_take]
      exact List.take_prefix_take_left (by omega)
    simp [dirs _ pre]

end Tree

/-- `_check_existing_chain`: `lstat` each component, top down. -/
def checkExistingChain (relative : Option Text) (allowMissingLeaf : Bool) (current : Path) :
    Path → Look Unit
  | [] => pure ()
  | part :: rest => do
    match ← Call.lstat ((current ++ [part])) with
    | .error .enoent =>
      if allowMissingLeaf then pure () else Proc.throw (pathNotFound relative)
    | .error .enotdir => Proc.throw (notADirectory relative)
    | .error _ => Proc.throw (vaultUnavailable "Vault path cannot be inspected" relative)
    | .ok info =>
      if info.isSymlink then Proc.throw (symlinkEscape relative)
      else checkExistingChain relative allowMissingLeaf (current ++ [part]) rest

/-- `resolve` the candidate and check that it stays inside the root. -/
def checkContainment (relative : Option Text) (candidate : Path) : Look Unit := do
  match ← Call.realpath candidate with
  | .error _ => Proc.throw (vaultUnavailable "Vault path cannot be resolved" relative)
  | .ok none => Proc.throw (pathTraversal "Path resolves outside the configured Vault" relative)
  | .ok (some _) => pure ()

def ensureNoSymlink (relative : Option Text) (p : Path) : Look Node := do
  match ← Call.lstat p with
  | .error .enoent => Proc.throw (pathNotFound relative)
  | .error _ => Proc.throw (vaultUnavailable "Vault path cannot be inspected" relative)
  | .ok info => if info.isSymlink then Proc.throw (symlinkEscape relative) else pure info

def assertRootAvailable : Look Unit := do
  match ← Call.lstat [] with
  | .error _ => Proc.throw (vaultUnavailable "Vault root is unavailable")
  | .ok info =>
    if info.isDir then pure () else Proc.throw (vaultUnavailable "Vault root is unavailable")

structure ResolveFlags where
  allowRoot : Bool := false
  allowMissing : Bool := true
  requireDirectory : Bool := false
  requireFile : Bool := false

/-- The `lstat` of the candidate inside `resolve`. -/
def inspectCandidate (relative : Text) (flags : ResolveFlags) (candidate : Path) :
    Look Unit := do
  match ← Call.lstat candidate with
  | .error .enoent => Proc.raiseIf (flags.allowMissing = false) (pathNotFound relative)
  | .error .enotdir => Proc.throw (notADirectory relative)
  | .error _ => Proc.throw (vaultUnavailable "Vault path cannot be inspected" relative)
  | .ok info =>
    if info.isSymlink then Proc.throw (symlinkEscape relative)
    else if flags.requireDirectory ∧ info.isDir = false then Proc.throw (notADirectory relative)
    else Proc.raiseIf (flags.requireFile ∧ info.isFile = false) (notAFile relative)

/-- `PathSafety.resolve`. -/
def resolve (value : Text) (flags : ResolveFlags) : Look Path := do
  assertRootAvailable
  let relative ← Proc.ofExcept (validateRelativePath value flags.allowRoot)
  let candidate := relativeParts relative
  checkExistingChain relative flags.allowMissing [] candidate
  inspectCandidate relative flags candidate
  checkContainment relative candidate
  checkExistingChain relative flags.allowMissing [] candidate
  checkContainment relative candidate
  pure candidate

def resolveExistingFile (value : Text) : Look Path :=
  resolve value {allowMissing := false,requireFile := true}

def resolveExistingDirectory (value : Text) (allowRoot : Bool) : Look Path :=
  resolve value {allowRoot := allowRoot,allowMissing := false,requireDirectory := true}

/-- `resolve_parent`: the validated text, its parent and itself as paths. -/
def resolveParent (value : Text) : Look (Text × Path × Path) := do
  let relative ← Proc.ofExcept (validateRelativePath value false)
  let parts := relativeParts relative
  let _ ← resolve (display parts.dropLast)
    {allowRoot := true,allowMissing := false,requireDirectory := true}
  let _ ← resolve relative {}
  pure (relative,parts.dropLast,parts)

def assertSafeExisting (p : Path) (relative : Option Text) : Look Node := do
  assertRootAvailable
  checkExistingChain relative false [] p
  checkContainment relative p
  ensureNoSymlink relative p

section Plain

variable {d : Disk} {p : Path} {relative : Option Text}

theorem eval_assertRootAvailable :
    eval ReadOp.answer assertRootAvailable d = .ok () ↔ d.tree.get [] = some .dir := by
  simp only [assertRootAvailable,eval_bind_eq_ok,Call.eval_lstat,Except.ok.injEq,
    exists_eq_left',Tree.lstat,Tree.walk]
  cases found : d.tree.get [] with
  | none => simp
  | some node => cases node <;> simp [Node.isDir]

/-- The chain check from a place already reached. -/
theorem eval_checkExistingChain {node : Node} {current : Path} (rest : Path)
    (here : d.tree.At current node) (plain : node.isSymlink = false) :
    eval ReadOp.answer (checkExistingChain relative false current rest) d = .ok () ↔
      ∃ last, d.tree.At (current ++ rest) last ∧ last.isSymlink = false := by
  induction rest generalizing current node with
  | nil => simpa [checkExistingChain] using ⟨node,here,plain⟩
  | cons part rest ih =>
    have root := here.1.root
    simp only [checkExistingChain,eval_bind_eq_ok,Call.eval_lstat,Except.ok.injEq,
      exists_eq_left']
    cases found : d.tree.lstat (current ++ [part]) with
    | ok next =>
      have there := (Tree.lstat_iff root).mp found
      cases link : next.isSymlink with
      | false => simpa [link] using ih there link
      | true =>
        simp only [link,if_true,eval_throw,reduceCtorEq,false_iff]
        rintro ⟨last,reached,unlinked⟩
        rcases List.eq_nil_or_concat' rest with rfl | ⟨middle,name,rfl⟩
        · have same := reached.2.symm.trans there.2
          simp only [Option.some.injEq] at same
          simp [same,link] at unlinked
        · have dir := reached.1 (current ++ [part]) (by
            rw [← List.cons_append,← List.append_assoc,List.dropLast_concat]
            exact ⟨middle,by simp⟩)
          obtain rfl : Node.dir = next := Option.some.inj (dir.symm.trans there.2)
          simp [Node.isSymlink] at link
    | error errno =>
      have absent : ¬ ∃ last, d.tree.At (current ++ part :: rest) last ∧
          last.isSymlink = false := by
        rintro ⟨last,reached,-⟩
        rcases List.eq_nil_or_concat' rest with rfl | ⟨middle,name,rfl⟩
        · simp [Tree.lstat_of_at reached] at found
        · have dir : d.tree.Dirs (current ++ [part]) := fun q pre => reached.1 q (by
            rw [← List.cons_append,← List.append_assoc,List.dropLast_concat]
            exact pre.trans ⟨middle,by simp⟩)
          simp [Tree.lstat_of_at dir.at] at found
      refine iff_of_false ?_ absent
      cases errno <;> simp

theorem eval_checkContainment (dirs : d.tree.Dirs p.dropLast)
    (leaf : ∀ target, d.tree.get p ≠ some (.symlink target)) :
    eval ReadOp.answer (checkContainment relative p) d = .ok () := by
  simp [checkContainment,eval_bind,Tree.realpath_of_dirs dirs leaf]

theorem Tree.At.leaf {t : Tree} {node : Node} (here : t.At p node)
    (plain : node.isSymlink = false) : ∀ target, t.get p ≠ some (.symlink target) := by
  rintro target found
  obtain rfl : node = .symlink target := Option.some.inj (here.2.symm.trans found)
  simp [Node.isSymlink] at plain

theorem eval_ensureNoSymlink {info : Node} (root : d.tree.get [] = some .dir) :
    eval ReadOp.answer (ensureNoSymlink relative p) d = .ok info ↔
      d.tree.At p info ∧ info.isSymlink = false := by
  simp only [ensureNoSymlink,eval_bind_eq_ok,Call.eval_lstat,Except.ok.injEq,exists_eq_left']
  cases found : d.tree.lstat p with
  | error errno =>
    have absent : ¬ d.tree.At p info := fun here => by simp [Tree.lstat_of_at here] at found
    refine iff_of_false ?_ fun both => absent both.1
    cases errno <;> simp
  | ok node =>
    have here := (Tree.lstat_iff root).mp found
    have same : d.tree.At p info ↔ node = info :=
      ⟨fun there => Option.some.inj (here.2.symm.trans there.2),fun same => same ▸ here⟩
    rw [same]
    cases link : node.isSymlink
    · simp only [link,Bool.false_eq_true,if_false,eval_pure,Except.ok.injEq]
      exact ⟨fun same => ⟨same,same ▸ link⟩,And.left⟩
    · simp only [link,if_true,eval_throw,reduceCtorEq,false_iff]
      rintro ⟨rfl,unlinked⟩
      simp [link] at unlinked

/-- On a quiet disk the repeated safety check says what stands at the path. -/
theorem eval_assertSafeExisting {info : Node} :
    eval ReadOp.answer (assertSafeExisting p relative) d = .ok info ↔
      d.tree.At p info ∧ info.isSymlink = false := by
  simp only [assertSafeExisting,eval_bind_eq_ok]
  constructor
  · rintro ⟨_,available,_,_,_,_,found⟩
    exact (eval_ensureNoSymlink (eval_assertRootAvailable.mp available)).mp found
  · rintro ⟨here,plain⟩
    have root := here.1.root
    have top : d.tree.At [] .dir := (Tree.dirs_iff_at.mp fun q pre => by
      obtain rfl := List.prefix_nil.mp pre
      exact root)
    exact ⟨(),eval_assertRootAvailable.mpr root,(),
      (eval_checkExistingChain p top rfl).mpr ⟨info,here,plain⟩,(),
      eval_checkContainment here.1 (here.leaf plain),
      (eval_ensureNoSymlink root).mpr ⟨here,plain⟩⟩

/-- Below directories the lenient chain check only refuses a symbolic link at the end. -/
theorem eval_checkExistingChain_missing {current : Path} (rest : Path)
    (above : d.tree.Dirs current) (dirs : d.tree.Dirs (current ++ rest).dropLast) :
    eval ReadOp.answer (checkExistingChain relative true current rest) d = .ok () ↔
      rest = [] ∨ ∀ target, d.tree.get (current ++ rest) ≠ some (.symlink target) := by
  induction rest generalizing current with
  | nil => simp [checkExistingChain]
  | cons part rest ih =>
    simp only [checkExistingChain,eval_bind_eq_ok,Call.eval_lstat,Except.ok.injEq,
      exists_eq_left',reduceCtorEq,false_or]
    have parent : d.tree.Dirs (current ++ [part]).dropLast := by simpa using above
    rcases List.eq_nil_or_concat' rest with rfl | ⟨middle,name,rfl⟩
    · cases found : d.tree.get (current ++ [part]) with
      | none => simp [Tree.lstat_of_vacant ⟨parent,found⟩]
      | some node =>
        rw [Tree.lstat_of_at ⟨parent,found⟩]
        cases node <;> simp [Node.isSymlink,checkExistingChain]
    · have next : d.tree.Dirs (current ++ [part]) := fun q pre => dirs q (by
        rw [← List.cons_append,← List.append_assoc,List.dropLast_concat]
        exact pre.trans ⟨middle,by simp⟩)
      rw [Tree.lstat_of_at next.at]
      simpa [Node.isSymlink] using ih next (by simpa using dirs)

/-- The strict chain check reports the first missing component. -/
theorem eval_checkExistingChain_vacant {current : Path} (rest : Path) (inside : rest ≠ [])
    (vacant : d.tree.VacantAt (current ++ rest)) :
    eval ReadOp.answer (checkExistingChain relative false current rest) d =
      .error (pathNotFound relative) := by
  induction rest generalizing current with
  | nil => exact absurd rfl inside
  | cons part rest ih =>
    simp only [checkExistingChain,eval_bind,Call.eval_lstat]
    by_cases last : rest = []
    · subst last
      rw [Tree.lstat_of_vacant vacant]
      simp
    · have longer : current ++ part :: rest = (current ++ [part]) ++ rest := by simp
      rw [longer] at vacant
      have above : d.tree.Dirs (current ++ [part]) := by
        intro q pre
        refine vacant.1 q (pre.trans ?_)
        rw [List.dropLast_append_of_ne_nil last]
        exact List.prefix_append _ _
      rw [Tree.lstat_of_at above.at]
      simpa [Node.isSymlink] using ih last vacant

theorem top_at (root : d.tree.get [] = some .dir) : d.tree.At [] .dir :=
  Tree.dirs_iff_at.mp fun q pre => by
    obtain rfl := List.prefix_nil.mp pre
    exact root

/-- A strict resolution finds something that is no symbolic link and of the wanted kind. -/
theorem eval_resolve_strict {value : Text} {flags : ResolveFlags}
    (strict : flags.allowMissing = false) :
    eval ReadOp.answer (resolve value flags) d = .ok p ↔
      ∃ relative, validateRelativePath value flags.allowRoot = .ok relative ∧
        relativeParts relative = p ∧ ∃ info, d.tree.At p info ∧ info.isSymlink = false ∧
          (flags.requireDirectory = true → info.isDir = true) ∧
          (flags.requireFile = true → info.isFile = true) := by
  simp only [resolve,eval_bind_eq_ok,eval_ofExcept,strict,eval_pure,Except.ok.injEq]
  constructor
  · rintro ⟨_,available,relative,valid,_,chain,_,inspected,_,_,_,_,_,_,rfl⟩
    have root := eval_assertRootAvailable.mp available
    obtain ⟨info,here,plain⟩ := (eval_checkExistingChain _ (top_at root) rfl).mp chain
    refine ⟨relative,valid,rfl,info,here,plain,?_⟩
    simp only [inspectCandidate,eval_bind_eq_ok,Call.eval_lstat,Except.ok.injEq,exists_eq_left',
      List.nil_append] at inspected here
    rw [Tree.lstat_of_at here] at inspected
    simp only [plain,Bool.false_eq_true,if_false] at inspected
    split_ifs at inspected with notDir
    · simp at inspected
    · simp only [eval_raiseIf] at inspected
      split_ifs at inspected with notFile
      constructor
      · intro wanted
        by_contra other
        exact notDir ⟨wanted,by simpa using other⟩
      · intro wanted
        by_contra other
        exact notFile ⟨wanted,by simpa using other⟩
  · rintro ⟨relative,valid,rfl,info,here,plain,dir,file⟩
    have root := here.1.root
    have chain : eval ReadOp.answer (checkExistingChain relative false [] (relativeParts relative)) d
        = .ok () := (eval_checkExistingChain _ (top_at root) rfl).mpr ⟨info,here,plain⟩
    have contained : eval ReadOp.answer (checkContainment relative (relativeParts relative)) d =
        .ok () := eval_checkContainment here.1 (here.leaf plain)
    refine ⟨(),eval_assertRootAvailable.mpr root,relative,valid,(),chain,(),?_,(),contained,(),
      chain,(),contained,rfl⟩
    have notDir : ¬ (flags.requireDirectory = true ∧ info.isDir = false) := by grind
    have notFile : ¬ (flags.requireFile = true ∧ info.isFile = false) := by grind
    simp [inspectCandidate,eval_bind,Tree.lstat_of_at here,plain,notDir,notFile]

theorem eval_resolveExistingFile {value : Text} :
    eval ReadOp.answer (resolveExistingFile value) d = .ok p ↔
      Canonical value ∧ relativeParts value = p ∧ ∃ data, d.tree.FileAt p data := by
  unfold resolveExistingFile
  rw [eval_resolve_strict rfl]
  constructor
  · rintro ⟨relative,valid,rfl,info,here,_,_,file⟩
    obtain ⟨canonical,rfl⟩ := validate_iff.mp valid
    cases info <;> simp [Node.isFile] at file
    exact ⟨canonical,rfl,_,here⟩
  · rintro ⟨canonical,rfl,data,here⟩
    exact ⟨value,validate_iff.mpr ⟨canonical,rfl⟩,rfl,.file data,here,rfl,by simp,by simp [Node.isFile]⟩

theorem eval_resolve_directory {value : Text} {allowRoot : Bool} :
    eval ReadOp.answer (resolveExistingDirectory value allowRoot) d = .ok p ↔
      ∃ relative, validateRelativePath value allowRoot = .ok relative ∧
        relativeParts relative = p ∧ d.tree.Dirs p := by
  unfold resolveExistingDirectory
  rw [eval_resolve_strict rfl]
  refine exists_congr fun relative => and_congr_right fun _ => and_congr_right fun _ => ?_
  rw [Tree.dirs_iff_at]
  constructor
  · rintro ⟨info,here,_,dir,_⟩
    cases info <;> simp [Node.isDir] at dir
    exact here
  · exact fun here => ⟨.dir,here,rfl,by simp [Node.isDir],by simp⟩

/-- A lenient resolution below directories only refuses a symbolic link. -/
theorem eval_resolve_lenient {value : Text} (canonical : Canonical value)
    (dirs : d.tree.Dirs (relativeParts value).dropLast) :
    eval ReadOp.answer (resolve value {}) d = .ok p ↔ relativeParts value = p ∧
      ∀ target, d.tree.get p ≠ some (.symlink target) := by
  have valid : validateRelativePath value false = .ok value := validate_iff.mpr ⟨canonical,rfl⟩
  have root := dirs.root
  have chain := @eval_checkExistingChain_missing d (some value) [] (relativeParts value)
    (top_at root |> Tree.dirs_iff_at.mpr) dirs
  simp only [relativeParts_ne_nil canonical,false_or,List.nil_append] at chain
  simp only [resolve,eval_bind_eq_ok,eval_ofExcept,valid,eval_pure,Except.ok.injEq,
    exists_eq_left']
  constructor
  · rintro ⟨_,_,_,linkFree,_,_,_,_,_,_,_,_,rfl⟩
    exact ⟨rfl,chain.mp linkFree⟩
  · rintro ⟨rfl,leaf⟩
    have contained : eval ReadOp.answer (checkContainment value (relativeParts value)) d = .ok () :=
      eval_checkContainment dirs leaf
    refine ⟨(),eval_assertRootAvailable.mpr root,(),chain.mpr leaf,(),?_,(),contained,(),
      chain.mpr leaf,(),contained,rfl⟩
    cases found : d.tree.get (relativeParts value) with
    | none => simp [inspectCandidate,eval_bind,Tree.lstat_of_vacant ⟨dirs,found⟩]
    | some info =>
      have plain : info.isSymlink = false := by
        cases info <;> first | rfl | exact absurd found (leaf _)
      simp [inspectCandidate,eval_bind,Tree.lstat_of_at ⟨dirs,found⟩,plain]

theorem eval_resolveParent {value : Text} {result : Text × Path × Path} :
    eval ReadOp.answer (resolveParent value) d = .ok result ↔
      Canonical value ∧ result = (value,(relativeParts value).dropLast,relativeParts value) ∧
        d.tree.Dirs (relativeParts value).dropLast ∧
        ∀ target, d.tree.get (relativeParts value) ≠ some (.symlink target) := by
  simp only [resolveParent,eval_bind_eq_ok,eval_ofExcept,eval_pure,Except.ok.injEq]
  constructor
  · rintro ⟨relative,valid,place,above,target,here,rfl⟩
    obtain ⟨canonical,rfl⟩ := validate_iff.mp valid
    obtain ⟨shown,validParent,same⟩ := validate_display_parent canonical
    obtain ⟨shown',validParent',rfl,dirs⟩ := eval_resolve_directory.mp above
    obtain rfl : shown = shown' := Except.ok.inj (validParent.symm.trans validParent')
    rw [same] at dirs
    obtain ⟨rfl,leaf⟩ := (eval_resolve_lenient canonical dirs).mp here
    exact ⟨canonical,rfl,dirs,leaf⟩
  · rintro ⟨canonical,rfl,dirs,leaf⟩
    obtain ⟨shown,validParent,same⟩ := validate_display_parent canonical
    exact ⟨value,validate_iff.mpr ⟨canonical,rfl⟩,_,
      eval_resolve_directory.mpr ⟨shown,validParent,same,dirs⟩,_,
      (eval_resolve_lenient canonical dirs).mpr ⟨rfl,leaf⟩,rfl⟩

end Plain

section Strict

variable {errno : Errno} {relative : Option Text}

theorem strict_checkExistingChain (rest current : Path) :
    Strict (fun _ => .error errno) (checkExistingChain relative false current rest) := by
  induction rest generalizing current with
  | nil => trivial
  | cons part rest ih =>
    refine strict_lstat (by cases errno <;> exact ⟨_,rfl⟩) fun response => ?_
    cases response with
    | error reason => cases reason <;> trivial
    | ok info =>
      dsimp only
      split
      · trivial
      · exact ih _

theorem strict_checkContainment (p : Path) :
    Strict (fun _ => .error errno) (checkContainment relative p) := by
  refine ⟨⟨_,rfl⟩,?_⟩
  intro response
  cases response with
  | error reason => trivial
  | ok real => cases real <;> trivial

theorem strict_ensureNoSymlink (p : Path) :
    Strict (fun _ => .error errno) (ensureNoSymlink relative p) := by
  refine strict_lstat (by cases errno <;> exact ⟨_,rfl⟩) fun response => ?_
  cases response with
  | error reason => cases reason <;> trivial
  | ok info =>
    dsimp only
    split <;> trivial

theorem strict_assertRootAvailable :
    Strict (fun _ => .error errno) assertRootAvailable := by
  refine strict_lstat ⟨_,rfl⟩ fun response => ?_
  cases response with
  | error reason => trivial
  | ok info =>
    dsimp only
    split <;> trivial

theorem strict_assertSafeExisting (p : Path) :
    Strict (fun _ => .error errno) (assertSafeExisting p relative) :=
  strict_assertRootAvailable.bind fun _ => (strict_checkExistingChain _ _).bind fun _ =>
    (strict_checkContainment p).bind fun _ => strict_ensureNoSymlink p

theorem raises_checkExistingChain (rest current : Path) :
    Raises Exc.NoCollision (checkExistingChain relative false current rest) := by
  induction rest generalizing current with
  | nil => trivial
  | cons part rest ih =>
    refine raises_perform fun response => ?_
    cases response with
    | error reason => cases reason <;> nofun
    | ok info =>
      dsimp only
      split
      · nofun
      · exact ih _

theorem raises_checkContainment (p : Path) :
    Raises Exc.NoCollision (checkContainment relative p) := by
  refine raises_perform fun response => ?_
  cases response with
  | error reason => nofun
  | ok real => cases real <;> first | trivial | nofun

theorem raises_ensureNoSymlink (p : Path) :
    Raises Exc.NoCollision (ensureNoSymlink relative p) := by
  refine raises_perform fun response => ?_
  cases response with
  | error reason => cases reason <;> nofun
  | ok info =>
    dsimp only
    split
    · nofun
    · trivial

theorem raises_assertRootAvailable : Raises Exc.NoCollision assertRootAvailable := by
  refine raises_perform fun response => ?_
  cases response with
  | error reason => nofun
  | ok info =>
    dsimp only
    split
    · trivial
    · nofun

theorem raises_assertSafeExisting (p : Path) :
    Raises Exc.NoCollision (assertSafeExisting p relative) :=
  raises_assertRootAvailable.bind fun _ => (raises_checkExistingChain _ _).bind fun _ =>
    (raises_checkContainment p).bind fun _ => raises_ensureNoSymlink p

theorem strict_inspectCandidate (value : Text) (flags : ResolveFlags) (p : Path)
    (missing : flags.allowMissing = false) :
    Strict (fun _ => .error errno) (inspectCandidate value flags p) := by
  refine strict_lstat ?_ fun response => ?_
  · cases errno
    case enoent => exact ⟨pathNotFound value,by simp [Proc.raiseIf,missing]⟩
    all_goals exact ⟨_,rfl⟩
  · cases response with
    | error reason =>
      cases reason
      case enoent => exact strict_raiseIf _ _
      all_goals trivial
    | ok info =>
      dsimp only
      split
      · trivial
      · split
        · trivial
        · exact strict_raiseIf _ _

/-- A strict resolution turns every failing call into an exception. -/
theorem strict_resolve (value : Text) (flags : ResolveFlags)
    (missing : flags.allowMissing = false) :
    Strict (fun _ => .error errno) (resolve value flags) := by
  refine strict_assertRootAvailable.bind fun _ => (strict_ofExcept _).bind fun valid => ?_
  rw [missing]
  refine (strict_checkExistingChain _ _).bind fun _ => ?_
  refine (strict_inspectCandidate _ flags _ missing).bind fun _ => ?_
  refine (strict_checkContainment _).bind fun _ => ?_
  refine (strict_checkExistingChain _ _).bind fun _ => ?_
  exact (strict_checkContainment _).bind fun _ => trivial

end Strict

/-- Resolving a parent answers the validated text and its two places. -/
theorem returns_resolveParent (value : Text) :
    Returns (fun result : Text × Path × Path => Canonical value ∧
      result = (value,(relativeParts value).dropLast,relativeParts value))
      (resolveParent value) := by
  refine Returns.bind (Returns.ofExcept fun relative valid => validate_iff.mp valid) ?_
  intro relative ⟨canonical,same⟩
  subst same
  exact Returns.last fun _ => Returns.last fun _ => ⟨canonical,rfl⟩

end LocalBook.Vault
