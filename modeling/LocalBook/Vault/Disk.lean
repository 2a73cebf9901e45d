import LocalBook.Effect
import LocalBook.Errors

/-! The part of the file system below the Vault root, and the system calls the
Vault makes. Temporary files, which the service names at random, are kept beside
the tree of visible names. -/
namespace LocalBook.Vault

open Effect

/-- A root-relative path, as its segments; the root itself is empty. -/
abbrev Path := List Text

inductive Node where
  | file (data : Bytes)
  | dir
  /-- A symbolic link, with its root-relative target when that lies inside the Vault. -/
  | symlink (target : Option Path)
  | special
deriving DecidableEq

namespace Node

def isSymlink : Node → Bool
  | .symlink _ => true
  | _ => false

def isDir : Node → Bool
  | .dir => true
  | _ => false

def isFile : Node → Bool
  | .file _ => true
  | _ => false

def size : Node → Nat
  | .file data => data.size
  | _ => 0

end Node

structure Tree where
  entries : Finmap fun _ : Path => Node
deriving DecidableEq

namespace Tree

def get (t : Tree) (p : Path) : Option Node := t.entries.lookup p

def set (t : Tree) (p : Path) : Option Node → Tree
  | some node => ⟨t.entries.insert p node⟩
  | none => ⟨t.entries.erase p⟩

@[ext] theorem ext {t t' : Tree} (same : ∀ p, t.get p = t'.get p) : t = t' := by
  cases t
  cases t'
  exact congrArg Tree.mk (Finmap.ext_lookup same)

theorem get_set (t : Tree) (p q : Path) (node : Option Node) :
    (t.set p node).get q = if q = p then node else t.get q := by
  by_cases same : q = p
  · subst same
    cases node <;> simp [get,set]
  · cases node <;> simp [get,set,same,Finmap.lookup_insert_of_ne,Finmap.lookup_erase_ne]

@[simp] theorem get_set_self (t : Tree) (p : Path) (node : Option Node) :
    (t.set p node).get p = node := by simp [get_set]

theorem get_set_ne (t : Tree) {p q : Path} (node : Option Node) (apart : q ≠ p) :
    (t.set p node).get q = t.get q := by simp [get_set,apart]

@[simp] theorem set_set (t : Tree) (p : Path) (node node' : Option Node) :
    (t.set p node).set p node' = t.set p node' := by
  ext1 q
  by_cases same : q = p <;> simp [get_set,same]

@[simp] theorem set_get (t : Tree) (p : Path) : t.set p (t.get p) = t := by
  ext1 q
  by_cases same : q = p <;> simp [get_set,same]

theorem set_of_get (t : Tree) {p : Path} {node : Option Node} (here : t.get p = node) :
    t.set p node = t := by
  rw [← here,set_get]

/-- Descend from `current` along `rest`, up to but not into the last segment. -/
def walk (t : Tree) (current : Path) : Path → Except Errno Unit
  | [] => .ok ()
  | part :: rest => match t.get current with
    | none => .error .enoent
    | some .dir => walk t (current ++ [part]) rest
    | some _ => .error .enotdir

def lstat (t : Tree) (p : Path) : Except Errno Node := match t.walk [] p,t.get p with
  | .error errno,_ => .error errno
  | .ok _,none => .error .enoent
  | .ok _,some node => .ok node

/-- Follow symbolic links as `realpath` does; `none` is a place outside the Vault. -/
def resolveLinks (t : Tree) : Nat → Path → Path → Except Errno (Option Path)
  | _, done, [] => .ok (some done)
  | 0, _, _ => .error .eloop
  | fuel + 1, done, part :: rest => match t.get (done ++ [part]) with
    | some (.symlink none) => .ok none
    | some (.symlink (some target)) => resolveLinks t fuel [] (target ++ rest)
    | _ => resolveLinks t fuel (done ++ [part]) rest

def realpath (t : Tree) (p : Path) : Except Errno (Option Path) :=
  t.resolveLinks (p.length + 4096) [] p

def read (t : Tree) (p : Path) : Except Errno Bytes := match t.lstat p with
  | .error errno => .error errno
  | .ok (.file data) => .ok data
  | .ok .dir => .error .eisdir
  | .ok _ => .error .einval

def scandir (t : Tree) (p : Path) : Except Errno (Finset Text) := match t.lstat p with
  | .error errno => .error errno
  | .ok .dir => .ok ((t.entries.keys.filter fun q => q ≠ [] ∧ q.dropLast = p).image fun q =>
      q.getLastD [])
  | .ok _ => .error .enotdir

end Tree

/-- A temporary file `.localnote-tmp-…`, named by a number no other one has. -/
structure Temp where
  token : Nat
  parent : Path
  data : Bytes
deriving DecidableEq

structure Disk where
  tree : Tree
  temps : List Temp
deriving DecidableEq

namespace Disk

def fresh : List Temp → Nat
  | [] => 0
  | temp :: rest => max (temp.token + 1) (fresh rest)

def temp? (d : Disk) (token : Nat) : Option Temp := d.temps.find? fun temp => temp.token = token

def dropTemp (d : Disk) (token : Nat) : Disk :=
  {d with temps := d.temps.filter fun temp => temp.token ≠ token}

def addTemp (d : Disk) (temp : Temp) : Disk := {d with temps := temp :: d.temps}

def setTree (d : Disk) (p : Path) (node : Option Node) : Disk := {d with tree := d.tree.set p node}

@[simp] theorem addTemp_tree (d : Disk) (temp : Temp) : (d.addTemp temp).tree = d.tree := rfl
@[simp] theorem addTemp_temps (d : Disk) (temp : Temp) :
    (d.addTemp temp).temps = temp :: d.temps := rfl
@[simp] theorem setTree_tree (d : Disk) (p : Path) (node : Option Node) :
    (d.setTree p node).tree = d.tree.set p node := rfl
@[simp] theorem setTree_temps (d : Disk) (p : Path) (node : Option Node) :
    (d.setTree p node).temps = d.temps := rfl
@[simp] theorem dropTemp_tree (d : Disk) (token : Nat) : (d.dropTemp token).tree = d.tree := rfl

/-- An empty Vault. -/
def bare : Disk := ⟨(Tree.mk ∅).set [] (some .dir),[]⟩

theorem token_lt_fresh {temps : List Temp} {temp : Temp} (found : temp ∈ temps) :
    temp.token < fresh temps := by
  induction temps with
  | nil => simp at found
  | cons first rest ih =>
    rcases List.mem_cons.mp found with rfl | later
    · exact lt_of_lt_of_le (Nat.lt_succ_self _) (le_max_left _ _)
    · exact lt_of_lt_of_le (ih later) (le_max_right _ _)

/-- Removing a fresh temporary file leaves the ones there were. -/
theorem dropTemp_addTemp (d : Disk) {temp : Temp} (isFresh : temp.token = fresh d.temps) :
    (d.addTemp temp).dropTemp temp.token = d := by
  have others : d.temps.filter (fun other => other.token ≠ temp.token) = d.temps := by
    refine List.filter_eq_self.mpr fun other found => ?_
    have less := token_lt_fresh found
    simp [isFresh,less.ne]
  cases d
  simp_all [dropTemp,addTemp]

@[simp] theorem temp?_addTemp (d : Disk) (temp : Temp) :
    (d.addTemp temp).temp? temp.token = some temp := by simp [temp?,addTemp]

@[simp] theorem setTree_addTemp (d : Disk) (temp : Temp) (p : Path) (node : Option Node) :
    (d.addTemp temp).setTree p node = (d.setTree p node).addTemp temp := rfl

end Disk

/-- Calls that only look. -/
inductive ReadOp where
  | lstat (p : Path)
  | size (p : Path)
  | realpath (p : Path)
  | read (p : Path)
  | scandir (p : Path)
  /-- The uploader hands over its next chunk. -/
  | receive
deriving DecidableEq

def ReadOp.Value : ReadOp → Type
  | .lstat _ => Node
  | .size _ => Nat
  | .realpath _ => Option Path
  | .read _ => Bytes
  | .scandir _ => Finset Text
  | .receive => Unit

abbrev ReadOp.Res (op : ReadOp) : Type := Except Errno op.Value

def ReadOp.answer (op : ReadOp) (d : Disk) : op.Res := match op with
  | .lstat p => d.tree.lstat p
  | .size p => (d.tree.lstat p).map Node.size
  | .realpath p => d.tree.realpath p
  | .read p => d.tree.read p
  | .scandir p => d.tree.scandir p
  | .receive => .ok ()

inductive FsOp where
  | look (op : ReadOp)
  | openTemp (parent : Path)
  | writeTemp (token : Nat) (data : Bytes)
  | syncTemp (token : Nat)
  | closeTemp (token : Nat)
  | linkTemp (token : Nat) (target : Path)
  | replaceTemp (token : Nat) (target : Path)
  | unlinkTemp (token : Nat)
  | link (source target : Path)
  | unlink (p : Path)
  | mkdir (p : Path)
  | openDir (p : Path)
  | syncDir (p : Path)
  | closeDir (p : Path)
deriving DecidableEq

def FsOp.Value : FsOp → Type
  | .look op => op.Value
  | .openTemp _ => Nat
  | _ => Unit

abbrev FsOp.Res (op : FsOp) : Type := Except Errno op.Value

/-- The failure of a call: it answers an error and does nothing. -/
def FsOp.fail (errno : Errno) (op : FsOp) : op.Res := .error errno

namespace Disk

def place (d : Disk) (p : Path) (node : Option Node) (refusal : Option Errno) :
    Except Errno Unit × Disk :=
  match d.tree.walk [] p, refusal with
  | .error errno, _ => (.error errno,d)
  | .ok _, some errno => (.error errno,d)
  | .ok _, none => (.ok (),d.setTree p node)

def occupied (d : Disk) (p : Path) : Option Errno :=
  if d.tree.get p = none then none else some .eexist

def notDir (d : Disk) (p : Path) : Option Errno := match d.tree.get p with
  | none => some .enoent
  | some .dir => some .eisdir
  | some _ => none

def openTemp (d : Disk) (parent : Path) : Except Errno Nat × Disk :=
  match d.tree.lstat parent with
  | .ok .dir => (.ok (fresh d.temps),d.addTemp ⟨fresh d.temps,parent,.empty⟩)
  | .ok _ => (.error .enotdir,d)
  | .error errno => (.error errno,d)

def writeTemp (d : Disk) (token : Nat) (data : Bytes) : Except Errno Unit × Disk :=
  match d.temp? token with
  | some temp => (.ok (),(d.dropTemp token).addTemp {temp with data := temp.data ++ data})
  | none => (.error .ebadf,d)

def syncTemp (d : Disk) (token : Nat) : Except Errno Unit :=
  if (d.temp? token).isSome then .ok () else .error .ebadf

def linkTemp (d : Disk) (token : Nat) (target : Path) : Except Errno Unit × Disk :=
  match d.temp? token with
  | some temp => d.place target (some (.file temp.data)) (d.occupied target)
  | none => (.error .enoent,d)

/-- `rename` replaces whatever stands at the target, except a directory. -/
def replaceTemp (d : Disk) (token : Nat) (target : Path) : Except Errno Unit × Disk :=
  match d.temp? token with
  | some temp =>
    let refusal := if d.tree.get target = some .dir then some .eisdir else none
    match d.place target (some (.file temp.data)) refusal with
    | (.ok _,d') => (.ok (),d'.dropTemp token)
    | (.error errno,d') => (.error errno,d')
  | none => (.error .enoent,d)

def unlinkTemp (d : Disk) (token : Nat) : Except Errno Unit × Disk :=
  if (d.temp? token).isSome then (.ok (),d.dropTemp token) else (.error .enoent,d)

def link (d : Disk) (source target : Path) : Except Errno Unit × Disk :=
  match d.tree.read source with
  | .ok data => d.place target (some (.file data)) (d.occupied target)
  | .error errno => (.error errno,d)

def openDir (d : Disk) (p : Path) : Except Errno Unit := match d.tree.lstat p with
  | .ok .dir => .ok ()
  | .ok _ => .error .enotdir
  | .error errno => .error errno

end Disk

def FsOp.step (op : FsOp) (d : Disk) : op.Res × Disk := match op with
  | .look op => (op.answer d,d)
  | .openTemp parent => d.openTemp parent
  | .writeTemp token data => d.writeTemp token data
  | .syncTemp token => (d.syncTemp token,d)
  | .closeTemp _ => (.ok (),d)
  | .linkTemp token target => d.linkTemp token target
  | .replaceTemp token target => d.replaceTemp token target
  | .unlinkTemp token => d.unlinkTemp token
  | .link source target => d.link source target
  | .unlink p => d.place p none (d.notDir p)
  | .mkdir p => d.place p (some .dir) (d.occupied p)
  | .openDir p => (d.openDir p,d)
  | .syncDir _ => (.ok (),d)
  | .closeDir _ => (.ok (),d)

abbrev Look := Proc ReadOp ReadOp.Res Exc

abbrev Fs := Proc FsOp FsOp.Res Exc

instance : MonadLift Look Fs where
  monadLift := Effect.lift FsOp.look fun _ response => response

namespace Call

def lstat (p : Path) : Look (Except Errno Node) := Proc.perform (ReadOp.lstat p)
def size (p : Path) : Look (Except Errno Nat) := Proc.perform (ReadOp.size p)
def realpath (p : Path) : Look (Except Errno (Option Path)) := Proc.perform (ReadOp.realpath p)
def read (p : Path) : Look (Except Errno Bytes) := Proc.perform (ReadOp.read p)
def scandir (p : Path) : Look (Except Errno (Finset Text)) := Proc.perform (ReadOp.scandir p)
def receive : Look (Except Errno Unit) := Proc.perform ReadOp.receive
def openTemp (parent : Path) : Fs (Except Errno Nat) := Proc.perform (FsOp.openTemp parent)
def writeTemp (token : Nat) (data : Bytes) : Fs (Except Errno Unit) :=
  Proc.perform (FsOp.writeTemp token data)
def syncTemp (token : Nat) : Fs (Except Errno Unit) := Proc.perform (FsOp.syncTemp token)
def closeTemp (token : Nat) : Fs (Except Errno Unit) := Proc.perform (FsOp.closeTemp token)
def linkTemp (token : Nat) (target : Path) : Fs (Except Errno Unit) :=
  Proc.perform (FsOp.linkTemp token target)
def replaceTemp (token : Nat) (target : Path) : Fs (Except Errno Unit) :=
  Proc.perform (FsOp.replaceTemp token target)
def unlinkTemp (token : Nat) : Fs (Except Errno Unit) := Proc.perform (FsOp.unlinkTemp token)
def link (source target : Path) : Fs (Except Errno Unit) := Proc.perform (FsOp.link source target)
def unlink (p : Path) : Fs (Except Errno Unit) := Proc.perform (FsOp.unlink p)
def mkdir (p : Path) : Fs (Except Errno Unit) := Proc.perform (FsOp.mkdir p)
def openDir (p : Path) : Fs (Except Errno Unit) := Proc.perform (FsOp.openDir p)
def syncDir (p : Path) : Fs (Except Errno Unit) := Proc.perform (FsOp.syncDir p)
def closeDir (p : Path) : Fs (Except Errno Unit) := Proc.perform (FsOp.closeDir p)

variable {d : Disk}

@[simp] theorem eval_lstat (p : Path) :
    eval ReadOp.answer (lstat p) d = .ok (d.tree.lstat p) := rfl
@[simp] theorem eval_size (p : Path) :
    eval ReadOp.answer (size p) d = .ok ((d.tree.lstat p).map Node.size) := rfl
@[simp] theorem eval_realpath (p : Path) :
    eval ReadOp.answer (realpath p) d = .ok (d.tree.realpath p) := rfl
@[simp] theorem eval_read (p : Path) :
    eval ReadOp.answer (read p) d = .ok (d.tree.read p) := rfl
@[simp] theorem eval_scandir (p : Path) :
    eval ReadOp.answer (scandir p) d = .ok (d.tree.scandir p) := rfl
@[simp] theorem eval_receive : eval ReadOp.answer receive d = .ok (.ok ()) := rfl

@[simp] theorem run_openTemp (parent : Path) : run FsOp.step (openTemp parent) d =
    (.ok (d.openTemp parent).1,(d.openTemp parent).2) := rfl
@[simp] theorem run_writeTemp (token : Nat) (data : Bytes) :
    run FsOp.step (writeTemp token data) d =
      (.ok (d.writeTemp token data).1,(d.writeTemp token data).2) := rfl
@[simp] theorem run_syncTemp (token : Nat) :
    run FsOp.step (syncTemp token) d = (.ok (d.syncTemp token),d) := rfl
@[simp] theorem run_closeTemp (token : Nat) :
    run FsOp.step (closeTemp token) d = (.ok (.ok ()),d) := rfl
@[simp] theorem run_linkTemp (token : Nat) (target : Path) :
    run FsOp.step (linkTemp token target) d =
      (.ok (d.linkTemp token target).1,(d.linkTemp token target).2) := rfl
@[simp] theorem run_replaceTemp (token : Nat) (target : Path) :
    run FsOp.step (replaceTemp token target) d =
      (.ok (d.replaceTemp token target).1,(d.replaceTemp token target).2) := rfl
@[simp] theorem run_unlinkTemp (token : Nat) : run FsOp.step (unlinkTemp token) d =
    (.ok (d.unlinkTemp token).1,(d.unlinkTemp token).2) := rfl
@[simp] theorem run_link (source target : Path) : run FsOp.step (link source target) d =
    (.ok (d.link source target).1,(d.link source target).2) := rfl
@[simp] theorem run_unlink (p : Path) : run FsOp.step (unlink p) d =
    (.ok (d.place p none (d.notDir p)).1,(d.place p none (d.notDir p)).2) := rfl
@[simp] theorem run_mkdir (p : Path) : run FsOp.step (mkdir p) d =
    (.ok (d.place p (some .dir) (d.occupied p)).1,(d.place p (some .dir) (d.occupied p)).2) := rfl
@[simp] theorem run_openDir (p : Path) :
    run FsOp.step (openDir p) d = (.ok (d.openDir p),d) := rfl
@[simp] theorem run_syncDir (p : Path) :
    run FsOp.step (syncDir p) d = (.ok (.ok ()),d) := rfl
@[simp] theorem run_closeDir (p : Path) :
    run FsOp.step (closeDir p) d = (.ok (.ok ()),d) := rfl

end Call

section Look

variable {α β : Type}

theorem looks (op : ReadOp) (d : Disk) :
    ((FsOp.step (.look op) d).1,(FsOp.step (.look op) d).2) = (op.answer d,d) := rfl

@[simp] theorem run_liftLook (p : Look α) (d : Disk) :
    run FsOp.step (liftM p : Fs α) d = (eval ReadOp.answer p d,d) := run_look looks p d

/-- A looking step inside a longer procedure: whatever fails, the disk is the same. -/
theorem ensures_bind_look {errno : Errno} {failed : Option (FsOp × Disk)} {p : Look α}
    {f : α → Fs β} {d : Disk} {Q : Option (FsOp × Disk) → Except Exc β → Disk → Prop}
    {P : α → Prop} (returns : Returns P p)
    (allowed : Option (FsOp × Disk) → Prop) (start : allowed failed)
    (fails : ∀ op, allowed (some (.look op,d)))
    (error : ∀ later reason, allowed later → Q later (.error reason) d)
    (next : ∀ later value, allowed later → P value →
      (later = none → eval ReadOp.answer p d = .ok value) →
      Ensures FsOp.step (FsOp.fail errno) later (f value) d Q) :
    Ensures FsOp.step (FsOp.fail errno) failed (liftM p >>= f) d Q := by
  rw [ensures_bind]
  cases failed with
  | some before =>
    rw [ensures_some,run_liftLook]
    cases outcome : eval ReadOp.answer p d with
    | ok value => exact next _ value start (returns.eval outcome) (by simp)
    | error reason => exact error _ reason start
  | none =>
    refine ensures_look looks p d _ returns ?_ ?_
    · cases outcome : eval ReadOp.answer p d with
      | ok value => exact next none value start (returns.eval outcome) fun _ => outcome
      | error reason => exact error none reason start
    · intro op result value
      cases result with
      | ok v => exact next _ v (fails op) (value v rfl) (by simp)
      | error reason => exact error _ reason (fails op)

theorem ensures_liftStrict {errno : Errno} {E : Exc → Prop} {p : Look α} {d : Disk}
    {Q : Option (FsOp × Disk) → Except Exc α → Disk → Prop}
    (strict : Strict (fun _ => .error errno) p) (raises : Raises E p)
    (plain : Q none (eval ReadOp.answer p d) d)
    (fails : ∀ op reason, E reason → Q (some (.look op,d)) (.error reason) d) :
    Ensures FsOp.step (FsOp.fail errno) none (liftM p : Fs α) d Q :=
  ensures_strictLook looks strict raises d Q plain fails

/-- The same for a strict look: the procedure goes on only if nothing failed. -/
theorem ensures_bind_strict {errno : Errno} {p : Look α} {f : α → Fs β} {d : Disk}
    {Q : Option (FsOp × Disk) → Except Exc β → Disk → Prop}
    (strict : Strict (fun _ => .error errno) p)
    (fails : ∀ op reason, Q (some (.look op,d)) (.error reason) d)
    (error : ∀ reason, eval ReadOp.answer p d = .error reason → Q none (.error reason) d)
    (next : ∀ value, eval ReadOp.answer p d = .ok value →
      Ensures FsOp.step (FsOp.fail errno) none (f value) d Q) :
    Ensures FsOp.step (FsOp.fail errno) none (liftM p >>= f) d Q := by
  rw [ensures_bind]
  refine ensures_strictLook looks strict (raises_any p) d _ ?_ fun op reason _ => fails op reason
  cases outcome : eval ReadOp.answer p d with
  | ok value => exact next value outcome
  | error reason => exact error reason outcome

/-- A look depends on the visible tree alone. -/
theorem eval_congr_tree {p : Look α} {d e : Disk} (same : d.tree = e.tree) :
    eval ReadOp.answer p d = eval ReadOp.answer p e := by
  induction p with
  | done result => rfl
  | call op next ih =>
    have answer : op.answer d = op.answer e := by cases op <;> simp only [ReadOp.answer,same] <;> rfl
    simp only [eval,answer,ih]

theorem ensures_perform {errno : Errno} (op : FsOp) {f : op.Res → Fs β} {d : Disk}
    {Q : Option (FsOp × Disk) → Except Exc β → Disk → Prop}
    (plain : Ensures FsOp.step (FsOp.fail errno) none (f (op.step d).1) (op.step d).2 Q)
    (failing : Ensures FsOp.step (FsOp.fail errno) (some (op,d)) (f (.error errno)) d Q) :
    Ensures FsOp.step (FsOp.fail errno) none (Proc.perform op >>= f) d Q := ⟨plain,failing⟩

theorem ensures_closeTemp {errno : Errno} {token : Nat} {d : Disk}
    {Q : Option (FsOp × Disk) → Except Exc (Except Errno Unit) → Disk → Prop}
    (plain : Q none (.ok (.ok ())) d)
    (failing : Q (some (.closeTemp token,d)) (.ok (.error errno)) d) :
    Ensures FsOp.step (FsOp.fail errno) none (Call.closeTemp token) d Q := ⟨plain,failing⟩

/-- A refused change leaves the disk alone. -/
theorem place_cases (d : Disk) (p : Path) (node : Option Node) (refusal : Option Errno) :
    (∃ errno, d.place p node refusal = (.error errno,d)) ∨
      (d.place p node refusal = (.ok (),d.setTree p node) ∧ refusal = none ∧
        d.tree.walk [] p = .ok ()) := by
  cases walked : d.tree.walk [] p with
  | error errno => exact .inl ⟨errno,by simp [Disk.place,walked]⟩
  | ok value =>
    cases refusal with
    | some errno => exact .inl ⟨errno,by simp [Disk.place,walked]⟩
    | none => exact .inr ⟨by simp [Disk.place,walked],rfl,rfl⟩

theorem strict_lstat {errno : Errno} {p : Path} {f : Except Errno Node → Look β}
    (raises : ∃ reason, f (.error errno) = Proc.throw reason)
    (rest : ∀ response, Strict (fun _ => .error errno) (f response)) :
    Strict (fun _ => .error errno) (Call.lstat p >>= f) := ⟨raises,rest⟩

theorem strict_size {errno : Errno} {p : Path} {f : Except Errno Nat → Look β}
    (raises : ∃ reason, f (.error errno) = Proc.throw reason)
    (rest : ∀ response, Strict (fun _ => .error errno) (f response)) :
    Strict (fun _ => .error errno) (Call.size p >>= f) := ⟨raises,rest⟩

theorem strict_read {errno : Errno} {p : Path} {f : Except Errno Bytes → Look β}
    (raises : ∃ reason, f (.error errno) = Proc.throw reason)
    (rest : ∀ response, Strict (fun _ => .error errno) (f response)) :
    Strict (fun _ => .error errno) (Call.read p >>= f) := ⟨raises,rest⟩

end Look

end LocalBook.Vault
