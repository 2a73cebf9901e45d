import LocalBook.Vault.UploadSettle

/-! All-or-nothing: a mutation that raises leaves the Vault as it was, one that returns
has made the requested change and no other. A single failing call breaks this exactly
when it comes too late to be taken back. -/
namespace LocalBook.Vault

open Effect

inductive Mutation where
  | create (path : Text) (data : Bytes)
  | write (path : Text) (data : Bytes) (expected : Option Text)
  | move (source destination : Text) (expected : Option Text)
  | delete (path : Text) (expected : Option Text)
  | upload (content : Upload) (originalName targetDirectory : Text)

namespace Mutation

variable [Host]

def proc (v : VaultService) : Mutation → Fs Receipt
  | .create path data => v.createBytes path data
  | .write path data expected => v.writeBytes path data expected
  | .move source destination expected => v.moveFile source destination expected
  | .delete path expected => v.deleteFile path expected
  | .upload content originalName targetDirectory => do
    let receipt ← v.uploadAttachment content originalName targetDirectory
    pure receipt.toReceipt

omit [Host] in
/-- The trees a mutation may lead to. -/
def Change (s : Tree) (t : Tree) : Mutation → Prop
  | .create path data | .write path data _ =>
    t = s.set (relativeParts path) (some (.file data))
  | .move source destination _ =>
    t = (s.set (relativeParts destination) (s.get (relativeParts source))).set
      (relativeParts source) none
  | .delete path _ => t = s.set (relativeParts path) none
  | .upload content _ targetDirectory =>
    ∃ name, t = s.set (uploadPlace targetDirectory ++ [name]) (some (.file content.data))

omit [Host] in
def Requested (s t : Tree) (answer : Text) : Mutation → Prop
  | .create path data => answer = path ∧ s.VacantAt (relativeParts path) ∧
    t = s.set (relativeParts path) (some (.file data))
  | .write path data _ => answer = path ∧ (∃ old, s.FileAt (relativeParts path) old) ∧
    t = s.set (relativeParts path) (some (.file data))
  | .move source destination _ => answer = destination ∧
    (∃ data, s.FileAt (relativeParts source) data) ∧ s.VacantAt (relativeParts destination) ∧
    t = (s.set (relativeParts destination) (s.get (relativeParts source))).set
      (relativeParts source) none
  | .delete path _ => answer = path ∧ (∃ old, s.FileAt (relativeParts path) old) ∧
    t = s.set (relativeParts path) none
  | .upload content _ targetDirectory =>
    ∃ name, relativeParts answer = uploadPlace targetDirectory ++ [name] ∧
      s.VacantAt (relativeParts answer) ∧
      t = s.set (relativeParts answer) (some (.file content.data))

end Mutation

/-- Raised: the visible tree and the temporary files are as before. Returned: the tree
differs by the requested change only. -/
def AllOrNothing (m : Mutation) (s : Disk) (ended : Except Exc Receipt × Disk) : Prop :=
  match ended.1 with
  | .error _ => ended.2 = s
  | .ok receipt => m.Requested s.tree ended.2.tree receipt.path

variable {errno : Errno} {s : Disk}

theorem Ends.allOrNothing_iff {change : Tree → Prop} {m : Mutation}
    {failed : Option (FsOp × Disk)} {ended : Except Exc Receipt × Disk}
    (ends : Ends errno s change (fun receipt t => m.Requested s.tree t receipt.path) failed
      ended.1 ended.2) :
    AllOrNothing m s ended ↔
      ∀ op before, failed = some (op,before) → ¬ Exposed errno s change op before := by
  rcases ended with ⟨result,t⟩
  cases ends with
  | refused quiet => exact iff_of_true rfl quiet
  | done quiet answer => exact iff_of_true answer quiet
  | late exposed changed =>
    refine iff_of_false changed fun quiet => ?_
    exact quiet _ _ rfl exposed

section Mutations

variable [Host] (v : VaultService)

theorem Mutation.ends (m : Mutation) :
    Ensures FsOp.step (FsOp.fail errno) none (m.proc v) s
      (Ends errno s (fun t => m.Change s.tree t)
        fun receipt t => m.Requested s.tree t receipt.path) := by
  cases m with
  | create path data =>
    refine (settles_createBytes v path).mono fun later result t settled => ?_
    refine settled.ends rfl (fun before _ changed _ => changed) fun receipt answer => ?_
    obtain ⟨_,_,vacant,rfl⟩ := answer
    exact ⟨rfl,vacant,rfl⟩
  | write path data expected =>
    refine (settles_writeBytes v path expected).mono fun later result t settled => ?_
    refine settled.ends rfl (fun before _ changed _ => changed) fun receipt answer => ?_
    obtain ⟨_,_,⟨old,file,_⟩,rfl⟩ := answer
    exact ⟨rfl,⟨old,file⟩,rfl⟩
  | move source destination expected =>
    refine (settles_moveFile v source expected destination).mono fun later result t settled => ?_
    refine settled.ends rfl (fun before _ changed _ => changed) fun receipt answer => ?_
    obtain ⟨_,_,_,data,file,_,_,vacant,rfl⟩ := answer
    exact ⟨rfl,⟨data,file⟩,vacant,rfl⟩
  | delete path expected =>
    refine (settles_deleteFile v path expected).mono fun later result t settled => ?_
    refine settled.ends rfl (fun before _ changed _ => changed) fun receipt answer => ?_
    obtain ⟨_,⟨old,file,_⟩,rfl⟩ := answer
    exact ⟨rfl,⟨old,file⟩,rfl⟩
  | upload content originalName targetDirectory =>
    rw [proc,ensures_bind]
    refine (ends_uploadAttachment originalName targetDirectory).mono
      fun later result t ends => ?_
    cases ends with
    | refused quiet => exact .refused quiet
    | late exposed changed => exact .late exposed changed
    | done quiet answer =>
      obtain ⟨relative,name,here,vacant,tree,rfl⟩ := answer
      refine (ensures_done _ _ _ _).mpr (.done quiet ⟨name,here,?_,?_⟩)
      · rw [here]
        exact vacant
      · rw [here]
        exact tree

/-- One failing call, with any error: the mutation stays all-or-nothing exactly when the
call is not one of those that fail too late. -/
theorem mutation_allOrNothing_iff (m : Mutation) (s : Disk) (errno : Errno) (n : Nat) :
    AllOrNothing m s (fault FsOp.step (FsOp.fail errno) n (m.proc v) s) ↔
      ∀ op, (calls FsOp.step (m.proc v) s)[n]? = some op →
        ¬ Exposed errno s (fun t => m.Change s.tree t) op (crash FsOp.step n (m.proc v) s) := by
  obtain ⟨plain,each⟩ := (ensures_iff (m.proc v) s _).mp ((@Mutation.ends errno) v m)
  cases call : (calls FsOp.step (m.proc v) s)[n]? with
  | none =>
    have past : (calls FsOp.step (m.proc v) s).length ≤ n := List.getElem?_eq_none_iff.mp call
    rw [fault_of_length_le FsOp.step _ _ _ n past]
    refine iff_of_true (plain.allOrNothing_iff.mpr (by simp)) (by simp)
  | some op =>
    rw [(each n op call).allOrNothing_iff]
    simp

end Mutations

section LateFailure

open scoped AsciiHost

/-- The directory sync after the hard link fails: the create raises, the file is there. -/
theorem create_not_allOrNothing :
    let v : VaultService := ⟨100,by decide⟩
    let m : Mutation := .create "a.md".toList "hello".toUTF8
    let ended := fault FsOp.step (FsOp.fail .eio) 24 (m.proc v) Disk.bare
    ended.1 = .error (atomicWriteError "Vault directory durability sync failed") ∧
      ended.2.tree.get ["a.md".toList] = some (.file "hello".toUTF8) ∧
      ¬ AllOrNothing m Disk.bare ended := by
  intro v m ended
  have raised : ended.1 = .error (atomicWriteError "Vault directory durability sync failed") := by
    decide +kernel
  have there : ended.2.tree.get ["a.md".toList] = some (.file "hello".toUTF8) := by
    decide +kernel
  refine ⟨raised,there,?_⟩
  unfold AllOrNothing
  rw [raised]
  intro same
  rw [same] at there
  exact absurd there (by decide +kernel)

end LateFailure

end LocalBook.Vault
