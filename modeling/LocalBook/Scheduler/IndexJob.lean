import LocalBook.Vault.Listing
import LocalBook.Index.Rows
import LocalBook.Dict

/-! The consistency pass over the Vault and the index: it compares the listing of the Vault with the
stored digests, reports what differs, and may rebuild the index. -/
namespace LocalBook.Scheduler.IndexJob

open Effect
open Vault (Content FileEntry ReadOp VaultService Unhidden Addressable mayHash places display
  listedAs defaultListHashBudget)
open Index (DerivedIndex IndexSettings NoteRow Tables VaultFiles Derived markdownFile)

inductive Mismatch where
  | missing (path : Text)
  | hash (path : Text)
  | stale (path : Text)
deriving DecidableEq

/-- `f"missing:{path}"` and the like. -/
def Mismatch.text : Mismatch → Text
  | .missing path => "missing:".toList ++ path
  | .hash path => "hash:".toList ++ path
  | .stale path => "stale:".toList ++ path

structure ConsistencyResult where
  ready : Bool
  checked : Nat
  mismatches : List Mismatch := []
  degraded : Bool := false
  rebuilt : Bool := false
  error : Option Text := none

def ConsistencyResult.refused (message : String) : ConsistencyResult :=
  {ready := false,checked := 0,degraded := true,error := some message.toList}

def unhashed : Text := "<unhashed>".toList

section Check

variable [Host]

/-- `vault_notes`. -/
def vaultNotes (tree : List FileEntry) : Dict Text Text := tree.filterMap fun entry =>
  if markdownFile entry.path = true ∧ entry.kind = .file then
    some (entry.path,entry.sha256.getD unhashed)
  else none

/-- `mismatches`. -/
def mismatchesOf (notes indexed : Dict Text Text) : List Mismatch :=
  (notes.filterMap fun note =>
    match indexed.find note.1 with
    | none => some (.missing note.1)
    | some digest => if digest ≠ note.2 then some (.hash note.1) else none) ++
  indexed.filterMap fun item =>
    if item.1 ∈ notes.map Prod.fst then none else some (.stale item.1)

/-- What a pass meets: whether a Vault and an index are configured and the index is ready, the
listing and the stored digests unless reading them fails, and what a rebuild answers, unless it
raises. -/
structure Met where
  configured : Bool
  buildReady : Bool
  tree : Option (List FileEntry)
  entries : Option (Dict Text Text)
  rebuild : Option Bool

/-- `check`. -/
def check (rebuildAllowed : Bool) (met : Met) : ConsistencyResult :=
  if !met.configured then .refused "index consistency needs a configured Vault and index"
  else if !met.buildReady then .refused "derived index is not ready"
  else
    match met.tree,met.entries with
    | none,_ => .refused "vault listing failed"
    | some _,none => .refused "derived index read failed"
    | some tree,some indexed =>
      let notes := vaultNotes tree
      let mismatches := mismatchesOf notes indexed
      if mismatches ≠ [] ∧ rebuildAllowed = true then
        match met.rebuild with
        | none =>
          { ready := false
            checked := notes.length
            mismatches := mismatches
            degraded := true
            error := some "index rebuild failed; health/Vault unaffected".toList }
        | some ready =>
          { ready := ready
            checked := notes.length
            mismatches := mismatches
            rebuilt := true }
      else
        { ready := decide (mismatches = [])
          checked := notes.length
          mismatches := mismatches }

variable (v : VaultService) (settings : IndexSettings) (c : Content)

/-- `{item.path: item.sha256 for item in index.entries()}`. -/
def indexedOf (t : Tables) : Dict Text Text :=
  (t.notes.insertionSort fun a b => a.path ≤ b.path).map fun row => (row.path,row.sha256)

omit [Host] in
theorem distinct_listing : ∀ paths ∈ some (((v.listTree c.folder).filter fun entry =>
    entry.kind = .file).map FileEntry.path),paths.Nodup := by
  intro paths same
  obtain rfl := Option.some.inj same
  exact (v.exact_listTree c.sound).once.sublist (List.filter_sublist.map _)

def filesOf : VaultFiles where
  listing := some (((v.listTree c.folder).filter fun entry => entry.kind = .file).map
    FileEntry.path)
  read path := (eval ReadOp.answer (v.readBytes path) c.disk).toOption.map Prod.fst
  distinct := distinct_listing v c

/-- A pass over a Vault that holds still and an index that is ready. -/
def pass (rebuildAllowed : Bool) (d : DerivedIndex) : ConsistencyResult :=
  check rebuildAllowed
    ⟨true,true,some (v.listTree c.folder),some (indexedOf d.tables),some true⟩

def afterPass (rebuildAllowed : Bool) (d : DerivedIndex) : DerivedIndex :=
  if (pass v c rebuildAllowed d).rebuilt = true then Index.rebuild settings (filesOf v c) d else d

end Check

/-! ### What really differs -/

section Exact

variable [Host] (v : VaultService) (settings : IndexSettings) (c : Content)

def NoteAt (path : Text) (data : Bytes) : Prop :=
  ∃ p,path = display p ∧ Unhidden p ∧ c.folder.get p = some (.file data) ∧
    markdownFile path = true

omit [Host] in
def StoredAt (t : Tables) (path digest : Text) : Prop :=
  ∃ row ∈ t.notes,row.path = path ∧ row.sha256 = digest

/-- What a line of the report says. -/
def Differs (t : Tables) : Mismatch → Prop
  | .missing path => (∃ data,NoteAt c path data) ∧ ∀ digest,¬ StoredAt t path digest
  | .hash path => ∃ data digest,NoteAt c path data ∧ StoredAt t path digest ∧
      digest ≠ sha256Bytes data
  | .stale path => (∃ digest,StoredAt t path digest) ∧ ∀ data,¬ NoteAt c path data

/-- The index is built completely. -/
def Complete (t : Tables) : Prop := ∀ path digest,
  StoredAt t path digest ↔ ∃ data,NoteAt c path data ∧ digest = sha256Bytes data

omit [Host] in
/-- The file at `p` is among the first that the listing hashes. -/
def Hashed (p : Vault.Path) (data : Bytes) : Prop :=
  ∃ i,(places c.folder [])[i]? = some (p,.file data) ∧ data.size ≤ v.maxFileBytes ∧
    ((places c.folder []).take i).countP (mayHash v.maxFileBytes) < defaultListHashBudget

omit [Host] in
theorem mem_indexedOf {t : Tables} {path digest : Text} :
    (path,digest) ∈ indexedOf t ↔ StoredAt t path digest := by
  rw [indexedOf,List.mem_map]
  constructor
  · rintro ⟨row,member,same⟩
    obtain ⟨rfl,rfl⟩ := Prod.mk.inj same
    exact ⟨row,(List.perm_insertionSort _ _).mem_iff.mp member,rfl,rfl⟩
  · rintro ⟨row,member,rfl,rfl⟩
    exact ⟨row,(List.perm_insertionSort _ _).mem_iff.mpr member,rfl⟩

omit [Host] in
theorem find_indexedOf {t : Tables} (distinct : (t.notes.map NoteRow.path).Nodup)
    {path digest : Text} :
    (indexedOf t).find path = some digest ↔ StoredAt t path digest := by
  rw [← mem_indexedOf]
  have names : ((indexedOf t).map Prod.fst).Nodup := by
    rw [indexedOf,List.map_map]
    exact ((List.perm_insertionSort _ _).map _).nodup_iff.mpr distinct
  exact ⟨Dict.mem_of_find,Dict.find_of_mem names⟩

omit [Host] in
theorem digest_entry {entry : FileEntry} {p : Vault.Path} {data : Bytes}
    (member : entry ∈ v.listTree c.folder) (unhidden : Unhidden p)
    (found : c.folder.get p = some (.file data)) (path : entry.path = display p) :
    entry.kind = .file ∧
      ((Hashed v c p data ∧ entry.sha256 = some (sha256Bytes data)) ∨
        (¬ Hashed v c p data ∧ entry.sha256 = none)) := by
  obtain ⟨i,here,same⟩ := List.getElem_of_mem ((v.perm_listTree c.folder).mem_iff.mp member)
  have both := List.forall₂_iff_get.mp (v.visit_top c.sound)
  have there := lt_of_lt_of_eq here both.1
  have tells := both.2 i here there
  rw [List.get_eq_getElem,List.get_eq_getElem,same] at tells
  obtain ⟨r,shape,unhidden',found',-⟩ := (Vault.mem_places c.sound).mp (List.getElem_mem there)
  rw [List.nil_append] at shape
  obtain rfl : r = p := Vault.display_injective unhidden'.1 unhidden.1
    (Vault.VaultService.whole_of_place c.sound found')
    (Vault.VaultService.whole_of_place c.sound found) (shape ▸ tells.path.symm.trans path)
  have node : (places c.folder [])[i] = (r,.file data) :=
    Prod.ext shape (Option.some.inj (found'.symm.trans found))
  rw [node] at tells
  have kind := congrArg Prod.fst (Option.some.inj tells.listedAs)
  have marks := (Vault.visit_marks v.maxFileBytes c.sound
    (fun _ member => (List.not_mem_nil member).elim)
    (fun _ member => (List.not_mem_nil member).elim) defaultListHashBudget).1
  have marked : i < (Vault.marks v.maxFileBytes defaultListHashBudget
      (places c.folder [])).length := by
    rw [← marks,List.length_map]
    exact here
  have isSome : entry.sha256.isSome = (Vault.marks v.maxFileBytes defaultListHashBudget
      (places c.folder []))[i] := by
    rw [← same]
    simp only [← marks,List.getElem_map]
  have rank := Vault.marks_getElem v.maxFileBytes there marked
  rw [← isSome,node] at rank
  have hashed : Hashed v c r data ↔ entry.sha256.isSome = true := by
    rw [rank]
    constructor
    · rintro ⟨j,at_,small,early⟩
      obtain ⟨inside,place⟩ := List.getElem?_eq_some_iff.mp at_
      have first : j < ((places c.folder []).map Prod.fst).length := by simpa using inside
      have second : i < ((places c.folder []).map Prod.fst).length := by simpa using there
      have paths : ((places c.folder []).map Prod.fst)[j] =
          ((places c.folder []).map Prod.fst)[i] := by
        rw [List.getElem_map,List.getElem_map,place,node]
      obtain rfl := (Vault.nodup_places c.sound []).getElem_inj_iff.mp paths
      exact ⟨by simp [mayHash,Vault.Node.isFile,Vault.Node.size,small],early⟩
    · rintro ⟨hashable,early⟩
      exact ⟨i,List.getElem?_eq_some_iff.mpr ⟨there,node⟩,of_decide_eq_true hashable,early⟩
  refine ⟨kind.symm,?_⟩
  cases digest : entry.sha256 with
  | none => exact .inr ⟨fun now => by simpa [digest] using hashed.mp now,rfl⟩
  | some text =>
    obtain ⟨content,file,rfl⟩ := tells.digest text digest
    obtain rfl := Vault.Node.file.inj file
    exact .inl ⟨hashed.mpr (by rw [digest]; rfl),rfl⟩

def Taken (p : Vault.Path) (data : Bytes) (digest : Text) : Prop :=
  (Hashed v c p data ∧ digest = sha256Bytes data) ∨ (¬ Hashed v c p data ∧ digest = unhashed)

theorem mem_vaultNotes {path digest : Text} :
    (path,digest) ∈ vaultNotes (v.listTree c.folder) ↔
      ∃ p data,path = display p ∧ Unhidden p ∧ c.folder.get p = some (.file data) ∧
        markdownFile path = true ∧ Taken v c p data digest := by
  rw [vaultNotes,List.mem_filterMap]
  constructor
  · rintro ⟨entry,member,same⟩
    split at same
    · next wanted =>
      obtain ⟨rfl,rfl⟩ := Prod.mk.inj (Option.some.inj same)
      obtain ⟨p,node,tells,unhidden,found⟩ := v.mem_listTree c.sound member
      have listed := tells.listedAs
      rw [wanted.2] at listed
      cases node with
      | file data =>
        refine ⟨p,data,tells.path,unhidden,found,wanted.1,?_⟩
        rcases (digest_entry v c member unhidden found tells.path).2 with now | never
        · exact .inl ⟨now.1,by rw [now.2]; rfl⟩
        · exact .inr ⟨never.1,by rw [never.2]; rfl⟩
      | dir => cases listed
      | symlink target => cases listed
      | special => cases listed
    · cases same
  · rintro ⟨p,data,rfl,unhidden,found,markdown,taken⟩
    obtain ⟨entry,member,path,kind,-⟩ := ((v.exact_listTree c.sound).listed (display p) .file
      (some data.size)).mpr ⟨p,.file data,rfl,unhidden,found,rfl⟩
    refine ⟨entry,member,?_⟩
    rw [if_pos ⟨path ▸ markdown,kind⟩,path]
    rcases (digest_entry v c member unhidden found path).2 with now | never
    · rcases taken with ⟨-,rfl⟩ | ⟨late,-⟩
      · rw [now.2]; rfl
      · exact absurd now.1 late
    · rcases taken with ⟨early,-⟩ | ⟨-,rfl⟩
      · exact absurd early never.1
      · rw [never.2]; rfl

omit [Host] in
theorem exists_taken (p : Vault.Path) (data : Bytes) : ∃ digest,Taken v c p data digest := by
  by_cases hashed : Hashed v c p data
  · exact ⟨_,.inl ⟨hashed,rfl⟩⟩
  · exact ⟨_,.inr ⟨hashed,rfl⟩⟩

theorem mem_names {path : Text} : path ∈ (vaultNotes (v.listTree c.folder)).map Prod.fst ↔
    ∃ data,NoteAt c path data := by
  constructor
  · intro member
    obtain ⟨⟨_,digest⟩,inside,rfl⟩ := List.mem_map.mp member
    obtain ⟨p,data,same,unhidden,found,markdown,-⟩ := (mem_vaultNotes v c).mp inside
    exact ⟨data,p,same,unhidden,found,markdown⟩
  · rintro ⟨data,p,same,unhidden,found,markdown⟩
    obtain ⟨digest,taken⟩ := exists_taken v c p data
    exact List.mem_map.mpr ⟨(path,digest),
      (mem_vaultNotes v c).mpr ⟨p,data,same,unhidden,found,markdown,taken⟩,rfl⟩

omit [Host] in
theorem noteAt_unique {path : Text} {p q : Vault.Path} {node node' : Vault.Node}
    (first : path = display p) (second : path = display q) (unhidden : Unhidden p)
    (unhidden' : Unhidden q) (found : c.folder.get p = some node)
    (found' : c.folder.get q = some node') : p = q ∧ node = node' := by
  obtain rfl := Vault.display_injective unhidden.1 unhidden'.1
    (Vault.VaultService.whole_of_place c.sound found)
    (Vault.VaultService.whole_of_place c.sound found') (first.symm.trans second)
  exact ⟨rfl,Option.some.inj (found.symm.trans found')⟩

def report (t : Tables) : List Mismatch :=
  mismatchesOf (vaultNotes (v.listTree c.folder)) (indexedOf t)

theorem mem_report {t : Tables} (distinct : (t.notes.map NoteRow.path).Nodup) (m : Mismatch) :
    m ∈ report v c t ↔ match m with
      | .missing path => (∃ data,NoteAt c path data) ∧ ∀ digest,¬ StoredAt t path digest
      | .hash path => ∃ p data digest taken,path = display p ∧ Unhidden p ∧
          c.folder.get p = some (.file data) ∧ markdownFile path = true ∧
          StoredAt t path digest ∧ Taken v c p data taken ∧ digest ≠ taken
      | .stale path => (∃ digest,StoredAt t path digest) ∧ ∀ data,¬ NoteAt c path data := by
  have absent : ∀ path,(indexedOf t).find path = none ↔ ∀ digest,¬ StoredAt t path digest := by
    intro path
    rw [Option.eq_none_iff_forall_ne_some]
    exact forall_congr' fun digest => not_congr (find_indexedOf distinct)
  rw [report,mismatchesOf,List.mem_append,List.mem_filterMap,List.mem_filterMap]
  cases m with
  | missing path =>
    constructor
    · rintro (⟨note,member,same⟩ | ⟨item,member,same⟩)
      · split at same
        · next gone =>
          obtain rfl := Mismatch.missing.inj (Option.some.inj same)
          exact ⟨(mem_names v c).mp (List.mem_map_of_mem member),(absent _).mp gone⟩
        · split at same <;> cases same
      · split at same <;> cases same
    · rintro ⟨there,gone⟩
      obtain ⟨note,member,rfl⟩ := List.mem_map.mp ((mem_names v c).mpr there)
      exact .inl ⟨note,member,by rw [(absent _).mpr gone]⟩
  | hash path =>
    constructor
    · rintro (⟨⟨_,taken⟩,member,same⟩ | ⟨item,member,same⟩)
      · split at same
        · cases same
        · next digest stored =>
          split at same
          · next differs =>
            obtain rfl := Mismatch.hash.inj (Option.some.inj same)
            obtain ⟨p,data,at_,unhidden,found,markdown,takes⟩ := (mem_vaultNotes v c).mp member
            exact ⟨p,data,digest,taken,at_,unhidden,found,markdown,
              (find_indexedOf distinct).mp stored,takes,differs⟩
          · cases same
      · split at same <;> cases same
    · rintro ⟨p,data,digest,taken,at_,unhidden,found,markdown,stored,takes,differs⟩
      refine .inl ⟨(path,taken),
        (mem_vaultNotes v c).mpr ⟨p,data,at_,unhidden,found,markdown,takes⟩,?_⟩
      rw [(find_indexedOf distinct).mpr stored]
      exact if_pos differs
  | stale path =>
    constructor
    · rintro (⟨note,member,same⟩ | ⟨⟨_,digest⟩,member,same⟩)
      · split at same
        · cases same
        · split at same <;> cases same
      · split at same
        · cases same
        · next gone =>
          obtain rfl := Mismatch.stale.inj (Option.some.inj same)
          exact ⟨⟨digest,mem_indexedOf.mp member⟩,fun data there =>
            gone ((mem_names v c).mpr ⟨data,there⟩)⟩
    · rintro ⟨⟨digest,stored⟩,gone⟩
      refine .inr ⟨(path,digest),mem_indexedOf.mpr stored,if_neg fun there => ?_⟩
      obtain ⟨data,note⟩ := (mem_names v c).mp there
      exact gone data note

/-! ### The index after a rebuild -/

omit [Host] in
theorem unhashed_ne (data : Bytes) : sha256Bytes data ≠ unhashed := by
  intro same
  have first : some 's' = some '<' := congrArg List.head? same
  exact absurd first (by decide)

omit [Host] in
theorem storedAt_iff {t : Tables} {path digest : Text} :
    StoredAt t path digest ↔ ∃ row ∈ (t.rowsOf path).notes,row.sha256 = digest := by
  rw [Tables.rowsOf]
  constructor
  · rintro ⟨row,member,rfl,rfl⟩
    exact ⟨_,List.mem_map_of_mem (List.mem_filter.mpr ⟨member,by simp⟩),rfl⟩
  · rintro ⟨_,member,rfl⟩
    obtain ⟨row,inside,rfl⟩ := List.mem_map.mp member
    obtain ⟨there,same⟩ := List.mem_filter.mp inside
    exact ⟨row,there,of_decide_eq_true same,rfl⟩

theorem digest_entryOf (names : Index.Basenames) (path : Text) (data : Bytes) :
    (Index.entryOf settings names path data).sha256 = sha256Bytes data := by
  unfold Index.entryOf
  split
  · rfl
  · rfl

omit [Host] in
theorem read_filesOf {p : Vault.Path} {data content : Bytes} (unhidden : Unhidden p)
    (found : c.folder.get p = some (.file data)) :
    (filesOf v c).read (display p) = some content ↔
      Addressable p ∧ data.size ≤ v.maxFileBytes ∧ content = data := by
  have there : c.folder.get p ≠ none := found ▸ Option.some_ne_none _
  have admitted := Vault.admitted_of_get c.sound there
  have split := Vault.split_display unhidden.1 fun name member => (admitted name member).whole
  have canonical := Vault.canonical_iff unhidden.1 admitted (c.short p there)
  have free := Vault.not_reserved unhidden fun name member => (admitted name member).some_
  have known : (filesOf v c).read (display p) = some content ↔
      ∃ digest,eval ReadOp.answer (v.readBytes (display p)) c.disk = .ok (content,digest) := by
    change ((eval ReadOp.answer (v.readBytes (display p)) c.disk).toOption.map Prod.fst) = _ ↔ _
    cases eval ReadOp.answer (v.readBytes (display p)) c.disk with
    | error reason => simp [Except.toOption]
    | ok both => simp [Except.toOption,Prod.ext_iff]
  rw [known]
  simp only [Vault.eval_readBytes,exists_and_left,exists_eq,and_true]
  constructor
  · rintro ⟨valid,standing,small⟩
    rw [Vault.relativeParts_of_canonical valid.1,split] at standing
    obtain rfl := Vault.Node.file.inj (Option.some.inj (standing.2.symm.trans
      ((c.held p).trans found)))
    exact ⟨canonical.mp valid.1,small,rfl⟩
  · rintro ⟨addressable,small,rfl⟩
    have valid := canonical.mpr addressable
    refine ⟨⟨valid,free⟩,?_,small⟩
    rw [Vault.relativeParts_of_canonical valid,split]
    exact c.at_of_get found

omit [Host] in
theorem mem_listing {path : Text} :
    (∃ paths ∈ (filesOf v c).listing,path ∈ paths) ↔
      ∃ p data,path = display p ∧ Unhidden p ∧ c.folder.get p = some (.file data) := by
  have step : (∃ paths ∈ (filesOf v c).listing,path ∈ paths) ↔
      path ∈ ((v.listTree c.folder).filter fun entry => entry.kind = .file).map
        FileEntry.path := ⟨fun ⟨_,same,member⟩ => Option.some.inj same ▸ member,
          fun member => ⟨_,rfl,member⟩⟩
  rw [step,List.mem_map]
  constructor
  · rintro ⟨entry,member,rfl⟩
    obtain ⟨listed,file⟩ := List.mem_filter.mp member
    obtain ⟨p,node,tells,unhidden,found⟩ := v.mem_listTree c.sound listed
    have kind := tells.listedAs
    rw [of_decide_eq_true file] at kind
    cases node with
    | file data => exact ⟨p,data,tells.path,unhidden,found⟩
    | dir => cases kind
    | symlink target => cases kind
    | special => cases kind
  · rintro ⟨p,data,rfl,unhidden,found⟩
    obtain ⟨entry,member,path,kind,-⟩ := ((v.exact_listTree c.sound).listed (display p) .file
      (some data.size)).mpr ⟨p,.file data,rfl,unhidden,found,rfl⟩
    exact ⟨entry,List.mem_filter.mpr ⟨member,decide_eq_true kind⟩,path⟩

theorem storedAt_rebuild_files {files : VaultFiles} {paths : List Text}
    (listing : files.listing = some paths) {d : DerivedIndex}
    (derived : Derived settings.ftsAvailable d.tables) {path digest : Text} :
    StoredAt (Index.rebuild settings files d).tables path digest ↔
      path ∈ paths ∧ markdownFile path = true ∧ ∃ data,files.read path = some data ∧
        digest = sha256Bytes data := by
  have scan : (Index.scanned paths).Nodup :=
    (List.perm_insertionSort _ _).nodup_iff.mpr (files.distinct paths listing)
  obtain ⟨t,written,rows⟩ := @Index.rebuildTables_rows _ settings files
    (Index.Basenames.ofFiles (Index.scanned paths)) _ _ scan derived
  have member : path ∈ (Index.scanned paths).filter markdownFile ↔
      path ∈ paths ∧ markdownFile path = true := by
    rw [List.mem_filter,Index.scanned,List.mem_insertionSort]
  have after : (Index.rebuild settings files d).tables = t := by
    rw [Index.rebuild,listing]
    dsimp only
    rw [written,Option.getD_some]
  rw [after,storedAt_iff,rows path,Index.rebuiltRows,← and_assoc,← member]
  split
  · next inside =>
    rw [and_iff_right inside,Index.readRows]
    cases files.read path with
    | none => simp
    | some data =>
      change (∃ row ∈ [Index.noteRow path _ 0],row.sha256 = digest) ↔ _
      simp only [List.mem_singleton,exists_eq_left,Index.noteRow,digest_entryOf,Option.some.injEq,
        exists_eq_left']
      exact eq_comm
  · next outside => simp [outside]

theorem storedAt_rebuild {d : DerivedIndex} (derived : Derived settings.ftsAvailable d.tables)
    {path digest : Text} :
    StoredAt (Index.rebuild settings (filesOf v c) d).tables path digest ↔
      ∃ p data,path = display p ∧ Unhidden p ∧ c.folder.get p = some (.file data) ∧
        markdownFile path = true ∧ Addressable p ∧ data.size ≤ v.maxFileBytes ∧
        digest = sha256Bytes data := by
  have listed := @mem_listing v c path
  obtain ⟨paths,listing⟩ : ∃ paths,(filesOf v c).listing = some paths := ⟨_,rfl⟩
  have inside : (∃ paths ∈ (filesOf v c).listing,path ∈ paths) ↔ path ∈ paths := by
    rw [listing]
    simp
  rw [storedAt_rebuild_files settings listing derived,← inside,listed]
  constructor
  · rintro ⟨⟨p,data,rfl,unhidden,found⟩,markdown,content,read,rfl⟩
    obtain ⟨addressable,small,rfl⟩ := (read_filesOf v c unhidden found).mp read
    exact ⟨p,_,rfl,unhidden,found,markdown,addressable,small,rfl⟩
  · rintro ⟨p,data,rfl,unhidden,found,markdown,addressable,small,rfl⟩
    exact ⟨⟨p,data,rfl,unhidden,found⟩,markdown,data,
      (read_filesOf v c unhidden found).mpr ⟨addressable,small,rfl⟩,rfl⟩

/-! ### When the pass is exact -/

theorem pass_eq (allowed : Bool) (d : DerivedIndex) :
    (pass v c allowed d).mismatches = report v c d.tables ∧
      ((pass v c allowed d).rebuilt = true ↔ report v c d.tables ≠ [] ∧ allowed = true) ∧
      ((pass v c allowed d).ready = true ↔ report v c d.tables = [] ∨ allowed = true) := by
  have body : pass v c allowed d =
      if report v c d.tables ≠ [] ∧ allowed = true then
        { ready := true
          checked := (vaultNotes (v.listTree c.folder)).length
          mismatches := report v c d.tables
          rebuilt := true }
      else
        { ready := decide (report v c d.tables = [])
          checked := (vaultNotes (v.listTree c.folder)).length
          mismatches := report v c d.tables } := rfl
  rw [body]
  split
  · next rebuilds => exact ⟨rfl,iff_of_true rfl rebuilds,iff_of_true rfl (.inr rebuilds.2)⟩
  · next keeps =>
    refine ⟨rfl,iff_of_false Bool.false_ne_true keeps,?_⟩
    rw [decide_eq_true_iff]
    constructor
    · exact .inl
    · rintro (clean | on)
      · exact clean
      · by_contra some_
        exact keeps ⟨some_,on⟩

/-- The pass reports exactly what differs, is content with a complete index, and after a rebuild of
its own has nothing more to report. -/
structure Exact : Prop where
  reports : ∀ allowed d,(d.tables.notes.map NoteRow.path).Nodup → ∀ m,
    m ∈ (pass v c allowed d).mismatches ↔ Differs c d.tables m
  complete : ∀ allowed d,(d.tables.notes.map NoteRow.path).Nodup → Complete c d.tables →
    (pass v c allowed d).mismatches = [] ∧ (pass v c allowed d).ready = true
  settled : ∀ d,Derived settings.ftsAvailable d.tables → (pass v c true d).rebuilt = true →
    (pass v c true (afterPass v settings c true d)).mismatches = []

def lone (path digest : Text) : DerivedIndex :=
  {tables := {notes := [Index.noteRow path (Index.unreadableEntry path digest) 0]}}

omit [Host] in
theorem storedAt_lone {path digest path' digest' : Text} :
    StoredAt (lone path digest).tables path' digest' ↔ path' = path ∧ digest' = digest := by
  unfold StoredAt lone
  simp [Index.noteRow,Index.unreadableEntry,eq_comm]

theorem unhashed_reported {p : Vault.Path} {data : Bytes} (unhidden : Unhidden p)
    (found : c.folder.get p = some (.file data)) (markdown : markdownFile (display p) = true)
    (never : ¬ Hashed v c p data) :
    ¬ ∀ m,m ∈ (pass v c false (lone (display p) (sha256Bytes data))).mismatches ↔
      Differs c (lone (display p) (sha256Bytes data)).tables m := by
  intro reports
  have distinct : ((lone (display p) (sha256Bytes data)).tables.notes.map
      NoteRow.path).Nodup := List.nodup_singleton _
  have told : Mismatch.hash (display p) ∈
      (pass v c false (lone (display p) (sha256Bytes data))).mismatches := by
    rw [(pass_eq v c false _).1,mem_report v c distinct]
    exact ⟨p,data,sha256Bytes data,unhashed,rfl,unhidden,found,markdown,
      storedAt_lone.mpr ⟨rfl,rfl⟩,.inr ⟨never,rfl⟩,unhashed_ne data⟩
  obtain ⟨data',digest,there,stored,differs⟩ := (reports _).mp told
  obtain ⟨-,rfl⟩ := storedAt_lone.mp stored
  obtain ⟨q,same,unhidden',found',-⟩ := there
  obtain ⟨-,node⟩ := noteAt_unique c rfl same unhidden unhidden' found found'
  obtain rfl := Vault.Node.file.inj node
  exact differs rfl

theorem exact_report {t : Tables} (distinct : (t.notes.map NoteRow.path).Nodup)
    (hashed : ∀ p data,Unhidden p → c.folder.get p = some (.file data) →
      markdownFile (display p) = true → Hashed v c p data) (m : Mismatch) :
    m ∈ report v c t ↔ Differs c t m := by
  rw [mem_report v c distinct]
  cases m with
  | missing path => rfl
  | stale path => rfl
  | hash path =>
    constructor
    · rintro ⟨p,data,digest,taken,rfl,unhidden,found,markdown,stored,takes,differs⟩
      rcases takes with ⟨-,rfl⟩ | ⟨never,-⟩
      · exact ⟨data,digest,⟨p,rfl,unhidden,found,markdown⟩,stored,differs⟩
      · exact absurd (hashed p data unhidden found markdown) never
    · rintro ⟨data,digest,⟨p,rfl,unhidden,found,markdown⟩,stored,differs⟩
      exact ⟨p,data,digest,_,rfl,unhidden,found,markdown,stored,
        .inl ⟨hashed p data unhidden found markdown,rfl⟩,differs⟩

omit [Host] in
theorem small_of_hashed {p : Vault.Path} {data : Bytes} (hashed : Hashed v c p data) :
    data.size ≤ v.maxFileBytes := hashed.choose_spec.2.1

theorem differs_complete {t : Tables} (complete : Complete c t) (m : Mismatch) :
    ¬ Differs c t m := by
  cases m with
  | missing path =>
    rintro ⟨⟨data,there⟩,absent⟩
    exact absent _ ((complete path _).mpr ⟨data,there,rfl⟩)
  | hash path =>
    rintro ⟨data,digest,there,stored,differs⟩
    obtain ⟨data',there',rfl⟩ := (complete path digest).mp stored
    obtain ⟨p,rfl,unhidden,found,-⟩ := there
    obtain ⟨q,same,unhidden',found',-⟩ := there'
    obtain ⟨-,node⟩ := noteAt_unique c rfl same unhidden unhidden' found found'
    obtain rfl := Vault.Node.file.inj node
    exact differs rfl
  | stale path =>
    rintro ⟨⟨digest,stored⟩,absent⟩
    obtain ⟨data,there,-⟩ := (complete path digest).mp stored
    exact absent data there

/-- The pass is exact iff every visible note is among the files that the listing hashes and has a
path that is accepted. -/
theorem indexed_exact_iff : Exact v settings c ↔ ∀ p data,Unhidden p →
    c.folder.get p = some (.file data) → markdownFile (display p) = true →
      Hashed v c p data ∧ Addressable p := by
  constructor
  · intro exact p data unhidden found markdown
    have note : NoteAt c (display p) data := ⟨p,rfl,unhidden,found,markdown⟩
    constructor
    · by_contra never
      exact unhashed_reported v c unhidden found markdown never
        (exact.reports false _ (List.nodup_singleton _))
    · by_contra refused
      have empty : Derived settings.ftsAvailable ({} : DerivedIndex).tables := Index.derived_empty
      have missing : ∀ d : DerivedIndex,(d.tables.notes.map NoteRow.path).Nodup →
          (∀ digest,¬ StoredAt d.tables (display p) digest) →
          (pass v c true d).mismatches ≠ [] := by
        intro d distinct absent none_
        rw [(pass_eq v c true d).1] at none_
        have told : Mismatch.missing (display p) ∈ report v c d.tables :=
          (mem_report v c distinct _).mpr ⟨⟨data,note⟩,absent⟩
        rw [none_] at told
        cases told
      have first := missing {} List.nodup_nil fun digest stored => by
        obtain ⟨row,member,-⟩ := stored
        cases member
      have rebuilt : (pass v c true {}).rebuilt = true :=
        (pass_eq v c true {}).2.1.mpr ⟨(pass_eq v c true {}).1 ▸ first,rfl⟩
      have after : Derived settings.ftsAvailable
          (Index.rebuild settings (filesOf v c) {}).tables := Index.derived_rebuild empty
      refine missing _ ?_ ?_ (exact.settled {} empty rebuilt)
      · rw [afterPass,if_pos rebuilt]
        exact after.mirrors.paths
      · rw [afterPass,if_pos rebuilt]
        intro digest stored
        obtain ⟨q,data',same,unhidden',found',-,addressable,-⟩ :=
          (storedAt_rebuild v settings c empty).mp stored
        obtain ⟨rfl,-⟩ := noteAt_unique c rfl same unhidden unhidden' found found'
        exact refused addressable
  · intro fit
    have reports : ∀ allowed d,(d.tables.notes.map NoteRow.path).Nodup → ∀ m,
        m ∈ (pass v c allowed d).mismatches ↔ Differs c d.tables m := by
      intro allowed d distinct m
      rw [(pass_eq v c allowed d).1]
      exact exact_report v c distinct
        (fun p data unhidden found markdown => (fit p data unhidden found markdown).1) m
    have complete : ∀ allowed d,(d.tables.notes.map NoteRow.path).Nodup → Complete c d.tables →
        (pass v c allowed d).mismatches = [] := by
      intro allowed d distinct whole
      refine List.eq_nil_iff_forall_not_mem.mpr fun m told => ?_
      exact differs_complete c whole m ((reports allowed d distinct m).mp told)
    refine ⟨reports,fun allowed d distinct whole => ?_,fun d derived rebuilt => ?_⟩
    · have none_ := complete allowed d distinct whole
      refine ⟨none_,(pass_eq v c allowed d).2.2.mpr (.inl ?_)⟩
      rwa [(pass_eq v c allowed d).1] at none_
    · rw [afterPass,if_pos rebuilt]
      have after : Derived settings.ftsAvailable
          (Index.rebuild settings (filesOf v c) d).tables := Index.derived_rebuild derived
      refine complete true _ after.mirrors.paths fun path digest => ?_
      rw [storedAt_rebuild v settings c derived]
      constructor
      · rintro ⟨p,data,rfl,unhidden,found,markdown,-,-,rfl⟩
        exact ⟨data,⟨p,rfl,unhidden,found,markdown⟩,rfl⟩
      · rintro ⟨data,⟨p,rfl,unhidden,found,markdown⟩,rfl⟩
        have ⟨hashed,addressable⟩ := fit p data unhidden found markdown
        exact ⟨p,data,rfl,unhidden,found,markdown,addressable,small_of_hashed v c hashed,rfl⟩

end Exact

/-! ### A Vault of sixty-five notes -/

def noteName (i : Nat) : Text := List.replicate (i + 1) 'a' ++ ".md".toList

def notes : Nat → Vault.Folder
  | 0 => .nil
  | n + 1 => .file (noteName n) .empty (notes n)

def notesDisk : Nat → Vault.Disk
  | 0 => .bare
  | n + 1 => (notesDisk n).setTree [noteName n] (some (.file .empty))

theorem noteName_injective : Function.Injective noteName := by
  intro i j same
  have lengths := congrArg List.length same
  simp only [noteName,List.length_append,List.length_replicate] at lengths
  omega

theorem names_notes {n : Nat} {name : Text} (member : name ∈ (notes n).names) :
    ∃ i < n,name = noteName i := by
  induction n with
  | zero => cases member
  | succ n ih =>
    rcases List.mem_cons.mp member with rfl | later
    · exact ⟨n,Nat.lt_succ_self n,rfl⟩
    · obtain ⟨i,small,same⟩ := ih later
      exact ⟨i,Nat.lt_succ_of_lt small,same⟩

theorem fresh_notes (n : Nat) : noteName n ∉ (notes n).names := by
  intro member
  obtain ⟨i,small,same⟩ := names_notes member
  exact absurd (noteName_injective same) (by omega)

theorem sound_notes {n : Nat} (admitted : ∀ i < n,Vault.Admitted (noteName i)) :
    (notes n).Sound := by
  induction n with
  | zero => trivial
  | succ n ih =>
    exact ⟨admitted n (Nat.lt_succ_self n),fresh_notes n,
      ih fun i small => admitted i (Nat.lt_succ_of_lt small)⟩

theorem held_notes (n : Nat) (p : Vault.Path) : (notesDisk n).tree.get p = (notes n).get p := by
  induction n with
  | zero =>
    rw [notesDisk,Vault.Disk.bare,Vault.Tree.get_set]
    cases p with
    | nil => rfl
    | cons first behind => rfl
  | succ n ih =>
    rw [notesDisk,Vault.Disk.setTree_tree,Vault.Tree.get_set,ih,notes]
    cases p with
    | nil =>
      rw [Vault.get_root,Vault.get_root]
      rfl
    | cons first behind =>
      rw [Vault.Folder.get]
      by_cases here : first = noteName n
      · by_cases last : behind = []
        · rw [if_pos (by rw [here,last]),if_pos here,if_pos last]
        · rw [if_neg (by simp [last]),if_pos here,if_neg last]
          by_contra there
          exact fresh_notes n (here ▸ Vault.get_names there)
      · rw [if_neg (by simp [here]),if_neg here]

theorem get_notes {n : Nat} {p : Vault.Path} (found : (notes n).get p ≠ none) :
    p = [] ∨ ∃ i < n,p = [noteName i] := by
  induction n with
  | zero =>
    cases p with
    | nil => exact .inl rfl
    | cons first behind => exact absurd rfl found
  | succ n ih =>
    cases p with
    | nil => exact .inl rfl
    | cons first behind =>
      rw [notes,Vault.Folder.get] at found
      split at found
      · next here =>
        split at found
        · next last => exact .inr ⟨n,Nat.lt_succ_self n,by rw [here,last]⟩
        · exact absurd rfl found
      · rcases ih found with root | ⟨i,small,same⟩
        · exact .inl root
        · exact .inr ⟨i,Nat.lt_succ_of_lt small,same⟩

theorem admitted_notes : ∀ i < 65,Vault.Admitted (noteName i) := by decide +kernel

theorem short_notes (p : Vault.Path) (found : (notes 65).get p ≠ none) :
    Text.utf8Length (display p) ≤ Vault.maxRelativePathBytes := by
  rcases get_notes found with rfl | ⟨i,small,rfl⟩
  · decide
  · revert i
    decide +kernel

def crowded : Content where
  folder := notes 65
  sound := sound_notes admitted_notes
  short := short_notes
  disk := notesDisk 65
  held := held_notes 65

open scoped AsciiHost in
/-- The last note that the walk meets is reported although the index has its digest. -/
theorem crowded_reported :
    ¬ ∀ m,m ∈ (pass ⟨100,Vault.hundred_pos⟩ crowded false
        (lone (display [noteName 0]) (sha256Bytes .empty))).mismatches ↔
      Differs crowded (lone (display [noteName 0]) (sha256Bytes .empty)).tables m := by
  refine unhashed_reported _ crowded ⟨by simp,by decide⟩ rfl (by decide) ?_
  rintro ⟨i,at_,-,early⟩
  have last : i = 64 := by
    have inside := (List.getElem?_eq_some_iff.mp at_).1
    have length : (places crowded.folder []).length = 65 := by decide +kernel
    have only : ∀ j < 65,(places crowded.folder [])[j]? = some ([noteName 0],.file .empty) →
        j = 64 := by
      decide +kernel
    exact only i (length ▸ inside) at_
  have full : ((places crowded.folder []).take 64).countP (mayHash 100) = 64 := by
    decide +kernel
  rw [last] at early
  exact absurd early (by rw [full]; decide)

end LocalBook.Scheduler.IndexJob
