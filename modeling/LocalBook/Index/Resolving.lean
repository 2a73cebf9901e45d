import LocalBook.Index.Service

/-! Link resolution over the files it has been told of. The maps hold the same paths whatever
the order of their history; what a link resolves to depends on that order only where candidates
fold alike, and a name with a dot in it is looked up without what follows the dot. -/
namespace LocalBook.Index

section Holding

variable [Host] {names : Basenames} {files : Set Text} {path : Text}

namespace Basenames

omit [Host] in
theorem get_set (entries : Dict Text (List Text)) (key other : Text) (paths : List Text) :
    get (entries.set key paths) other = if other = key then paths else get entries other := by
  rw [get,Dict.find_set,get]
  split <;> rfl

omit [Host] in
theorem mem_get_append {entries : Dict Text (List Text)} {key other added : Text} :
    path ∈ get (append entries key added) other ↔
      path ∈ get entries other ∨ other = key ∧ path = added := by
  rw [append,get_set]
  by_cases same : other = key
  · simp [same]
  · simp [same]

theorem mem_get_put {entries : Dict Text (List Text)} {key other added : Text} :
    path ∈ get (put entries key added) other ↔
      path ∈ get entries other ∨ other = key ∧ path = added := by
  rw [put,get_set]
  by_cases same : other = key
  · by_cases here : path = added
    · simp [same,here]
    · simp [same,here]
  · simp [same]

omit [Host] in
theorem mem_get_drop {entries : Dict Text (List Text)} {key other removed : Text} :
    path ∈ get (drop entries key removed) other ↔
      path ∈ get entries other ∧ ¬ (other = key ∧ path = removed) := by
  rw [drop]
  cases found : entries.find key with
  | none =>
    by_cases same : other = key
    · simp [get,same,found]
    · simp [same]
  | some paths =>
    by_cases same : other = key
    · subst same
      simp only [get,found,Option.getD_some]
      split
      · next empty =>
        have all : ∀ path ∈ paths,path = removed := by simpa using empty
        rw [Dict.find_pop]
        simpa using all path
      · simp [Dict.find_set]
    · dsimp only
      split
      · simp [get,Dict.find_pop,same]
      · simp [get_set,same]

structure Hold (names : Basenames) (files : Set Text) : Prop where
  full : ∀ key path,path ∈ get names.full key ↔ path ∈ files ∧ key = fullKey path
  noext : ∀ key path,path ∈ get names.noext key ↔
    path ∈ files ∧ markdownFile path = true ∧ key = noextKey path

theorem hold_empty : Hold {} ∅ := by
  constructor <;> simp [get]

/-- Maps that have one path more. -/
theorem Hold.of_added {names' : Basenames} {added : Text} (hold : names.Hold files)
    (full : ∀ key path,path ∈ get names'.full key ↔
      path ∈ get names.full key ∨ key = fullKey added ∧ path = added)
    (noext : ∀ key path,path ∈ get names'.noext key ↔
      path ∈ get names.noext key ∨ markdownFile added = true ∧ key = noextKey added ∧ path = added) :
    names'.Hold (insert added files) where
  full key path := by
    rw [full,hold.full,Set.mem_insert_iff]
    constructor
    · rintro (⟨there,named⟩ | ⟨named,rfl⟩)
      · exact ⟨.inr there,named⟩
      · exact ⟨.inl rfl,named⟩
    · rintro ⟨rfl | there,named⟩
      · exact .inr ⟨named,rfl⟩
      · exact .inl ⟨there,named⟩
  noext key path := by
    rw [noext,hold.noext,Set.mem_insert_iff]
    constructor
    · rintro (⟨there,note,named⟩ | ⟨note,named,rfl⟩)
      · exact ⟨.inr there,note,named⟩
      · exact ⟨.inl rfl,note,named⟩
    · rintro ⟨rfl | there,note,named⟩
      · exact .inr ⟨note,named,rfl⟩
      · exact .inl ⟨there,note,named⟩

theorem Hold.addFile (hold : names.Hold files) (added : Text) :
    (names.addFile added).Hold (insert added files) := by
  apply hold.of_added
  · exact fun key path => mem_get_append
  · intro key path
    simp only [Basenames.addFile]
    split
    · next note => simp [mem_get_append,note]
    · next other => simp [other]

theorem Hold.refresh (hold : names.Hold files) (added : Text) :
    (names.refresh added).Hold (insert added files) := by
  apply hold.of_added
  · exact fun key path => mem_get_put
  · intro key path
    simp only [Basenames.refresh]
    split
    · next note => simp [mem_get_put,note]
    · next other => simp [other]

theorem Hold.remove (hold : names.Hold files) (removed : Text) :
    (names.remove removed).Hold (files \ {removed}) where
  full key path := by
    rw [Basenames.remove,mem_get_drop,hold.full]
    constructor
    · rintro ⟨⟨there,named⟩,other⟩
      refine ⟨⟨there,fun same => other ?_⟩,named⟩
      obtain rfl : path = removed := same
      exact ⟨named,rfl⟩
    · rintro ⟨⟨there,other⟩,named⟩
      exact ⟨⟨there,named⟩,fun same => other same.2⟩
  noext key path := by
    simp only [Basenames.remove]
    split
    · rw [mem_get_drop,hold.noext]
      constructor
      · rintro ⟨⟨there,note,named⟩,other⟩
        refine ⟨⟨there,fun same => other ?_⟩,note,named⟩
        obtain rfl : path = removed := same
        exact ⟨named,rfl⟩
      · rintro ⟨⟨there,other⟩,note,named⟩
        exact ⟨⟨there,note,named⟩,fun same => other same.2⟩
    · next plain =>
      rw [hold.noext]
      constructor
      · rintro ⟨there,note,named⟩
        refine ⟨⟨there,fun same => ?_⟩,note,named⟩
        obtain rfl : path = removed := same
        exact plain note
      · rintro ⟨⟨there,_⟩,note,named⟩
        exact ⟨there,note,named⟩

/-- The maps that a scan and the events after it lead to, with the files they tell of. -/
inductive Built : Basenames → Set Text → Prop where
  | scanned (files : List Text) : Built (ofFiles files) {path | path ∈ files}
  | created {names : Basenames} {files : Set Text} (earlier : Built names files) (path : Text) :
    Built (names.refresh path) (insert path files)
  | deleted {names : Basenames} {files : Set Text} (earlier : Built names files) (path : Text) :
    Built (names.remove path) (files \ {path})

theorem hold_ofFiles (paths : List Text) : (ofFiles paths).Hold {path | path ∈ paths} := by
  induction paths using List.reverseRecOn with
  | nil => simpa [ofFiles] using hold_empty
  | append_singleton paths last ih =>
    have whole : {path | path ∈ paths ++ [last]} = insert last {path | path ∈ paths} := by
      ext path
      simp [or_comm]
    rw [whole,ofFiles,List.foldl_append]
    exact ih.addFile last

/-- What the maps hold depends on the files alone, not on the order of the history. -/
theorem Built.hold (built : Built names files) : names.Hold files := by
  induction built with
  | scanned paths => exact hold_ofFiles paths
  | created _ path ih => exact ih.refresh path
  | deleted _ path ih => exact ih.remove path

end Basenames

/-- A file that a target may name. -/
def Candidate (files : Set Text) (target path : Text) : Prop :=
  path ∈ files ∧
    if '/' ∈ target then
      fullKey path ∈ variants (leaf target) ∧ Host.casefold path ∈ variants target
    else
      fullKey path = Host.casefold target ∨
        markdownFile path = true ∧ noextKey path = Host.casefold (stripExtension target)

theorem mem_linkCandidates (hold : names.Hold files) {target : Text} :
    path ∈ linkCandidates names target ↔ Candidate files target path := by
  unfold linkCandidates Candidate
  split
  · simp only [List.mem_dedup,List.mem_flatMap,List.mem_filter,hold.full,decide_eq_true_eq]
    constructor
    · rintro ⟨key,listed,⟨there,rfl⟩,whole⟩
      exact ⟨there,listed,whole⟩
    · rintro ⟨there,listed,whole⟩
      exact ⟨_,listed,⟨there,rfl⟩,whole⟩
  · simp only [List.mem_dedup,List.mem_append,hold.full,hold.noext]
    constructor
    · rintro (⟨there,same⟩ | ⟨there,note,same⟩)
      · exact ⟨there,.inl same.symm⟩
      · exact ⟨there,.inr ⟨note,same.symm⟩⟩
    · rintro ⟨there,same | ⟨note,same⟩⟩
      · exact .inl ⟨there,same.symm⟩
      · exact .inr ⟨there,note,same.symm⟩

theorem nodup_linkCandidates (names : Basenames) (target : Text) :
    (linkCandidates names target).Nodup := by
  unfold linkCandidates
  split <;> exact List.nodup_dedup _

end Holding

section Ordering

variable [Host] {source : Text} {ref : WikilinkRef}

/-- `_resolve_ref` with the candidates in the order in which their set is iterated. -/
def resolveListed (source : Text) (listing : List Text) (ref : WikilinkRef) : WikilinkRef :=
  if ref.kind = .web then ref
  else
    let target := Text.strip ref.target
    if target = [] then
      if ref.section_.isSome || ref.block.isSome then
        {ref with resolvedPath := some source,broken := false,ambiguous := false}
      else {ref with broken := true}
    else
      match listing.insertionSort byCasefold with
      | [] => {ref with broken := true,candidates := []}
      | first :: rest =>
        {ref with
          resolvedPath := some first,
          broken := false,
          ambiguous := rest ≠ [],
          candidates := if rest = [] then [] else first :: rest}

theorem resolveRef_eq (source : Text) (names : Basenames) (ref : WikilinkRef) :
    resolveRef source names ref =
      resolveListed source (linkCandidates names (Text.strip ref.target)) ref := rfl

/-- The outcome is one over all histories of the files and all orders of the candidates. -/
def OrderIndependent (files : List Text) (source : Text) (ref : WikilinkRef) : Prop :=
  ∀ (names names' : Basenames) (listing listing' : List Text),
    names.Built {path | path ∈ files} → names'.Built {path | path ∈ files} →
    listing.Perm (linkCandidates names (Text.strip ref.target)) →
    listing'.Perm (linkCandidates names' (Text.strip ref.target)) →
    resolveListed source listing ref = resolveListed source listing' ref

instance : Std.Total (byCasefold) := ⟨fun a b => le_total (Host.casefold a) (Host.casefold b)⟩

instance : IsTrans Text byCasefold := ⟨fun _ _ _ => le_trans⟩

/-- Where no two elements fold alike a sorted list is fixed by its elements. -/
theorem sorted_eq {listing listing' : List Text} (perm : listing.Perm listing')
    (apart : ∀ a ∈ listing,∀ b ∈ listing,Host.casefold a = Host.casefold b → a = b) :
    listing.insertionSort byCasefold = listing'.insertionSort byCasefold := by
  have sorted := listing.pairwise_insertionSort byCasefold
  have sorted' := listing'.pairwise_insertionSort byCasefold
  apply List.Perm.eq_of_pairwise _ sorted sorted'
  · exact (listing.perm_insertionSort byCasefold).trans
      (perm.trans (listing'.perm_insertionSort byCasefold).symm)
  · intro a b here there first second
    have inside : a ∈ listing := (List.mem_insertionSort _).mp here
    have inside' : b ∈ listing := perm.mem_iff.mpr ((List.mem_insertionSort _).mp there)
    exact apart a inside b inside' (le_antisymm first second)

omit [Host] in
theorem not_both_orders {listing : List Text} (distinct : listing.Nodup) {a b : Text}
    (first : List.Sublist [a,b] listing) (second : List.Sublist [b,a] listing) : False := by
  induction listing with
  | nil => cases first
  | cons head rest ih =>
    obtain ⟨fresh,distinct⟩ := List.nodup_cons.mp distinct
    cases first with
    | cons _ first =>
      cases second with
      | cons _ second => exact ih distinct first second
      | cons_cons _ second => exact fresh (first.subset (by simp))
    | cons_cons _ first =>
      cases second with
      | cons _ second => exact fresh (second.subset (by simp))
      | cons_cons _ second => exact fresh (second.subset (by simp))

/-- Two elements that fold alike are left in either order. -/
theorem orders_of_alike {listing : List Text} (distinct : listing.Nodup) {a b : Text}
    (here : a ∈ listing) (there : b ∈ listing) (alike : Host.casefold a = Host.casefold b)
    (apart : a ≠ b) : ∃ first second : List Text,first.Perm listing ∧ second.Perm listing ∧
      first.insertionSort byCasefold ≠ second.insertionSort byCasefold := by
  have left : b ∈ listing.erase a := (List.mem_erase_of_ne apart.symm).mpr there
  have perm : listing.Perm (a :: b :: (listing.erase a).erase b) :=
    (List.perm_cons_erase here).trans ((List.perm_cons_erase left).cons a)
  refine ⟨a :: b :: (listing.erase a).erase b,b :: a :: (listing.erase a).erase b,perm.symm,
    (List.Perm.swap a b _).trans perm.symm,fun same => ?_⟩
  have before : List.Sublist [a,b]
      ((a :: b :: (listing.erase a).erase b).insertionSort byCasefold) := by
    apply List.pair_sublist_insertionSort
    · exact le_of_eq alike
    · simp
  have after : List.Sublist [b,a]
      ((b :: a :: (listing.erase a).erase b).insertionSort byCasefold) := by
    apply List.pair_sublist_insertionSort
    · exact le_of_eq alike.symm
    · simp
  rw [← same] at after
  apply not_both_orders _ before after
  exact ((List.perm_insertionSort byCasefold _).trans perm.symm).nodup_iff.mpr distinct

theorem candidates_resolveListed {listing : List Text} (kind : ref.kind ≠ .web)
    (named : Text.strip ref.target ≠ []) (many : 2 ≤ listing.length) :
    (resolveListed source listing ref).candidates = listing.insertionSort byCasefold := by
  have length := listing.length_insertionSort byCasefold
  cases sorted : listing.insertionSort byCasefold with
  | nil =>
    rw [sorted,List.length_nil] at length
    omega
  | cons first rest =>
    have more : rest ≠ [] := by
      rintro rfl
      rw [sorted,List.length_singleton] at length
      omega
    simp [resolveListed,kind,named,sorted,more]

/-- For every file set and every link, the outcome is the same over all histories and all
iteration orders exactly when the link is looked up by no name, or no two candidates fold
alike. -/
theorem orderIndependent_iff (files : List Text) (source : Text) (ref : WikilinkRef) :
    OrderIndependent files source ref ↔ ref.kind = .web ∨ Text.strip ref.target = [] ∨
      ∀ a b,Candidate {path | path ∈ files} (Text.strip ref.target) a →
        Candidate {path | path ∈ files} (Text.strip ref.target) b →
        Host.casefold a = Host.casefold b → a = b := by
  constructor
  · intro independent
    by_contra unclear
    obtain ⟨kind,named,clash⟩ := by simpa only [not_or] using unclear
    push Not at clash
    obtain ⟨a,b,here,there,alike,apart⟩ := clash
    have built := Basenames.Built.scanned files
    have inside := (mem_linkCandidates built.hold).mpr here
    have inside' := (mem_linkCandidates built.hold).mpr there
    obtain ⟨first,second,one,two,differ⟩ := orders_of_alike (nodup_linkCandidates _ _) inside
      inside' alike apart
    have many : ∀ listing : List Text,listing.Perm (linkCandidates (.ofFiles files)
        (Text.strip ref.target)) → 2 ≤ listing.length := by
      intro listing perm
      have pair : [a,b].Subperm listing := List.subperm_of_subset (by simpa using apart) (by
        simp [perm.mem_iff,inside,inside'])
      simpa using pair.length_le
    have same := independent _ _ first second built built one two
    have listed : ∀ listing : List Text,2 ≤ listing.length →
        (resolveListed source listing ref).candidates = listing.insertionSort byCasefold :=
      fun _ several => candidates_resolveListed kind named several
    apply differ
    rw [← listed first (many first one),same,listed second (many second two)]
  · rintro clear names names' listing listing' built built' one two
    by_cases kind : ref.kind = .web
    · simp [resolveListed,kind]
    by_cases named : Text.strip ref.target = []
    · simp [resolveListed,kind,named]
    · have apart := (clear.resolve_left kind).resolve_left named
      have sorted : listing.insertionSort byCasefold = listing'.insertionSort byCasefold := by
        apply sorted_eq
        · refine one.trans (List.Perm.trans ?_ two.symm)
          apply (List.perm_ext_iff_of_nodup (nodup_linkCandidates _ _)
            (nodup_linkCandidates _ _)).mpr
          intro path
          rw [mem_linkCandidates built.hold,mem_linkCandidates built'.hold]
        · intro a here b there alike
          exact apart a b ((mem_linkCandidates built.hold).mp (one.mem_iff.mp here))
            ((mem_linkCandidates built.hold).mp (one.mem_iff.mp there)) alike
      simp [resolveListed,sorted]

end Ordering

section Completeness

variable [Host] {names : Basenames} {files : Set Text} {note source : Text} {ref : WikilinkRef}

structure ResolvesTo (note : Text) (resolved : WikilinkRef) : Prop where
  path : resolved.resolvedPath = some note
  whole : resolved.broken = false
  single : resolved.ambiguous = false

omit [Host] in
theorem leaf_no_slash (path : Text) : '/' ∉ leaf path := by
  by_cases slash : '/' ∈ path
  · obtain ⟨parent,name,rfl,free⟩ := Vault.exists_last_slash slash
    simpa [leaf,Vault.split_last_slash parent free] using free
  · have alone : Text.split '/' path = [path] := List.splitOn_eq_singleton slash
    simpa [leaf,alone] using slash

omit [Host] in
/-- What is taken off a name stands behind a dot. -/
theorem stripExtension_cases (name : Text) :
    stripExtension name = name ∨ ∃ extension,name = stripExtension name ++ '.' :: extension := by
  by_cases kept : stripExtension name = name
  · exact .inl kept
  right
  by_cases dotted : '.' ∈ name
  · obtain ⟨back,front,same,free⟩ := List.eq_append_cons_of_mem (List.mem_reverse.mpr dotted)
    have parts : name = front.reverse ++ '.' :: back.reverse := by
      rw [← List.reverse_reverse name,same]
      simp
    have last : '.' ∉ back.reverse := by simpa using free
    have split : Text.split '.' name = Text.split '.' front.reverse ++ [back.reverse] := by
      rw [parts,Text.split,Text.split,List.splitOn_append_cons_self,
        List.splitOn_eq_singleton last]
    have stem : Text.join ['.'] (Text.split '.' name).dropLast = front.reverse := by
      rw [split,List.dropLast_concat,Text.join_split]
    refine ⟨back.reverse,?_⟩
    rw [stripExtension,stem] at kept ⊢
    split at kept
    · rwa [if_pos ‹_›]
    · exact absurd rfl kept
  · have alone : Text.split '.' name = [name] := List.splitOn_eq_singleton dotted
    simp [stripExtension,alone,Text.join] at kept

omit [Host] in
theorem strip_no_slash {text : Text} (free : '/' ∉ text) : '/' ∉ Text.strip text := by
  intro found
  have kept := (List.dropWhile_sublist _).subset (List.mem_reverse.mp found)
  exact free ((List.dropWhile_sublist _).subset (List.mem_reverse.mp kept))

omit [Host] in
theorem basename_no_slash (path : Text) : '/' ∉ stripExtension (leaf path) := by
  intro found
  apply leaf_no_slash path
  rcases stripExtension_cases (leaf path) with kept | ⟨extension,parts⟩
  · rwa [← kept]
  · rw [parts]
    exact List.mem_append_left _ found

/-- A link resolves to a note alone exactly when that note is its only candidate. -/
theorem resolvesTo_iff (hold : names.Hold files) (kind : ref.kind ≠ .web)
    (anchored : Text.strip ref.target = [] → ref.section_ = none ∧ ref.block = none) :
    ResolvesTo note (resolveRef source names ref) ↔ Text.strip ref.target ≠ [] ∧
      Candidate files (Text.strip ref.target) note ∧
        ∀ other,Candidate files (Text.strip ref.target) other → other = note := by
  by_cases named : Text.strip ref.target = []
  · obtain ⟨heading,block⟩ := anchored named
    constructor
    · rintro ⟨_,whole,_⟩
      simp [resolveRef,kind,named,heading,block] at whole
    · exact fun found => absurd named found.1
  have listed : ∀ path,path ∈ (linkCandidates names (Text.strip ref.target)).insertionSort
      byCasefold ↔ Candidate files (Text.strip ref.target) path := by
    intro path
    rw [List.mem_insertionSort,mem_linkCandidates hold]
  have distinct : ((linkCandidates names (Text.strip ref.target)).insertionSort byCasefold).Nodup :=
    (List.perm_insertionSort _ _).nodup_iff.mpr (nodup_linkCandidates _ _)
  cases sorted : (linkCandidates names (Text.strip ref.target)).insertionSort byCasefold with
  | nil =>
    simp only [sorted,List.not_mem_nil,false_iff] at listed
    constructor
    · rintro ⟨_,whole,_⟩
      simp [resolveRef,kind,named,sorted] at whole
    · exact fun found => absurd found.2.1 (listed note)
  | cons first rest =>
    have shape : resolveRef source names ref = {ref with
        resolvedPath := some first,broken := false,ambiguous := rest ≠ [],
        candidates := if rest = [] then [] else first :: rest} := by
      simp [resolveRef,kind,named,sorted]
    rw [sorted] at listed distinct
    constructor
    · rintro ⟨path,_,single⟩
      rw [shape] at path single
      obtain rfl := Option.some.inj path
      obtain rfl : rest = [] := by simpa using single
      refine ⟨named,(listed first).mp (by simp),fun other found => ?_⟩
      simpa using (listed other).mpr found
    · rintro ⟨_,here,only⟩
      have same : first = note := only first ((listed first).mp (by simp))
      have none_left : rest = [] := by
        apply List.eq_nil_iff_forall_not_mem.mpr
        intro other found
        have again : other = note := only other ((listed other).mp (by simp [found]))
        rw [← same] at again
        exact (List.nodup_cons.mp distinct).1 (again ▸ found)
      rw [shape,same,none_left]
      exact ⟨rfl,rfl,by simp⟩

/-- For every file set and every note of it, a link that names the note by its file name without
the extension goes to that note alone exactly when what is looked up still folds like the name,
and no other file has a name that folds like what is looked up. -/
theorem basename_resolves_iff (built : names.Built files) (there : note ∈ files)
    (markdown : markdownFile note = true) (kind : ref.kind ≠ .web)
    (anchored : Text.strip ref.target = [] → ref.section_ = none ∧ ref.block = none)
    (named : ref.target = stripExtension (leaf note)) :
    ResolvesTo note (resolveRef source names ref) ↔ Text.strip ref.target ≠ [] ∧
      (Host.casefold (stripExtension (Text.strip ref.target)) = Host.casefold ref.target ∨
        Host.casefold (Text.strip ref.target) = fullKey note) ∧
      ∀ other ∈ files,other ≠ note → fullKey other ≠ Host.casefold (Text.strip ref.target) ∧
        (markdownFile other = true →
          noextKey other ≠ Host.casefold (stripExtension (Text.strip ref.target))) := by
  have free : '/' ∉ Text.strip ref.target := by
    rw [named]
    exact strip_no_slash (basename_no_slash note)
  have candidate : ∀ path,Candidate files (Text.strip ref.target) path ↔ path ∈ files ∧
      (fullKey path = Host.casefold (Text.strip ref.target) ∨ markdownFile path = true ∧
        noextKey path = Host.casefold (stripExtension (Text.strip ref.target))) := by
    intro path
    rw [Candidate,if_neg free]
  have own : noextKey note = Host.casefold ref.target := by rw [named,noextKey]
  rw [resolvesTo_iff built.hold kind anchored]
  simp only [candidate]
  constructor
  · rintro ⟨some_name,⟨_,found⟩,only⟩
    refine ⟨some_name,?_,fun other inside apart => ⟨fun full => ?_,fun note' noext => ?_⟩⟩
    · rcases found with full | ⟨_,noext⟩
      · exact .inr full.symm
      · exact .inl (noext.symm.trans own)
    · exact apart (only other ⟨inside,.inl full⟩)
    · exact apart (only other ⟨inside,.inr ⟨note',noext⟩⟩)
  · rintro ⟨some_name,found,others⟩
    refine ⟨some_name,⟨there,?_⟩,fun other ⟨inside,match_⟩ => ?_⟩
    · rcases found with stem | full
      · exact .inr ⟨markdown,own.trans stem.symm⟩
      · exact .inl full.symm
    · by_contra apart
      obtain ⟨unlike,unlike'⟩ := others other inside apart
      rcases match_ with full | ⟨note',noext⟩
      · exact unlike full
      · exact unlike' note' noext

end Completeness

section Dotted

open scoped AsciiHost

/-- A note whose name has a dot in it is not found by that name. -/
theorem dotted_broken : ¬ ∀ (files : List Text) (note source : Text),
    note ∈ files → markdownFile note = true →
    (∀ other ∈ files,markdownFile other = true →
      noextKey other = noextKey note → other = note) →
    ResolvesTo note (resolveRef source (.ofFiles files) {
      target := stripExtension (leaf note)
      raw := "[[".toList ++ stripExtension (leaf note) ++ "]]".toList}) := by
  intro resolves
  have found := resolves ["v1.2.md".toList] "v1.2.md".toList "index.md".toList (by decide)
    (by decide) (by decide)
  have broken := found.whole
  revert broken
  decide +kernel

/-- A note whose name has no dot is found. -/
theorem plain_resolves : ResolvesTo "notes/Plan.md".toList (resolveRef "index.md".toList
    (.ofFiles ["index.md".toList,"notes/Plan.md".toList]) {
      target := "Plan".toList,raw := "[[Plan]]".toList}) := by
  apply (basename_resolves_iff (.scanned _) (by simp) (by decide) (by simp) (by decide)
    (by decide +kernel)).mpr
  refine ⟨by decide +kernel,by decide +kernel,?_⟩
  change ∀ other ∈ ["index.md".toList,"notes/Plan.md".toList],_
  decide +kernel

/-- Two notes that differ in case only: which of them a link goes to is left to the order of
the candidates. -/
theorem cases_order : ¬ ∀ (files : List Text) (source : Text) (ref : WikilinkRef),
    OrderIndependent files source ref := by
  intro independent
  have same := independent ["A.md".toList,"a.md".toList] "index.md".toList
    {target := "a".toList,raw := "[[a]]".toList} _ _ ["A.md".toList,"a.md".toList]
    ["a.md".toList,"A.md".toList] (.scanned _) (.scanned _) (by decide +kernel)
    (by decide +kernel)
  have path := congrArg WikilinkRef.resolvedPath same
  revert path
  decide +kernel

end Dotted

end LocalBook.Index
