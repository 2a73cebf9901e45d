import LocalBook.Workspace.Hierarchy

/-! What the owners of a listing's rows are by their paths alone, which rows of the tree are left
out while some are collapsed, and when these are those the document tree means. -/
namespace LocalBook.Workspace.Hierarchy

/-! ### What the owners are -/

theorem folderOf_shorter (path : Text) (some_ : folderOf path ≠ []) :
    (folderOf path).length < path.length := by
  obtain ⟨dirs,name,names⟩ :=
    (List.eq_nil_or_concat (Text.split '/' path)).resolve_left (List.splitOn_ne_nil _ _)
  rw [List.concat_eq_append] at names
  have folder : folderOf path = Text.join ['/'] dirs := by simp [folderOf,names]
  have dirs_ : dirs ≠ [] := by
    rintro rfl
    exact some_ folder
  have text : path = Text.join ['/'] dirs ++ '/' :: name := by
    rw [← Posix.join_concat dirs_,← names,Text.join_split]
  have count := congrArg List.length text
  rw [List.length_append,List.length_cons] at count
  rw [folder]
  omega

def ownerOf (paths : List Text) (path : Text) : Option Text :=
  if besideOf path ∈ paths then some (besideOf path)
  else if folderOf path ≠ [] then
    some ((ownerOf paths (folderOf path)).getD (folderOf path))
  else none
termination_by path.length
decreasing_by exact folderOf_shorter path ‹_›

theorem ownerOf_ne_nil {paths : List Text} {path owner : Text}
    (owned : ownerOf paths path = some owner) : owner ≠ [] := by
  fun_induction ownerOf paths path generalizing owner with
  | case1 path listed =>
    rw [← Option.some.inj owned]
    simp [besideOf]
  | case2 path _ some_ ih =>
    rw [← Option.some.inj owned]
    cases above : ownerOf paths (folderOf path) with
    | none => exact some_
    | some o => exact ih above
  | case3 => cases owned

section Owners

variable [Locale] (listing : Listing)

namespace Listing

def paths : List Text := listing.entries.map VaultFileEntry.path

variable {listing} {path : Text}

theorem cleanPaths_eq : cleanPaths listing.entries = listing.paths := by
  apply List.filter_eq_self.mpr
  intro path member
  obtain ⟨entry,inside,rfl⟩ := List.mem_map.mp member
  exact decide_eq_true (listing.clean entry inside)

theorem plain_of_mem (member : path ∈ listing.paths) : Posix.Plain path := by
  obtain ⟨entry,inside,rfl⟩ := List.mem_map.mp member
  exact listing.plain entry inside

theorem folder_mem (member : path ∈ listing.paths) (some_ : folderOf path ≠ []) :
    folderOf path ∈ listing.paths := by
  obtain ⟨entry,inside,rfl⟩ := List.mem_map.mp member
  exact List.mem_map.mpr ⟨_,listing.parents entry inside some_,rfl⟩

/-- A folder is listed before what is in it. -/
theorem folder_before {before after : List VaultFileEntry} {entry : VaultFileEntry}
    (cut : listing.entries = before ++ entry :: after) (some_ : folderOf entry.path ≠ []) :
    folderOf entry.path ∈ before.map VaultFileEntry.path := by
  have member : entry ∈ listing.entries := by simp [cut]
  obtain ⟨_,_,_,rest,shape⟩ := folderOf_spec (listing.plain entry member) some_
  have lower := Locale.below (folderOf entry.path) rest
  rw [← shape] at lower
  have there := listing.parents entry member some_
  rw [cut] at there
  rcases List.mem_append.mp there with ahead | behind
  · exact List.mem_map.mpr ⟨_,ahead,rfl⟩
  · exfalso
    rcases List.mem_cons.mp behind with same | later
    · have long := congrArg (fun e => e.path.length) same
      have shorter := folderOf_shorter entry.path some_
      simp only at long
      omega
    · have sorted := listing.sorted
      rw [cut] at sorted
      have order := (List.pairwise_cons.mp (List.pairwise_append.mp sorted).2.1).1 _ later
      rw [Locale.swap,lower] at order
      exact order rfl

/-- Where no note describes its folder, one round gives a row its owner. -/
theorem fold_owner {before after : List VaultFileEntry} {entry : VaultFileEntry}
    (cut : listing.entries = before ++ entry :: after) (free : ¬FolderNote entry)
    {owner : Dict Text Text} (known : ∀ path,owner.find path =
      if path ∈ before.map VaultFileEntry.path then ownerOf listing.paths path else none)
    (path : Text) : (fold listing.paths owner entry).find path =
      if path ∈ (before ++ [entry]).map VaultFileEntry.path then ownerOf listing.paths path
      else none := by
  have member : entry.path ∈ listing.paths := List.mem_map.mpr ⟨entry,by simp [cut],rfl⟩
  have distinct := listing.distinct
  rw [cut,List.map_append,List.map_cons,List.nodup_append] at distinct
  have fresh : entry.path ∉ before.map VaultFileEntry.path := fun inside =>
    distinct.2.2 _ inside _ List.mem_cons_self rfl
  have new : owner.find entry.path = none := by rw [known,if_neg fresh]
  have owned : (sameName listing.paths entry.path).or (inherited listing.paths owner entry.path) =
      ownerOf listing.paths entry.path := by
    rw [ownerOf.eq_def,sameName]
    split
    · rfl
    · rw [Option.none_or,inherited]
      split
      · next some_ =>
        have ahead := folder_before cut some_
        have listed := folder_mem member some_
        rw [if_pos listed,known,if_pos ahead,Option.or_some]
      · rfl
  rw [fold,if_neg (by simp [member,new]),if_neg free,owned]
  cases found : ownerOf listing.paths entry.path with
  | none =>
    by_cases here : path = entry.path
    · rw [here,new,found,ite_self]
    · simp [known,here]
  | some o =>
    simp only [if_neg (ownerOf_ne_nil found),Dict.find_set,known]
    by_cases here : path = entry.path
    · simp [here,found]
    · simp [here]

/-- Where no note describes its folder, every row has its owner. -/
theorem find_foldedPaths (free : ∀ entry ∈ listing.entries,¬FolderNote entry) (path : Text) :
    (foldedPaths listing.entries).find path =
      if path ∈ listing.paths then ownerOf listing.paths path else none := by
  have prefixes : ∀ before after,listing.entries = before ++ after → ∀ path,
      (before.foldl (fold listing.paths) []).find path =
        if path ∈ before.map VaultFileEntry.path then ownerOf listing.paths path else none := by
    intro before
    induction before using List.reverseRecOn with
    | nil => simp
    | append_singleton before entry ih =>
      intro after cut path
      have cut' : listing.entries = before ++ entry :: after := by simpa using cut
      rw [List.foldl_append]
      exact fold_owner cut' (free entry (by simp [cut'])) (ih (entry :: after) cut') path
  rw [foldedPaths,cleanPaths_eq,prefixes listing.entries [] (by simp) path]
  rfl

theorem names_fold {owner : Dict Text Text} (distinct : (owner.map Prod.fst).Nodup)
    (paths : List Text) (entry : VaultFileEntry) :
    ((fold paths owner entry).map Prod.fst).Nodup := by
  unfold fold
  split
  · exact distinct
  · split
    · exact Dict.nodup_names_set (Dict.nodup_names_set distinct _ _) _ _
    · split
      · split
        · exact distinct
        · exact Dict.nodup_names_set distinct _ _
      · exact distinct

theorem names_foldedPaths (entries : List VaultFileEntry) :
    ((foldedPaths entries).map Prod.fst).Nodup := by
  have run : ∀ (rows : List VaultFileEntry) (owner : Dict Text Text),
      (owner.map Prod.fst).Nodup →
        ((rows.foldl (fold (cleanPaths entries)) owner).map Prod.fst).Nodup := by
    intro rows
    induction rows with
    | nil => exact fun _ distinct => distinct
    | cons entry rest ih => exact fun owner distinct => ih _ (names_fold distinct _ entry)
  exact run entries [] List.nodup_nil

/-- An owner is listed, and it is the note of the same name or fewer names deep. -/
theorem ownerOf_spec {owner : Text} (member : path ∈ listing.paths)
    (owned : ownerOf listing.paths path = some owner) :
    owner ∈ listing.paths ∧ (owner = besideOf path ∨ depth owner < depth path) := by
  fun_induction ownerOf listing.paths path generalizing owner with
  | case1 path listed =>
    rw [← Option.some.inj owned]
    exact ⟨listed,.inl rfl⟩
  | case2 path _ some_ ih =>
    have listed := folder_mem member some_
    have higher := (folderOf_spec (plain_of_mem member) some_).2.1
    cases above : ownerOf listing.paths (folderOf path) with
    | none =>
      rw [above,Option.getD_none] at owned
      rw [← Option.some.inj owned]
      exact ⟨listed,.inr (by omega)⟩
    | some o =>
      rw [above,Option.getD_some] at owned
      rw [← Option.some.inj owned]
      obtain ⟨inside,below⟩ := ih listed above
      have level : depth o ≤ depth (folderOf path) := by
        rcases below with rfl | less
        · exact (besideOf_spec (plain_of_mem listed)).2.1.le
        · exact less.le
      exact ⟨inside,.inr (by omega)⟩
  | case3 => cases owned

/-! ### The tree of a listing -/

def longest (listing : Listing) : Nat := (listing.paths.map List.length).sum

def rank (listing : Listing) (path : Text) : Nat :=
  depth path * (listing.longest + 1) + (listing.longest - path.length)

theorem length_le (member : path ∈ listing.paths) : path.length ≤ listing.longest :=
  List.le_sum_of_mem (List.mem_map_of_mem member)

theorem rank_lt {owner : Text} (member : path ∈ listing.paths)
    (owned : ownerOf listing.paths path = some owner) :
    listing.rank owner < listing.rank path := by
  obtain ⟨inside,rfl | less⟩ := ownerOf_spec member owned
  · have level := (besideOf_spec (plain_of_mem member)).2.1
    have long : (besideOf path).length = path.length + 3 := by simp [besideOf]
    have room := length_le inside
    rw [rank,rank,level]
    omega
  · have levels := Nat.mul_le_mul_right (listing.longest + 1) (Nat.succ_le_of_lt less)
    rw [Nat.succ_mul] at levels
    rw [rank,rank]
    omega

def ownership (listing : Listing) : Forest.Ownership Text where
  things := listing.paths
  owner := ownerOf listing.paths
  rank := listing.rank
  bound := (listing.paths.map listing.rank).sum
  distinct := listing.distinct
  inside _ member _ owned := (ownerOf_spec member owned).1
  descends _ member _ owned := rank_lt member owned
  bounded _ member := List.le_sum_of_mem (List.mem_map_of_mem member)

omit [Locale] in
theorem set_new {d : Dict Text VaultFileEntry} {entry : VaultFileEntry}
    (fresh : entry.path ∉ d.map Prod.fst) :
    d.set entry.path entry = d ++ [(entry.path,entry)] := by
  induction d with
  | nil => rfl
  | cons head rest ih =>
    rw [List.map_cons,List.mem_cons,not_or] at fresh
    rw [Dict.set,if_neg (Ne.symm fresh.1),ih fresh.2,List.cons_append]

theorem nodesOf_eq (listing : Listing) :
    nodesOf listing.entries = listing.entries.map fun entry => (entry.path,entry) := by
  have prefixes : ∀ before after,listing.entries = before ++ after →
      nodesOf before = before.map fun entry => (entry.path,entry) := by
    intro before
    induction before using List.reverseRecOn with
    | nil => exact fun _ _ => rfl
    | append_singleton before entry ih =>
      intro after cut
      have cut' : listing.entries = before ++ entry :: after := by simpa using cut
      have behind := ih (entry :: after) cut'
      have clean := listing.clean entry (by simp [cut'])
      have distinct := listing.distinct
      rw [cut',List.map_append,List.map_cons,List.nodup_append] at distinct
      have fresh : entry.path ∉ (nodesOf before).map Prod.fst := by
        rw [behind,List.map_map]
        exact fun inside => distinct.2.2 _ inside _ List.mem_cons_self rfl
      have last : nodesOf (before ++ [entry]) = (nodesOf before).set entry.path entry := by
        simp [nodesOf,clean]
      rw [last,set_new fresh,behind,List.map_append]
      rfl
  exact prefixes listing.entries [] (by simp)

theorem names_nodesOf (listing : Listing) :
    (nodesOf listing.entries).map Prod.fst = listing.paths := by
  rw [nodesOf_eq,List.map_map]
  rfl

theorem node_iff : ((nodesOf listing.entries).find path).isSome ↔ path ∈ listing.paths := by
  rw [← names_nodesOf]
  constructor
  · intro there
    obtain ⟨entry,found⟩ := Option.isSome_iff_exists.mp there
    exact List.mem_map_of_mem (Dict.mem_of_find found)
  · intro member
    obtain ⟨row,inside,rfl⟩ := List.mem_map.mp member
    have distinct : ((nodesOf listing.entries).map Prod.fst).Nodup :=
      names_nodesOf listing ▸ listing.distinct
    rw [Dict.find_of_mem distinct inside]
    rfl

theorem sortPaths_perm (paths : List Text) : (sortPaths paths).Perm paths :=
  List.perm_insertionSort _ _

theorem mem_foldedPaths (free : ∀ entry ∈ listing.entries,¬FolderNote entry) {owner : Text} :
    (path,owner) ∈ foldedPaths listing.entries ↔
      path ∈ listing.paths ∧ ownerOf listing.paths path = some owner := by
  constructor
  · intro member
    have found := Dict.find_of_mem (names_foldedPaths listing.entries) member
    rw [find_foldedPaths free] at found
    split at found
    · next inside => exact ⟨inside,found⟩
    · cases found
  · rintro ⟨inside,owned⟩
    apply Dict.mem_of_find
    rw [find_foldedPaths free,if_pos inside,owned]

/-- The rows under each row and the roots are those of the ownership. -/
theorem listed (free : ∀ entry ∈ listing.entries,¬FolderNote entry) :
    listing.ownership.Listed (childrenOf (nodesOf listing.entries) (foldedPaths listing.entries))
      (sortPaths (((nodesOf listing.entries).map Prod.fst).filter fun path =>
        ((foldedPaths listing.entries).find path).isNone)) := by
  constructor
  · intro k
    apply (sortPaths_perm _).trans
    have distinct : (((foldedPaths listing.entries).filter fun row => row.2 = k ∧
        ((nodesOf listing.entries).find row.2).isSome ∧
          ((nodesOf listing.entries).find row.1).isSome).map Prod.fst).Nodup :=
      (names_foldedPaths listing.entries).sublist (List.filter_sublist.map Prod.fst)
    apply (List.perm_ext_iff_of_nodup distinct
      ((show listing.paths.Nodup from listing.distinct).filter _)).mpr
    intro c
    simp only [List.mem_map,List.mem_filter,decide_eq_true_eq,node_iff]
    constructor
    · rintro ⟨⟨c,o⟩,⟨member,rfl,_,inside⟩,rfl⟩
      exact ⟨inside,((mem_foldedPaths free).mp member).2⟩
    · rintro ⟨inside,owned⟩
      exact ⟨(c,k),⟨(mem_foldedPaths free).mpr ⟨inside,owned⟩,rfl,
        (ownerOf_spec inside owned).1,inside⟩,rfl⟩
  · apply (sortPaths_perm _).trans
    rw [names_nodesOf]
    apply List.Perm.of_eq
    apply List.filter_congr
    intro path inside
    rw [find_foldedPaths free,if_pos inside]
    cases owned : ownerOf listing.paths path with
    | none => simp [ownership,owned]
    | some o => simp [ownership,owned]

/-! ### All owners of a row -/

theorem rank_lt_of_depth {a b : Text} (less : depth a < depth b) :
    listing.rank a < listing.rank b := by
  have levels := Nat.mul_le_mul_right (listing.longest + 1) (Nat.succ_le_of_lt less)
  rw [Nat.succ_mul] at levels
  rw [rank,rank]
  omega

end Listing

/-- The note of the path's name, the note of that note's name and so on. -/
inductive NoteOf (paths : List Text) : Text → Text → Prop where
  | beside {path : Text} : besideOf path ∈ paths → NoteOf paths path (besideOf path)
  | further {path note : Text} : NoteOf paths path note → besideOf note ∈ paths →
      NoteOf paths path (besideOf note)

omit [Locale] in
theorem NoteOf.of_beside {paths : List Text} {path note : Text} (listed : besideOf path ∈ paths)
    (noteOf : NoteOf paths (besideOf path) note) : NoteOf paths path note := by
  generalize start : besideOf path = beside at noteOf
  induction noteOf with
  | beside inside => exact .further (start ▸ .beside listed) inside
  | further _ inside ih => exact .further ih inside

omit [Locale] in
theorem NoteOf.listed {paths : List Text} {path note : Text} (noteOf : NoteOf paths path note) :
    besideOf path ∈ paths ∧ note ∈ paths := by
  induction noteOf with
  | beside inside => exact ⟨inside,inside⟩
  | further _ inside ih => exact ⟨ih.1,inside⟩

namespace Listing

variable {listing} {path owner : Text}

theorem chain_of_note (member : path ∈ listing.paths) (noteOf : NoteOf listing.paths path owner) :
    listing.ownership.Chain path owner := by
  have step : ∀ {note : Text},note ∈ listing.paths → besideOf note ∈ listing.paths →
      listing.ownership.Owns note (besideOf note) := by
    intro note inside beside
    refine ⟨inside,?_⟩
    change ownerOf listing.paths note = _
    rw [ownerOf.eq_def,if_pos beside]
  induction noteOf with
  | beside inside => exact .single (step member inside)
  | further before inside ih => exact .tail ih (step before.listed.2 inside)

theorem ancestors_of_note (member : path ∈ listing.paths)
    (noteOf : NoteOf listing.paths path owner) : ancestors owner = ancestors path := by
  induction noteOf with
  | beside => exact (besideOf_spec (plain_of_mem member)).2.2
  | further before inside ih =>
    rw [(besideOf_spec (plain_of_mem before.listed.2)).2.2,ih]

/-- The owner of a row that no note beside it owns. -/
theorem ownerOf_below (alone : besideOf path ∉ listing.paths) (some_ : folderOf path ≠ []) :
    ownerOf listing.paths path =
      some ((ownerOf listing.paths (folderOf path)).getD (folderOf path)) := by
  rw [ownerOf.eq_def,if_neg alone,if_pos some_]

theorem ownerOf_beside (listed : besideOf path ∈ listing.paths) :
    ownerOf listing.paths path = some (besideOf path) := by
  rw [ownerOf.eq_def,if_pos listed]

theorem ownerOf_eq_none : ownerOf listing.paths path = none ↔
    besideOf path ∉ listing.paths ∧ folderOf path = [] := by
  rw [ownerOf.eq_def]
  split
  · next beside => simp [beside]
  · next alone =>
    split
    · next some_ => simp [some_]
    · next top => simpa [alone] using top

/-- The folders above a row are listed, and what is above them is above the row. -/
theorem ancestor_spec {folder : Text} (member : path ∈ listing.paths)
    (above : folder ∈ ancestors path) :
    folder ∈ listing.paths ∧ ancestors folder ⊆ ancestors path := by
  induction size : depth path using Nat.strong_induction_on generalizing path with
  | _ n ih =>
    by_cases top : folderOf path = []
    · rw [ancestors_top (plain_of_mem member) top] at above
      cases above
    · obtain ⟨_,deeper,shape,_⟩ := folderOf_spec (plain_of_mem member) top
      have inside := folder_mem member top
      rw [shape,List.mem_append,List.mem_singleton] at above
      rw [shape]
      rcases above with further | rfl
      · obtain ⟨listed,within⟩ := ih _ (by omega) inside further rfl
        exact ⟨listed,List.Subset.trans within (List.subset_append_left _ _)⟩
      · exact ⟨inside,List.subset_append_left _ _⟩

/-- The owners of a folder are owners of what is in it. -/
theorem chain_of_folder (member : path ∈ listing.paths) (some_ : folderOf path ≠ [])
    (chain : listing.ownership.Chain (folderOf path) owner) :
    listing.ownership.Chain path owner := by
  induction rank : listing.rank path using Nat.strong_induction_on generalizing path with
  | _ n ih =>
    by_cases beside : besideOf path ∈ listing.paths
    · have same := (besideOf_spec (plain_of_mem member)).1
      have owned := ownerOf_beside beside
      have further := ih _ (rank ▸ rank_lt member owned) beside (by rwa [same])
        (by rwa [same]) rfl
      exact .head ⟨member,owned⟩ further
    · obtain ⟨k,owns,above⟩ := Relation.TransGen.head'_iff.mp chain
      have owned := ownerOf_below beside some_
      rw [show ownerOf listing.paths (folderOf path) = some k from owns.2,
        Option.getD_some] at owned
      exact Relation.TransGen.head' ⟨member,owned⟩ above

theorem chain_of_ancestor {folder : Text} (member : path ∈ listing.paths)
    (above : folder ∈ ancestors path) (chain : listing.ownership.Chain folder owner) :
    listing.ownership.Chain path owner := by
  induction size : depth path using Nat.strong_induction_on generalizing path with
  | _ n ih =>
    by_cases top : folderOf path = []
    · rw [ancestors_top (plain_of_mem member) top] at above
      cases above
    · obtain ⟨_,deeper,shape,_⟩ := folderOf_spec (plain_of_mem member) top
      rw [shape,List.mem_append,List.mem_singleton] at above
      apply chain_of_folder member top
      rcases above with further | rfl
      · exact ih _ (by omega) (folder_mem member top) further rfl
      · exact chain

/-- A folder at the top without a note of its name owns what is in it. -/
theorem chain_of_top (member : path ∈ listing.paths) (first : (ancestors path).head? = some owner)
    (alone : besideOf owner ∉ listing.paths) : listing.ownership.Chain path owner := by
  induction rank : listing.rank path using Nat.strong_induction_on generalizing path with
  | _ n ih =>
    have plain := plain_of_mem member
    by_cases beside : besideOf path ∈ listing.paths
    · have owned := ownerOf_beside beside
      have further := ih _ (rank ▸ rank_lt member owned) beside
        (by rwa [(besideOf_spec plain).2.2]) rfl
      exact .head ⟨member,owned⟩ further
    · by_cases top : folderOf path = []
      · rw [ancestors_top plain top] at first
        cases first
      · have inside := folder_mem member top
        obtain ⟨_,deeper,shape,_⟩ := folderOf_spec plain top
        by_cases outer : folderOf (folderOf path) = []
        · rw [shape,ancestors_top (plain_of_mem inside) outer] at first
          have same : folderOf path = owner := Option.some.inj first
          have free : ownerOf listing.paths (folderOf path) = none := by
            rw [ownerOf.eq_def,if_neg (same ▸ alone),if_neg (by simpa using outer)]
          have owned := ownerOf_below beside top
          rw [free,Option.getD_none] at owned
          exact same ▸ .single ⟨member,owned⟩
        · obtain ⟨_,_,shape',_⟩ := folderOf_spec (plain_of_mem inside) outer
          have again : (ancestors (folderOf path)).head? = some owner := by
            rw [shape,List.head?_append_of_ne_nil _ (by simp [shape'])] at first
            exact first
          exact chain_of_folder member top
            (ih _ (rank ▸ rank_lt_of_depth (by omega)) inside again rfl)

/-- The owners of a row are the notes of its name and of the folders it is in, and the folder at
the top where that one has no note. -/
theorem chain_iff (member : path ∈ listing.paths) : listing.ownership.Chain path owner ↔
    (∃ folder,(folder = path ∨ folder ∈ ancestors path) ∧ NoteOf listing.paths folder owner) ∨
      ((ancestors path).head? = some owner ∧ besideOf owner ∉ listing.paths) := by
  constructor
  · intro chain
    induction rank : listing.rank path using Nat.strong_induction_on generalizing path with
    | _ n ih =>
      have plain := plain_of_mem member
      obtain ⟨k,owns,above⟩ := Relation.TransGen.head'_iff.mp chain
      have owned : ownerOf listing.paths path = some k := owns.2
      by_cases beside : besideOf path ∈ listing.paths
      · rw [ownerOf_beside beside,Option.some.injEq] at owned
        subst owned
        rcases Relation.reflTransGen_iff_eq_or_transGen.mp above with rfl | further
        · exact .inl ⟨path,.inl rfl,.beside beside⟩
        · have level := (besideOf_spec plain).2.2
          rcases ih _ (rank ▸ owns.descends) beside further rfl with
            ⟨folder,rfl | inside,noteOf⟩ | top
          · exact .inl ⟨path,.inl rfl,.of_beside beside noteOf⟩
          · exact .inl ⟨folder,.inr (level ▸ inside),noteOf⟩
          · exact .inr (level ▸ top)
      · by_cases top : folderOf path = []
        · rw [ownerOf.eq_def,if_neg beside,if_neg (by simpa using top)] at owned
          cases owned
        · have inside := folder_mem member top
          obtain ⟨_,deeper,shape,_⟩ := folderOf_spec plain top
          rw [ownerOf_below beside top,Option.some.injEq] at owned
          cases outer : ownerOf listing.paths (folderOf path) with
          | none =>
            rw [outer,Option.getD_none] at owned
            subst owned
            have same := (Relation.reflTransGen_iff_eq_or_transGen.mp above).resolve_right
              (Forest.Ownership.not_chain_of_root outer)
            obtain ⟨alone,first⟩ := ownerOf_eq_none.mp outer
            rw [same,shape,ancestors_top (plain_of_mem inside) first]
            exact .inr ⟨rfl,alone⟩
          | some o =>
            rw [outer,Option.getD_some] at owned
            subst owned
            have chain' : listing.ownership.Chain (folderOf path) owner :=
              Relation.TransGen.head' ⟨inside,outer⟩ above
            rcases ih _ (rank ▸ rank_lt_of_depth (by omega)) inside chain' rfl with
              ⟨folder,same | further,noteOf⟩ | ⟨first,alone⟩
            · exact .inl ⟨folder,.inr (by simp [shape,same]),noteOf⟩
            · exact .inl ⟨folder,.inr (by simp [shape,further]),noteOf⟩
            · exact .inr ⟨by simp [shape,first],alone⟩
  · rintro (⟨folder,rfl | above,noteOf⟩ | ⟨first,alone⟩)
    · exact chain_of_note member noteOf
    · exact chain_of_ancestor member above (chain_of_note (ancestor_spec member above).1 noteOf)
    · exact chain_of_top member first alone

/-! ### What is left out -/

variable {expansion : FileTreeExpansion}

def Shut (expansion : FileTreeExpansion) (listing : Listing) (path : Text) : Prop :=
  path ∈ expansion.collapsedPaths ∨
    (∃ above ∈ ancestors path,above ∈ expansion.collapsedPaths) ∨
      ∃ owner,listing.ownership.Chain path owner ∧ owner ∈ expansion.collapsedPaths

open Classical in
theorem ownerCollapsed_eq (free : ∀ entry ∈ listing.entries,¬FolderNote entry) {fuel : Nat}
    (member : path ∈ listing.paths) (enough : listing.rank path < fuel) :
    ownerCollapsed (foldedPaths listing.entries) expansion fuel path =
      some (decide (∃ owner,listing.ownership.Chain path owner ∧
        owner ∈ expansion.collapsedPaths)) := by
  induction fuel generalizing path with
  | zero => omega
  | succ fuel ih =>
    rw [ownerCollapsed,find_foldedPaths free,if_pos member]
    cases owned : ownerOf listing.paths path with
    | none =>
      have nothing : ¬∃ owner,listing.ownership.Chain path owner ∧
          owner ∈ expansion.collapsedPaths := fun ⟨_,chain,_⟩ =>
        Forest.Ownership.not_chain_of_root owned chain
      simp [nothing]
    | some o =>
      have owns : listing.ownership.Owns path o := ⟨member,owned⟩
      have lower := rank_lt member owned
      simp only [if_neg (ownerOf_ne_nil owned)]
      split
      · next collapsed =>
        have there : ∃ owner,listing.ownership.Chain path owner ∧
          owner ∈ expansion.collapsedPaths := ⟨o,.single owns,collapsed⟩
        simp [there]
      · next opened =>
        rw [ih (ownerOf_spec member owned).1 (by omega)]
        congr 2
        apply propext
        constructor
        · rintro ⟨owner,chain,collapsed⟩
          exact ⟨owner,.head owns chain,collapsed⟩
        · rintro ⟨owner,chain,collapsed⟩
          obtain ⟨k,owns',above⟩ := Relation.TransGen.head'_iff.mp chain
          rw [listing.ownership.owns_unique owns' owns] at above
          rcases Relation.reflTransGen_iff_eq_or_transGen.mp above with same | further
          · exact absurd (same ▸ collapsed) opened
          · exact ⟨owner,further,collapsed⟩

open Classical in
theorem hidden_eq (free : ∀ entry ∈ listing.entries,¬FolderNote entry) {fuel : Nat}
    (opened : ∀ path ∈ listing.paths,path ∈ expansion.expandedPaths)
    (member : path ∈ listing.paths) (enough : listing.rank path < fuel) :
    hidden fuel (foldedPaths listing.entries) expansion path =
      some (decide (Shut expansion listing path)) := by
  rw [hidden]
  split
  · next collapsed =>
    have shut : Shut expansion listing path :=
      .inl (collapsed.resolve_right fun closed => closed (opened path member))
    simp [shut]
  · next kept =>
    rw [not_or] at kept
    split
    · next above =>
      have shut : Shut expansion listing path := .inr (.inl above)
      simp [shut]
    · next below =>
      rw [ownerCollapsed_eq free member enough]
      simp [Shut,kept.1,below]

/-- The tree has the listed rows, and a walk leaves out what has something shut above it. -/
theorem nodes_spec (free : ∀ entry ∈ listing.entries,¬FolderNote entry) {fuel : Nat}
    (enough : listing.ownership.bound < fuel) :
    ∃ nodes,buildTreeHierarchy fuel listing.entries = some nodes ∧
      ((Forest.rows nodes).map TreeHierarchyNode.path).Perm listing.paths ∧
      ∀ (shut : Text → Bool) (path : Text),
        path ∈ (Forest.walkAll (fun row => shut row.path) nodes).map TreeHierarchyNode.path ↔
          path ∈ listing.paths ∧
            ∀ owner,listing.ownership.Chain path owner → shut owner = false := by
  have listed := listing.listed free
  have keyed : ∀ depth path,
      (nodeOf (nodesOf listing.entries) depth path).path = path := fun _ _ => rfl
  refine ⟨_,listed.grow_all _ enough,listed.perm_rows keyed enough,?_⟩
  intro shut path
  exact listed.mem_walkAll keyed shut enough

/-- The rows of the tree and those that are shown, where no note describes its folder. -/
theorem tree_spec (free : ∀ entry ∈ listing.entries,¬FolderNote entry)
    (opened : ∀ path ∈ listing.paths,path ∈ expansion.expandedPaths) {fuel : Nat}
    (enough : listing.ownership.bound < fuel) :
    ∃ nodes rows,buildTreeHierarchy fuel listing.entries = some nodes ∧
      visibleTreeRows fuel nodes (foldedPaths listing.entries) expansion = some rows ∧
      ((Forest.rows nodes).map TreeHierarchyNode.path).Perm listing.paths ∧
      ∀ path,path ∈ rows.map TreeHierarchyNode.path ↔ path ∈ listing.paths ∧
        ∀ owner,listing.ownership.Chain path owner → ¬Shut expansion listing owner := by
  classical
  obtain ⟨nodes,grown,perm,seen⟩ := nodes_spec free enough
  have walked : visibleTreeRows fuel nodes (foldedPaths listing.entries) expansion =
      some (Forest.walkAll (fun row => decide (Shut expansion listing row.path)) nodes) := by
    apply Forest.walkAllM_eq
    intro row member
    have inside := perm.mem_iff.mp (List.mem_map_of_mem member)
    exact hidden_eq free opened inside
      ((listing.ownership.bounded _ inside).trans_lt enough)
  refine ⟨nodes,_,grown,walked,perm,fun path => ?_⟩
  rw [seen fun path => decide (Shut expansion listing path)]
  simp only [decide_eq_false_iff_not]

end Listing

/-- A row is covered where something above it that the tree looks at is collapsed: a folder above
one that has a note of its name, such a note, or a folder at the top that has none. -/
inductive Covered (paths : List Text) (expansion : FileTreeExpansion) (path : Text) : Prop where
  | outside {folder above : Text} : folder = path ∨ folder ∈ ancestors path →
      besideOf folder ∈ paths → above ∈ ancestors folder → above ∈ expansion.collapsedPaths →
      Covered paths expansion path
  | note {folder note : Text} : folder = path ∨ folder ∈ ancestors path →
      NoteOf paths folder note → note ∈ expansion.collapsedPaths → Covered paths expansion path
  | top {folder : Text} : (ancestors path).head? = some folder → besideOf folder ∉ paths →
      folder ∈ expansion.collapsedPaths → Covered paths expansion path

def Above (entries : List VaultFileEntry) : Text → Text → Prop :=
  Relation.TransGen fun path owner => (foldedPaths entries).find path = some owner

/-- The tree and the rows that are shown, with so many rounds: everything once, and left out what
has an owner or a folder above it that is collapsed. -/
def Shows (fuel : Nat) (entries : List VaultFileEntry) (expansion : FileTreeExpansion) : Prop :=
  ∃ nodes rows,buildTreeHierarchy fuel entries = some nodes ∧
    visibleTreeRows fuel nodes (foldedPaths entries) expansion = some rows ∧
    ((Forest.rows nodes).map TreeHierarchyNode.path).Perm (entries.map VaultFileEntry.path) ∧
    ∀ path ∈ entries.map VaultFileEntry.path,path ∉ rows.map TreeHierarchyNode.path ↔
      (∃ owner,Above entries path owner ∧ owner ∈ expansion.collapsedPaths) ∨
        ∃ above ∈ ancestors path,above ∈ expansion.collapsedPaths

/-- No owner is above itself, and all loops come to an end with everything shown once. -/
structure ShownOnce (entries : List VaultFileEntry) (expansion : FileTreeExpansion) : Prop where
  acyclic : ∀ path,¬Above entries path path
  shows : ∃ least,∀ fuel ≥ least,Shows fuel entries expansion

namespace Listing

variable {listing} {path owner : Text} {expansion : FileTreeExpansion}

theorem above_iff (free : ∀ entry ∈ listing.entries,¬FolderNote entry) :
    Above listing.entries path owner ↔ listing.ownership.Chain path owner := by
  have same : (fun path owner => (foldedPaths listing.entries).find path = some owner) =
      listing.ownership.Owns := by
    funext path owner
    rw [find_foldedPaths free]
    apply propext
    split
    · next inside => exact ⟨fun owned => ⟨inside,owned⟩,And.right⟩
    · next outside => exact ⟨nofun,fun owns => absurd owns.1 outside⟩
  rw [Above,same]
  rfl

theorem ancestors_of_top (member : path ∈ listing.paths)
    (first : (ancestors path).head? = some owner) : ancestors owner = [] := by
  induction size : depth path using Nat.strong_induction_on generalizing path with
  | _ n ih =>
    by_cases top : folderOf path = []
    · rw [ancestors_top (plain_of_mem member) top] at first
      cases first
    · obtain ⟨_,deeper,shape,_⟩ := folderOf_spec (plain_of_mem member) top
      rw [shape] at first
      by_cases outer : ancestors (folderOf path) = []
      · rw [outer] at first
        exact Option.some.inj first ▸ outer
      · rw [List.head?_append_of_ne_nil _ outer] at first
        exact ih _ (by omega) (folder_mem member top) first rfl

theorem covered_iff (member : path ∈ listing.paths) :
    Covered listing.paths expansion path ↔
      ∃ owner,listing.ownership.Chain path owner ∧ Shut expansion listing owner := by
  constructor
  · intro covered
    cases covered with
    | @outside folder above inside beside within collapsed =>
      have listed : folder ∈ listing.paths := by
        rcases inside with rfl | inside
        · exact member
        · exact (ancestor_spec member inside).1
      have same := (besideOf_spec (plain_of_mem listed)).2.2
      exact ⟨besideOf folder,(chain_iff member).mpr (.inl ⟨folder,inside,.beside beside⟩),
        .inr (.inl ⟨above,same ▸ within,collapsed⟩)⟩
    | note inside noteOf collapsed =>
      exact ⟨_,(chain_iff member).mpr (.inl ⟨_,inside,noteOf⟩),.inl collapsed⟩
    | top first alone collapsed =>
      exact ⟨_,(chain_iff member).mpr (.inr ⟨first,alone⟩),.inl collapsed⟩
  · rintro ⟨owner,chain,shut⟩
    have direct : ∀ {o : Text},listing.ownership.Chain path o → o ∈ expansion.collapsedPaths →
        Covered listing.paths expansion path := by
      intro o chain collapsed
      rcases (chain_iff member).mp chain with ⟨folder,inside,noteOf⟩ | ⟨first,alone⟩
      · exact .note inside noteOf collapsed
      · exact .top first alone collapsed
    rcases shut with collapsed | ⟨above,inside,collapsed⟩ | ⟨further,chain',collapsed⟩
    · exact direct chain collapsed
    · rcases (chain_iff member).mp chain with ⟨folder,within,noteOf⟩ | ⟨first,alone⟩
      · have listed : folder ∈ listing.paths := by
          rcases within with rfl | within
          · exact member
          · exact (ancestor_spec member within).1
        rw [ancestors_of_note listed noteOf] at inside
        exact .outside within noteOf.listed.1 inside collapsed
      · rw [ancestors_of_top member first] at inside
        cases inside
    · exact direct (chain.trans chain') collapsed

theorem covered_closed (member : path ∈ listing.paths)
    (covered : Covered listing.paths expansion path) :
    (∃ owner,listing.ownership.Chain path owner ∧ owner ∈ expansion.collapsedPaths) ∨
      ∃ above ∈ ancestors path,above ∈ expansion.collapsedPaths := by
  cases covered with
  | outside inside beside above collapsed => 
    rcases inside with rfl | inside
    · exact .inr ⟨_,above,collapsed⟩
    · exact .inr ⟨_,(ancestor_spec member inside).2 above,collapsed⟩
  | note inside noteOf collapsed =>
    exact .inl ⟨_,(chain_iff member).mpr (.inl ⟨_,inside,noteOf⟩),collapsed⟩
  | top first alone collapsed =>
    exact .inl ⟨_,(chain_iff member).mpr (.inr ⟨first,alone⟩),collapsed⟩

/-- One path is listed as one kind of thing. -/
theorem kind_unique {kind kind' : Kind} (first : ⟨path,kind⟩ ∈ listing.entries)
    (second : ⟨path,kind'⟩ ∈ listing.entries) : kind = kind' :=
  congrArg VaultFileEntry.kind (List.inj_on_of_nodup_map listing.distinct first second rfl)

def Mutual (listing : Listing) (owner : Dict Text Text) (folder : Text) : Prop :=
  ∃ note,owner.find folder = some note ∧ owner.find note = some folder ∧
    ⟨note,.file⟩ ∈ listing.entries

omit [Locale] in
theorem folderOf_ne (some_ : folderOf path ≠ []) : path ≠ folderOf path := fun same =>
  absurd (congrArg List.length same) (folderOf_shorter path some_).ne'

/-- Once a folder and a note own each other, it stays so. -/
theorem Mutual.fold {paths : List Text} {owner : Dict Text Text} {folder : Text}
    (mutual_ : Mutual listing owner folder) {entry : VaultFileEntry}
    (member : entry ∈ listing.entries) : Mutual listing (fold paths owner entry) folder := by
  obtain ⟨note,first,second,file⟩ := mutual_
  unfold Hierarchy.fold
  split
  · exact ⟨note,first,second,file⟩
  · next fresh =>
    rw [not_or,Option.not_isSome_iff_eq_none] at fresh
    have other : ∀ {key value : Text},owner.find key = some value → key ≠ entry.path := by
      rintro key value found rfl
      cases fresh.2.symm.trans found
    split
    · next describes =>
      by_cases same : folder = folderOf entry.path
      · refine ⟨entry.path,?_,?_,?_⟩
        · simp [same]
        · simp [same,folderOf_ne describes.1]
        · have shape : entry = ⟨entry.path,.file⟩ := by
            rw [← describes.2.1]
          exact shape ▸ member
      · have apart : note ≠ folderOf entry.path := by
          rintro rfl
          cases kind_unique file (listing.parents entry member describes.1)
        refine ⟨note,?_,?_,file⟩
        · simp [same,other first,first]
        · simp [apart,other second,second]
    · split
      · split
        · exact ⟨note,first,second,file⟩
        · refine ⟨note,?_,?_,file⟩
          · simp [other first,first]
          · simp [other second,second]
      · exact ⟨note,first,second,file⟩

/-- Only rows met so far and directories have owners. -/
theorem keys_fold {before after : List VaultFileEntry} (cut : listing.entries = before ++ after)
    {path owner : Text}
    (found : (before.foldl (fold listing.paths) []).find path = some owner) :
    path ∈ before.map VaultFileEntry.path ∨ ⟨path,.directory⟩ ∈ listing.entries := by
  induction before using List.reverseRecOn generalizing after owner with
  | nil => cases found
  | append_singleton before entry ih =>
    have cut' : listing.entries = before ++ entry :: after := by simpa using cut
    have member : entry ∈ listing.entries := by simp [cut']
    rw [List.foldl_append,List.foldl_cons,List.foldl_nil] at found
    rw [List.map_append,List.mem_append]
    have earlier : ∀ {owner : Text},
        (before.foldl (fold listing.paths) []).find path = some owner →
        (path ∈ before.map VaultFileEntry.path ∨ path ∈ [entry].map VaultFileEntry.path) ∨
          ⟨path,.directory⟩ ∈ listing.entries := fun found => (ih cut' found).imp_left .inl
    have here : path = entry.path →
        (path ∈ before.map VaultFileEntry.path ∨ path ∈ [entry].map VaultFileEntry.path) ∨
          ⟨path,.directory⟩ ∈ listing.entries := fun same => .inl (.inr (by simp [same]))
    unfold fold at found
    split at found
    · exact earlier found
    · split at found
      · next describes =>
        rw [Dict.find_set,Dict.find_set] at found
        split at found
        · next same => exact .inr (same ▸ listing.parents entry member describes.1)
        · split at found
          · next same => exact here same
          · exact earlier found
      · split at found
        · split at found
          · exact earlier found
          · rw [Dict.find_set] at found
            split at found
            · next same => exact here same
            · exact earlier found
        · exact earlier found

/-- A note that describes its folder and the folder own each other. -/
theorem exists_cycle {entry : VaultFileEntry} (member : entry ∈ listing.entries)
    (note : FolderNote entry) : ∃ path,Above listing.entries path path := by
  obtain ⟨before,after,cut⟩ := List.append_of_mem member
  have distinct := listing.distinct
  rw [cut,List.map_append,List.map_cons,List.nodup_append] at distinct
  have fresh : (before.foldl (fold listing.paths) []).find entry.path = none := by
    cases found : (before.foldl (fold listing.paths) []).find entry.path with
    | none => rfl
    | some owner =>
      exfalso
      rcases keys_fold cut found with earlier | directory
      · exact distinct.2.2 _ earlier _ List.mem_cons_self rfl
      · have shape : entry = ⟨entry.path,.file⟩ := by rw [← note.2.1]
        cases kind_unique directory (shape ▸ member)
  have start : Mutual listing
      (fold listing.paths (before.foldl (fold listing.paths) []) entry) (folderOf entry.path) := by
    have shape : entry = ⟨entry.path,.file⟩ := by rw [← note.2.1]
    have listed : entry.path ∈ listing.paths := List.mem_map_of_mem member
    refine ⟨entry.path,?_,?_,shape ▸ member⟩
    · rw [fold,if_neg (by simp [listed,fresh]),if_pos note]
      simp
    · rw [fold,if_neg (by simp [listed,fresh]),if_pos note]
      simp [folderOf_ne note.1]
  have run : ∀ (rows : List VaultFileEntry) (owner : Dict Text Text),rows ⊆ listing.entries →
      Mutual listing owner (folderOf entry.path) →
        Mutual listing (rows.foldl (fold listing.paths) owner) (folderOf entry.path) := by
    intro rows
    induction rows with
    | nil => exact fun _ _ mutual_ => mutual_
    | cons row rest ih =>
      intro owner inside mutual_
      rw [List.cons_subset] at inside
      exact ih _ inside.2 (mutual_.fold inside.1)
  have within : after ⊆ listing.entries := by
    intro row inside
    simp [cut,inside]
  obtain ⟨other,first,second,_⟩ := run after _ within start
  have whole : foldedPaths listing.entries = after.foldl (fold listing.paths)
      (fold listing.paths (before.foldl (fold listing.paths) []) entry) := by
    rw [foldedPaths,cleanPaths_eq,cut,List.foldl_append,List.foldl_cons]
  rw [← whole] at first second
  exact ⟨_,.tail (.single first) second⟩

end Listing

theorem free_of_shownOnce {listing : Listing} {expansion : FileTreeExpansion}
    (once : ShownOnce listing.entries expansion) :
    ∀ entry ∈ listing.entries,¬FolderNote entry := by
  intro entry member note
  obtain ⟨path,cycle⟩ := Listing.exists_cycle member note
  exact once.acyclic path cycle

theorem covered_of_shownOnce {listing : Listing} {expansion : FileTreeExpansion}
    (opened : ∀ path ∈ expandablePaths listing.entries,path ∈ expansion.expandedPaths)
    (once : ShownOnce listing.entries expansion) {path : Text} (inside : path ∈ listing.paths)
    (closed : ∃ above ∈ ancestors path,above ∈ expansion.collapsedPaths) :
    Covered listing.paths expansion path := by
  obtain ⟨least,shows⟩ := once.shows
  obtain ⟨nodes,rows,grown,walked,_,left⟩ :=
    shows (max least (listing.ownership.bound + 1)) (le_max_left _ _)
  obtain ⟨nodes',rows',grown',walked',_,seen⟩ := Listing.tree_spec (free_of_shownOnce once) opened
    (Nat.lt_of_succ_le (le_max_right least (listing.ownership.bound + 1)))
  obtain rfl := Option.some.inj (grown.symm.trans grown')
  obtain rfl := Option.some.inj (walked.symm.trans walked')
  have gone := (left path inside).mpr (.inr closed)
  rw [seen] at gone
  push Not at gone
  exact (Listing.covered_iff inside).mpr (gone inside)

/-- The document tree shows everything once and leaves out exactly what has something collapsed
above it, iff no note describes its folder and every row in a collapsed folder is covered. -/
theorem shownOnce_iff (listing : Listing) (expansion : FileTreeExpansion)
    (opened : ∀ path ∈ expandablePaths listing.entries,path ∈ expansion.expandedPaths) :
    ShownOnce listing.entries expansion ↔ (∀ entry ∈ listing.entries,¬FolderNote entry) ∧
      ∀ entry ∈ listing.entries,
        (∃ above ∈ ancestors entry.path,above ∈ expansion.collapsedPaths) →
          Covered (expandablePaths listing.entries) expansion entry.path := by
  constructor
  · intro once
    exact ⟨free_of_shownOnce once,fun entry member =>
      covered_of_shownOnce opened once (List.mem_map_of_mem member)⟩
  · rintro ⟨free,covered⟩
    refine ⟨fun path cycle => ?_,listing.ownership.bound + 1,fun fuel enough => ?_⟩
    · exact Forest.Ownership.chain_irrefl path ((Listing.above_iff free).mp cycle)
    · obtain ⟨nodes,rows,grown,walked,perm,seen⟩ :=
        Listing.tree_spec free opened (Nat.lt_of_succ_le enough)
      refine ⟨nodes,rows,grown,walked,perm,fun path member => ?_⟩
      have gone : path ∉ rows.map TreeHierarchyNode.path ↔
          Covered listing.paths expansion path := by
        rw [seen,Listing.covered_iff member]
        push Not
        exact ⟨fun out => out member,fun out _ => out⟩
      rw [gone]
      simp only [Listing.above_iff free]
      constructor
      · exact Listing.covered_closed member
      · rintro (⟨owner,chain,collapsed⟩ | closed)
        · exact (Listing.covered_iff member).mpr ⟨owner,chain,.inl collapsed⟩
        · obtain ⟨entry,inside,rfl⟩ := List.mem_map.mp member
          exact covered entry inside closed

end Owners

/-! ### Listings -/

def compareText : Text → Text → Ordering
  | [],[] => .eq
  | [],_ :: _ => .lt
  | _ :: _,[] => .gt
  | a :: rest,b :: rest' =>
    if a.toNat < b.toNat then .lt else if b.toNat < a.toNat then .gt else compareText rest rest'

theorem compareText_swap (a b : Text) : compareText b a = (compareText a b).swap := by
  fun_induction compareText a b with
  | case1 => rfl
  | case2 => rfl
  | case3 => rfl
  | case4 a rest b rest' less => simp [compareText,less,less.not_gt]
  | case5 a rest b rest' ge less => simp [compareText,less]
  | case6 a rest b rest' ge ge' ih => simp [compareText,ge,ge',ih]

theorem compareText_below (folder rest : Text) :
    compareText folder (folder ++ '/' :: rest) = .lt := by
  induction folder with
  | nil => rfl
  | cons c folder ih => simpa [compareText] using ih

namespace PlainLocale

scoped instance locale : Locale where
  toLowerCase := List.map Text.asciiLower
  localeCompare := compareText
  swap := compareText_swap
  below := compareText_below

end PlainLocale

section Example

open scoped PlainLocale

/-- What a listing promises. -/
def Lists (entries : List VaultFileEntry) : Prop :=
  (entries.map VaultFileEntry.path).Nodup ∧ (∀ entry ∈ entries,nul ∉ entry.path) ∧
    (∀ entry ∈ entries,Posix.Plain entry.path) ∧
    (∀ entry ∈ entries,folderOf entry.path ≠ [] →
      ⟨folderOf entry.path,.directory⟩ ∈ entries) ∧
    entries.Pairwise fun a b => Locale.localeCompare a.path b.path ≠ .gt

instance (entries : List VaultFileEntry) : Decidable (Lists entries) := by
  unfold Lists
  infer_instance

def listingOf (entries : List VaultFileEntry) (lists : Lists entries) : Listing where
  entries := entries
  distinct := lists.1
  clean := lists.2.1
  plain := lists.2.2.1
  parents := lists.2.2.2.1
  sorted := lists.2.2.2.2

/-- Everything open but some rows. -/
def allBut (entries : List VaultFileEntry) (collapsed : List Text) : FileTreeExpansion :=
  ⟨expandablePaths entries,collapsed⟩

def mixedEntries : List VaultFileEntry :=
  [⟨"docs".toList,.directory⟩,⟨"docs.md".toList,.file⟩,⟨"docs/a.md".toList,.file⟩,
    ⟨"lone".toList,.directory⟩,⟨"lone/b.md".toList,.file⟩]

theorem mixedEntries_lists : Lists mixedEntries := by decide

theorem mixedEntries_shownOnce :
    ShownOnce mixedEntries (allBut mixedEntries ["docs.md".toList,"lone".toList]) := by
  have inside : ∀ entry ∈ mixedEntries,∀ above ∈ ancestors entry.path,
      above ∈ ["docs.md".toList,"lone".toList] → entry.path = "lone/b.md".toList := by decide
  refine (shownOnce_iff (listingOf mixedEntries mixedEntries_lists) _ fun _ listed => listed).mpr
    ⟨show ∀ entry ∈ mixedEntries,¬FolderNote entry by decide,?_⟩
  rintro entry member ⟨above,there,collapsed⟩
  rw [inside entry member above there collapsed]
  exact @Covered.top _ _ _ "lone".toList (by decide)
    (show besideOf "lone".toList ∉ mixedEntries.map VaultFileEntry.path by decide)
    (show "lone".toList ∈ ["docs.md".toList,"lone".toList] by decide)

def indexedEntries : List VaultFileEntry :=
  [⟨"docs".toList,.directory⟩,⟨"docs/index.md".toList,.file⟩]

theorem indexedEntries_lists : Lists indexedEntries := by decide

def deepEntries : List VaultFileEntry :=
  [⟨"docs".toList,.directory⟩,⟨"docs/sub".toList,.directory⟩,⟨"docs/sub/x.md".toList,.file⟩]

theorem deepEntries_lists : Lists deepEntries := by decide

theorem deepEntries_uncovered :
    ¬Covered (deepEntries.map VaultFileEntry.path) (allBut deepEntries ["docs/sub".toList])
      "docs/sub/x.md".toList := by
  have alone : ∀ folder ∈ "docs/sub/x.md".toList :: ancestors "docs/sub/x.md".toList,
      besideOf folder ∉ deepEntries.map VaultFileEntry.path := by decide
  intro covered
  cases covered with
  | outside inside beside => exact alone _ (List.mem_cons.mpr inside) beside
  | note inside noteOf => exact alone _ (List.mem_cons.mpr inside) noteOf.listed.1
  | top first _ collapsed =>
    have same : ancestors "docs/sub/x.md".toList = ["docs".toList,"docs/sub".toList] := by decide
    rw [same] at first
    have outer := Option.some.inj first
    subst outer
    exact absurd collapsed (show ¬"docs".toList ∈ ["docs/sub".toList] by decide)

/-- A folder note and its folder own each other; and a row two folders deep stays when the inner
folder is collapsed. -/
theorem not_shownOnce : ¬ShownOnce indexedEntries (allBut indexedEntries []) ∧
    ¬ShownOnce deepEntries (allBut deepEntries ["docs/sub".toList]) := by
  constructor
  · intro once
    exact @free_of_shownOnce _ (listingOf indexedEntries indexedEntries_lists) _ once
      ⟨"docs/index.md".toList,.file⟩
      (show ⟨"docs/index.md".toList,.file⟩ ∈ indexedEntries by decide) (by decide)
  · intro once
    have covered := @covered_of_shownOnce _ (listingOf deepEntries deepEntries_lists) _
      (fun _ listed => listed) once "docs/sub/x.md".toList
      (show "docs/sub/x.md".toList ∈ deepEntries.map VaultFileEntry.path by decide)
      ⟨"docs/sub".toList,by decide,show "docs/sub".toList ∈ ["docs/sub".toList] by decide⟩
    exact deepEntries_uncovered covered

end Example

end LocalBook.Workspace.Hierarchy
