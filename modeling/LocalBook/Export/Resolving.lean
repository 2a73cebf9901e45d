import LocalBook.Decimal
import LocalBook.Percent
import LocalBook.Posix

/-! How an export resolves the references of a note: against the files of the Vault, relative to
the note, and for wikilinks Vault-wide and by base name. -/
namespace LocalBook.Export

/-- The visible files of a Vault with their sizes. The paths consist of names. -/
structure Listing where
  files : List (Text × Nat)
  plain : ∀ file ∈ files,Posix.Plain file.1

namespace Listing

def paths (listing : Listing) : List Text := listing.files.map Prod.fst

theorem plain_of_mem (listing : Listing) {path : Text} (listed : path ∈ listing.paths) :
    Posix.Plain path := by
  obtain ⟨file,inside,rfl⟩ := List.mem_map.mp listed
  exact listing.plain file inside

end Listing

inductive Kind where
  | image
  | link
  | embed
  | wikilink
  | html
deriving DecidableEq

/-- `_SCHEME_RE.match`. -/
def hasScheme (target : Text) : Bool :=
  match target with
  | [] => false
  | first :: rest => first.isAlpha &&
      (rest.dropWhile fun c => c.isAlphanum || c = '+' || c = '.' || c = '-').head? = some ':'

/-- `_is_external`. -/
def isExternal (target : Text) : Bool := hasScheme target || Text.startsWith target ['/','/']

/-- The target of a Markdown link with this destination, as `_scan` takes it. -/
def targetOf (dest : Text) : Text :=
  if Text.startsWith dest ['<'] ∧ Text.endsWith dest ['>'] then (dest.drop 1).dropLast else dest

/-- `text.split(separator, 1)[0]`. -/
def before (separator : Char) (text : Text) : Text := text.takeWhile (· ≠ separator)

/-- What `_resolve` looks for. -/
def cleanedOf (target : Text) : Text :=
  Text.strip (before '?' (before '#' (Percent.unquote target)))

/-- `candidate.replace("\\", "/").lstrip("/")`. -/
def normalizedOf (candidate : Text) : Text :=
  Text.lstripBy (· = '/') (candidate.map fun c => if c = '\\' then '/' else c)

def Inside (normalized : Text) : Prop :=
  normalized ≠ [] ∧ normalized ≠ Posix.dot ∧ ¬['.','.','/'] <+: normalized ∧
    ¬['/','.','.','/'] <:+: normalized

instance (normalized : Text) : Decidable (Inside normalized) := by
  unfold Inside
  infer_instance

section Resolving

variable [Host] (listing : Listing)

/-- `_by_basename`. -/
def byBasename (target : Text) : Option Text :=
  let name := Host.casefold (Posix.basename (target.map fun c => if c = '\\' then '/' else c))
  if name = [] then none
  else
    match listing.paths.filter fun path => Host.casefold (Posix.basename path) = name with
    | [path] => some path
    | _ => none

omit [Host] in
def candidates (note cleaned : Text) (wikilink : Bool) : List Text :=
  if Text.startsWith cleaned ['/'] then [Text.lstripBy (· = '/') cleaned]
  else
    let base := Posix.dirname note
    let joined := if base ≠ [] then Posix.join base cleaned else cleaned
    (if wikilink then [cleaned] else []) ++ [Posix.normpath joined]

def attachmentNotFound : Text := "attachment_not_found".toList

/-- `_resolve`. -/
def resolve (note target : Text) (wikilink : Bool) : Option Text × Option Text :=
  let cleaned := cleanedOf target
  if cleaned = [] then (none,none)
  else
    let found := (candidates note cleaned wikilink).find? fun candidate =>
      Inside (normalizedOf candidate) ∧ normalizedOf candidate ∈ listing.paths
    match found with
    | some candidate => (some (normalizedOf candidate),none)
    | none =>
      match if wikilink then byBasename listing cleaned else none with
      | some path => (some path,none)
      | none => (none,some attachmentNotFound)

/-- What `prepare` makes of a reference: nothing when it leaves it alone. -/
def resolveReference (note target : Text) (kind : Kind) : Option (Option Text × Option Text) :=
  let raw := Text.strip target
  if raw = [] ∨ isExternal raw then none
  else some (resolve listing note raw (kind = .embed ∨ kind = .wikilink))

end Resolving

/-! ### Nothing outside the listing -/

section Listed

variable [Host] {listing : Listing}

theorem byBasename_listed {target path : Text} (found : byBasename listing target = some path) :
    path ∈ listing.paths := by
  simp only [byBasename] at found
  split at found
  · cases found
  · split at found
    · next other only =>
      have member := List.mem_singleton_self other
      rw [← only,Option.some.inj found] at member
      exact (List.mem_filter.mp member).1
    · cases found

theorem resolve_listed {note target path : Text} {wikilink : Bool}
    (found : (resolve listing note target wikilink).1 = some path) : path ∈ listing.paths := by
  simp only [resolve] at found
  split at found
  · cases found
  · split at found
    · next candidate there =>
      obtain rfl := Option.some.inj found
      have accepted := List.find?_some there
      simp only [decide_eq_true_eq] at accepted
      exact accepted.2
    · split at found
      · next path' there =>
        obtain rfl := Option.some.inj found
        split at there
        · exact byBasename_listed there
        · cases there
      · cases found

end Listed

/-! ### What is lost on the way -/

def dropped (c : Char) : Bool := c = '#' || c = '?' || Text.isSpace c

def weight (text : Text) : Nat := text.countP dropped

/-- The splits and the stripping of `_resolve`, behind the decoding. -/
def cut (text : Text) : Text := Text.strip (before '?' (before '#' text))

theorem weight_append (a b : Text) : weight (a ++ b) = weight a + weight b := List.countP_append

def Lighter (a b : Text) : Prop := a = b ∨ weight a < weight b

theorem Lighter.trans {a b c : Text} (first : Lighter a b) (second : Lighter b c) :
    Lighter a c := by
  rcases first with rfl | less
  · exact second
  · rcases second with rfl | less'
    · exact .inr less
    · exact .inr (less.trans less')

theorem Lighter.le {a b : Text} (lighter : Lighter a b) : weight a ≤ weight b := by
  rcases lighter with rfl | less
  · exact le_rfl
  · exact less.le

theorem Lighter.eq_of_le {a b : Text} (lighter : Lighter a b) (le : weight b ≤ weight a) :
    a = b := lighter.resolve_right fun less => absurd le (not_le.mpr less)

theorem before_lighter (separator : Char) (drops : dropped separator = true) (text : Text) :
    Lighter (before separator text) text := by
  have whole := List.takeWhile_append_dropWhile (p := fun c => decide (c ≠ separator)) (l := text)
  cases rest : text.dropWhile (· ≠ separator) with
  | nil =>
    rw [rest,List.append_nil] at whole
    exact .inl whole
  | cons c behind =>
    have stopped := List.head?_dropWhile_not (fun c => decide (c ≠ separator)) text
    rw [rest] at stopped
    have same : c = separator := by simpa using stopped
    right
    rw [rest] at whole
    have total := congrArg weight whole
    rw [weight_append] at total
    have heavy : 0 < weight (c :: behind) := by simp [weight,same,drops]
    unfold before
    omega

theorem dropWhile_lighter {drops : Char → Bool} (light : ∀ c,drops c = true → dropped c = true)
    (text : Text) : Lighter (text.dropWhile drops) text := by
  cases text with
  | nil => exact .inl rfl
  | cons c rest =>
    by_cases lost : drops c = true
    · right
      have less : weight (rest.dropWhile drops) ≤ weight rest :=
        (List.dropWhile_sublist drops).countP_le
      simp only [weight,List.dropWhile_cons,lost,if_true,List.countP_cons,light c lost] at less ⊢
      omega
    · exact .inl (by simp [lost])

theorem space_dropped (c : Char) (space : Text.isSpace c = true) : dropped c = true := by
  simp [dropped,space]

theorem lstrip_lighter (text : Text) : Lighter (Text.lstripBy Text.isSpace text) text :=
  dropWhile_lighter space_dropped text

theorem rstrip_lighter (text : Text) : Lighter (Text.rstripBy Text.isSpace text) text := by
  rcases dropWhile_lighter space_dropped text.reverse with same | less
  · exact .inl (by rw [Text.rstripBy,same,List.reverse_reverse])
  · right
    simpa [weight,Text.rstripBy] using less

theorem strip_lighter (text : Text) : Lighter (Text.strip text) text :=
  (rstrip_lighter _).trans (lstrip_lighter text)

theorem before_eq_iff (separator : Char) (text : Text) :
    before separator text = text ↔ separator ∉ text := by
  rw [before,List.takeWhile_eq_self_iff]
  constructor
  · intro kept member
    simpa using kept separator member
  · intro absent c member
    have ne : c ≠ separator := fun same => absent (same ▸ member)
    simpa using ne

theorem cut_lighter (text : Text) : Lighter (cut text) text :=
  (strip_lighter _).trans ((before_lighter '?' (by decide) _).trans
    (before_lighter '#' (by decide) text))

/-- What is left alone has no separator and no space around it. -/
theorem cut_eq_iff (text : Text) :
    cut text = text ↔ '#' ∉ text ∧ '?' ∉ text ∧ Text.strip text = text := by
  constructor
  · intro kept
    have fragment := before_lighter '#' (by decide) text
    have query := before_lighter '?' (by decide) (before '#' text)
    have stripped := strip_lighter (before '?' (before '#' text))
    have whole : weight (Text.strip (before '?' (before '#' text))) = weight text :=
      congrArg weight kept
    have first := fragment.eq_of_le (by have := query.le; have := stripped.le; omega)
    rw [first] at query stripped whole
    have second := query.eq_of_le (by have := stripped.le; omega)
    rw [second] at stripped whole
    exact ⟨(before_eq_iff '#' text).mp first,(before_eq_iff '?' text).mp second,
      stripped.eq_of_le whole.ge⟩
  · rintro ⟨first,second,third⟩
    rw [cut,(before_eq_iff '#' text).mpr first,(before_eq_iff '?' text).mpr second,third]

theorem weight_join (comps : List Text) :
    weight (Text.join ['/'] comps) = (comps.map weight).sum := by
  induction comps with
  | nil => rfl
  | cons a rest ih =>
    cases rest with
    | nil => simp [Text.join]
    | cons b rest =>
      rw [Posix.join_cons_cons,weight_append,List.map_cons,List.sum_cons,← ih]
      have slash : weight ('/' :: Text.join ['/'] (b :: rest)) =
          weight (Text.join ['/'] (b :: rest)) := by
        simp [weight,show dropped '/' = false from by decide]
      rw [slash]

theorem weight_split (text : Text) : ((Text.split '/' text).map weight).sum = weight text := by
  rw [← weight_join,Text.join_split]

theorem weight_slashes (text : Text) : weight (Text.lstripBy (· = '/') text) = weight text := by
  unfold Text.lstripBy
  induction text with
  | nil => rfl
  | cons c rest ih =>
    by_cases slash : c = '/'
    · subst slash
      simpa [weight,List.countP_cons,show dropped '/' = false from by decide] using ih
    · simp [slash]

theorem weight_normalizedOf (candidate : Text) :
    weight (normalizedOf candidate) = weight candidate := by
  rw [normalizedOf,weight_slashes,weight,List.countP_map]
  apply List.countP_congr
  intro c _
  by_cases back : c = '\\'
  · subst back
    decide
  · simp [back]

theorem weight_step (rooted : Bool) (new : List Text) (comp : Text) :
    ((Posix.step rooted new comp).map weight).sum ≤ (new.map weight).sum + weight comp := by
  unfold Posix.step
  split
  · omega
  · split
    · simp
    · have fewer : ((new.dropLast).map weight).sum ≤ (new.map weight).sum :=
        ((List.dropLast_sublist new).map weight).sum_le_sum (fun _ _ => Nat.zero_le _)
      omega

theorem weight_foldl (rooted : Bool) (comps new : List Text) :
    ((comps.foldl (Posix.step rooted) new).map weight).sum ≤
      (new.map weight).sum + (comps.map weight).sum := by
  induction comps generalizing new with
  | nil => simp
  | cons comp rest ih =>
    have behind := ih (Posix.step rooted new comp)
    have here := weight_step rooted new comp
    simp only [List.foldl_cons,List.map_cons,List.sum_cons]
    omega

/-! ### The reference to a file -/

def candidateOf (note cleaned : Text) : Text :=
  if Text.startsWith cleaned ['/'] then Text.lstripBy (· = '/') cleaned
  else
    let base := Posix.dirname note
    Posix.normpath (if base ≠ [] then Posix.join base cleaned else cleaned)

theorem candidates_markdown (note cleaned : Text) :
    candidates note cleaned false = [candidateOf note cleaned] := by
  unfold candidates candidateOf
  split <;> simp

theorem resolve_markdown [Host] {listing : Listing} {note target path : Text} :
    (resolve listing note target false).1 = some path ↔ cleanedOf target ≠ [] ∧
      normalizedOf (candidateOf note (cleanedOf target)) = path ∧ Inside path ∧
        path ∈ listing.paths := by
  by_cases empty : cleanedOf target = []
  · simp [resolve,empty]
  · simp only [resolve,candidates_markdown,empty,if_false,List.find?_cons,List.find?_nil]
    by_cases good : Inside (normalizedOf (candidateOf note (cleanedOf target))) ∧
        normalizedOf (candidateOf note (cleanedOf target)) ∈ listing.paths
    · simp only [good,decide_true,Option.some.injEq,ne_eq,and_self]
      constructor
      · rintro rfl
        exact ⟨empty,rfl,good⟩
      · exact fun all => all.2.1
    · simp only [good,decide_false]
      constructor
      · intro found
        cases found
      · rintro ⟨_,rfl,inside⟩
        exact absurd inside good

section Placing

variable {note : Text}

structure Directory (note : Text) (dirs : List Text) : Prop where
  named : ∀ comp ∈ dirs,Posix.Named comp
  top : dirs = [] → Posix.dirname note = []
  below : dirs ≠ [] → Posix.dirname note = Text.join ['/'] dirs

theorem exists_directory (plain : Posix.Plain note) : ∃ dirs,Directory note dirs := by
  obtain ⟨dirs,name,split⟩ :=
    (List.eq_nil_or_concat (Text.split '/' note)).resolve_left (List.splitOn_ne_nil _ _)
  rw [List.concat_eq_append] at split
  unfold Posix.Plain at plain
  rw [split] at plain
  have whole : '/' ∉ name := (plain name (by simp)).whole
  have named := fun comp member => plain comp (List.mem_append_left [name] member)
  have text : note = Text.join ['/'] (dirs ++ [name]) := by rw [← split,Text.join_split]
  refine ⟨dirs,named,fun top => ?_,fun below => ?_⟩
  · rw [text,top]
    simpa [Text.join] using Posix.dirname_single whole
  · rw [text]
    exact Posix.dirname_concat below named whole

namespace Directory

variable {dirs : List Text} (directory : Directory note dirs)

include directory

theorem components_eq : Posix.components (Posix.dirname note) = dirs := by
  by_cases top : dirs = []
  · rw [directory.top top,top]
    rfl
  · rw [directory.below top,Posix.components,Posix.split_join top fun comp member =>
      (directory.named comp member).whole]
    apply List.filter_eq_self.mpr
    intro comp member
    simpa using (directory.named comp member).some_

theorem normpath_joined {cleaned : Text} (some_ : cleaned ≠ [])
    (inner : Text.startsWith cleaned ['/'] = false) :
    let comps := (Text.split '/' cleaned).foldl (Posix.step false) dirs
    candidateOf note cleaned =
      if Text.join ['/'] comps = [] then Posix.dot else Text.join ['/'] comps := by
  by_cases top : dirs = []
  · have flat : Posix.slashes cleaned = 0 := by simp [Posix.slashes,inner]
    simp [candidateOf,inner,directory.top top,Posix.normpath,some_,flat,top]
  · obtain ⟨before,c,ends,last⟩ := Posix.join_last top directory.named
    obtain ⟨d,behind,begins,first⟩ := Posix.join_first top directory.named
    have base : Text.join ['/'] dirs ≠ [] := by simp [begins]
    have open_ : Text.endsWith (Text.join ['/'] dirs) ['/'] = false := by
      have other : ('/' == c) = false := by simpa using Ne.symm last
      rw [ends]
      simp [Text.endsWith,List.isSuffixOf,List.isPrefixOf,other]
    have joined : Posix.join (Text.join ['/'] dirs) cleaned =
        Text.join ['/'] dirs ++ '/' :: cleaned := by
      simp [Posix.join,inner,base,open_]
    have flat : Posix.slashes (Text.join ['/'] dirs ++ '/' :: cleaned) = 0 := by
      have other : ('/' == d) = false := by simpa using Ne.symm first
      simp [Posix.slashes,begins,Text.startsWith,List.isPrefixOf,other]
    have comps : Text.split '/' (Text.join ['/'] dirs ++ '/' :: cleaned) =
        dirs ++ Text.split '/' cleaned := by
      rw [Posix.split_append,Posix.split_join top fun comp member =>
        (directory.named comp member).whole]
    simp only [candidateOf,inner,directory.below top,base,joined,Posix.normpath,flat,comps,
      List.foldl_append,ne_eq,not_false_eq_true,if_true,Bool.false_eq_true,if_false,
      not_true_eq_false,decide_false,List.replicate_zero,List.nil_append]
    rw [Posix.foldl_named false [] dirs directory.named]
    simp [begins]

end Directory

end Placing

def upsText (n : Nat) : Text := (List.replicate n ['.','.','/']).flatten

theorem split_ups (n : Nat) (rest : Text) : Text.split '/' (upsText n ++ rest) =
    List.replicate n Posix.dotDot ++ Text.split '/' rest := by
  induction n with
  | zero => simp [upsText]
  | succ n ih =>
    have shape : upsText (n + 1) ++ rest = Posix.dotDot ++ '/' :: (upsText n ++ rest) := by
      simp [upsText,List.replicate_succ,Posix.dotDot]
    rw [shape,Posix.split_append,ih]
    rfl

theorem join_ups (n : Nat) {names : List Text} (some_ : names ≠ []) :
    Text.join ['/'] (List.replicate n Posix.dotDot ++ names) =
      upsText n ++ Text.join ['/'] names := by
  induction n with
  | zero => simp [upsText]
  | succ n ih =>
    obtain ⟨a,rest,shape⟩ := List.exists_cons_of_ne_nil
      (List.append_ne_nil_of_right_ne_nil (List.replicate n Posix.dotDot) some_)
    rw [List.replicate_succ,List.cons_append,shape,Posix.join_cons_cons,← shape,ih]
    simp [upsText,List.replicate_succ,Posix.dotDot]

theorem weight_ups (n : Nat) : weight (upsText n) = 0 := by
  induction n with
  | zero => rfl
  | succ n ih =>
    have shape : upsText (n + 1) = ['.','.','/'] ++ upsText n := by
      simp [upsText,List.replicate_succ]
    rw [shape,weight_append,ih]
    decide

theorem before_ups (separator : Char) (drops : dropped separator = true) (n : Nat) (rest : Text) :
    before separator (upsText n ++ rest) = upsText n ++ before separator rest := by
  have light : ∀ c ∈ upsText n,c ≠ separator := by
    intro c member same
    have none_ := weight_ups n
    rw [weight,List.countP_eq_zero] at none_
    exact none_ c member (same ▸ drops)
  exact List.takeWhile_append_of_pos fun c member => by simpa using light c member

theorem rstrip_ups (n : Nat) (rest : Text) :
    Text.rstripBy Text.isSpace (upsText (n + 1) ++ rest) =
      upsText (n + 1) ++ Text.rstripBy Text.isSpace rest := by
  have last : upsText (n + 1) = upsText n ++ ['.','.','/'] := by
    simp [upsText,List.replicate_succ',List.flatten_append]
  have stays : (upsText (n + 1)).reverse.dropWhile Text.isSpace = (upsText (n + 1)).reverse := by
    simp [last,show Text.isSpace '/' = false from by decide]
  rw [Text.rstripBy,List.reverse_append,List.dropWhile_append,stays,Text.rstripBy]
  split
  · next gone => simp [List.isEmpty_iff.mp gone]
  · simp

theorem cut_ups (n : Nat) (rest : Text) : ∃ kept,cut (upsText n ++ rest) = upsText n ++ kept := by
  cases n with
  | zero => exact ⟨cut rest,by simp [upsText]⟩
  | succ n =>
    refine ⟨Text.rstripBy Text.isSpace (before '?' (before '#' rest)),?_⟩
    have first : Text.lstripBy Text.isSpace (upsText (n + 1) ++ before '?' (before '#' rest)) =
        upsText (n + 1) ++ before '?' (before '#' rest) := by
      simp [upsText,List.replicate_succ,Text.lstripBy,show Text.isSpace '.' = false from by decide]
    rw [cut,before_ups '#' (by decide),before_ups '?' (by decide),Text.strip,Text.stripBy,first,
      rstrip_ups]

/-! ### The way to a file and back -/

/-- A file, as it is reached from a note: the names both have in common, those of the note's
directory behind them and those of the file. -/
structure Reached (note path : Text) (common behind names : List Text) : Prop where
  directory : Directory note (common ++ behind)
  path_eq : Text.split '/' path = common ++ names
  rel_eq : Posix.relpath path (Posix.dirname note) =
    if List.replicate behind.length Posix.dotDot ++ names = [] then Posix.dot
    else Text.join ['/'] (List.replicate behind.length Posix.dotDot ++ names)
  named : ∀ comp ∈ common ++ names,Posix.Named comp

theorem exists_reached {note path : Text} (ofNote : Posix.Plain note) (plain : Posix.Plain path) :
    ∃ common behind names,Reached note path common behind names := by
  obtain ⟨dirs,directory⟩ := exists_directory ofNote
  obtain ⟨common,behind,names,start,there,steps⟩ :=
    Posix.relative_spec dirs (Text.split '/' path)
  refine ⟨common,behind,names,start ▸ directory,there,?_,?_⟩
  · rw [Posix.relpath,directory.components_eq,plain.components,steps]
  · intro comp member
    exact plain comp (there ▸ member)

theorem inside_plain {path : Text} (plain : Posix.Plain path) : Inside path := by
  refine ⟨?_,?_,?_,?_⟩
  · rintro rfl
    exact (plain [] (by simp [Text.split])).some_ rfl
  · rintro rfl
    exact (plain Posix.dot (by decide)).notDot rfl
  · rintro ⟨rest,rfl⟩
    have shape : ['.','.','/'] ++ rest = Posix.dotDot ++ '/' :: rest := rfl
    unfold Posix.Plain at plain
    rw [shape,Posix.split_append] at plain
    exact (plain Posix.dotDot (List.mem_append_left _ (by decide))).notDotDot rfl
  · rintro ⟨front,rest,rfl⟩
    have shape : front ++ ['/','.','.','/'] ++ rest =
        front ++ '/' :: (Posix.dotDot ++ '/' :: rest) := by simp [Posix.dotDot]
    unfold Posix.Plain at plain
    rw [shape,Posix.split_append,Posix.split_append] at plain
    have member : Posix.dotDot ∈ Text.split '/' Posix.dotDot := by decide
    exact (plain Posix.dotDot (List.mem_append_right _ (List.mem_append_left _ member))).notDotDot
      rfl

theorem normalizedOf_clear (candidate : Text) : '\\' ∉ normalizedOf candidate := by
  intro member
  have kept := (List.dropWhile_sublist (fun c => decide (c = '/'))).subset member
  obtain ⟨c,_,same⟩ := List.mem_map.mp kept
  split at same
  · cases same
  · next other => exact other same

theorem normalizedOf_eq {path : Text} (plain : Posix.Plain path) (clear : '\\' ∉ path) :
    normalizedOf path = path := by
  have same : (path.map fun c => if c = '\\' then '/' else c) = path := by
    have kept : ∀ c ∈ path,(if c = '\\' then '/' else c) = c := by
      intro c member
      have ne : c ≠ '\\' := fun same => clear (same ▸ member)
      simp [ne]
    rw [List.map_congr_left kept,List.map_id']
  obtain ⟨c,behind,begins,first⟩ := Posix.join_first (List.splitOn_ne_nil _ _) plain
  have shape := begins
  rw [show Text.join ['/'] (path.splitOn '/') = path from Text.join_split '/' path] at shape
  rw [normalizedOf,same,shape]
  simp [Text.lstripBy,first]

namespace Reached

variable {note path : Text} {common behind names : List Text}
  (reached : Reached note path common behind names)

include reached

theorem path_join : path = Text.join ['/'] (common ++ names) := by
  rw [← reached.path_eq,Text.join_split]

theorem weight_path : weight path = (common.map weight).sum + (names.map weight).sum := by
  rw [← weight_split,reached.path_eq,List.map_append,List.sum_append]

theorem rel_below (some_ : names ≠ []) : Posix.relpath path (Posix.dirname note) =
    upsText behind.length ++ Text.join ['/'] names := by
  rw [reached.rel_eq,if_neg (List.append_ne_nil_of_right_ne_nil _ some_),join_ups _ some_]

theorem weight_rel : weight (Posix.relpath path (Posix.dirname note)) =
    (names.map weight).sum := by
  rw [reached.rel_eq]
  split
  · next none_ =>
    rw [(List.append_eq_nil_iff.mp none_).2]
    decide
  · rw [weight_join,List.map_append,List.sum_append,List.map_replicate]
    simp [show weight Posix.dotDot = 0 from by decide]

/-- Any text behind the steps up leads on from what both have in common. -/
theorem candidateOf_below {kept : Text} (some_ : upsText behind.length ++ kept ≠ [])
    (inner : Text.startsWith (upsText behind.length ++ kept) ['/'] = false) :
    let comps := (Text.split '/' kept).foldl (Posix.step false) common
    candidateOf note (upsText behind.length ++ kept) =
      if Text.join ['/'] comps = [] then Posix.dot else Text.join ['/'] comps := by
  have up := Posix.foldl_up false common behind fun comp member =>
    reached.directory.named comp (List.mem_append_right common member)
  rw [reached.directory.normpath_joined some_ inner,split_ups,List.foldl_append,up]

theorem candidateOf_lighter
    (lost : cut (Posix.relpath path (Posix.dirname note)) ≠
      Posix.relpath path (Posix.dirname note))
    (some_ : cut (Posix.relpath path (Posix.dirname note)) ≠ []) :
    weight (candidateOf note (cut (Posix.relpath path (Posix.dirname note)))) < weight path := by
  have less := (cut_lighter (Posix.relpath path (Posix.dirname note))).resolve_left lost
  rw [reached.weight_rel] at less
  have below : names ≠ [] := by
    rintro rfl
    simp at less
  rw [reached.rel_below below] at less some_ ⊢
  obtain ⟨kept,shape⟩ := cut_ups behind.length (Text.join ['/'] names)
  rw [shape] at less some_ ⊢
  have rest : weight kept < (names.map weight).sum := by
    rwa [weight_append,weight_ups,Nat.zero_add] at less
  have whole := reached.weight_path
  by_cases inner : Text.startsWith (upsText behind.length ++ kept) ['/'] = true
  · rw [candidateOf,if_pos inner,weight_slashes]
    omega
  · have comps := weight_foldl false (Text.split '/' kept) common
    rw [weight_split] at comps
    rw [reached.candidateOf_below some_ (Bool.eq_false_iff.mpr inner)]
    split
    · have none_ : weight Posix.dot = 0 := by decide
      omega
    · rw [weight_join]
      omega

theorem rel_inner : Posix.relpath path (Posix.dirname note) ≠ [] ∧
    Text.startsWith (Posix.relpath path (Posix.dirname note)) ['/'] = false := by
  rw [reached.rel_eq]
  split
  · decide
  · next some_ =>
    cases behind with
    | nil =>
      have below : names ≠ [] := by simpa using some_
      obtain ⟨c,rest,begins,first⟩ := Posix.join_first below fun comp member =>
        reached.named comp (List.mem_append_right common member)
      have other : ('/' == c) = false := by simpa using Ne.symm first
      simp [begins,Text.startsWith,List.isPrefixOf,other]
    | cons comp behind =>
      rw [List.length_cons,List.replicate_succ,List.cons_append]
      cases List.replicate behind.length Posix.dotDot ++ names with
      | nil => decide
      | cons a rest =>
        rw [Posix.join_cons_cons]
        simp [Posix.dotDot,Text.startsWith,List.isPrefixOf]

theorem foldl_rel : (Text.split '/' (Posix.relpath path (Posix.dirname note))).foldl
    (Posix.step false) (common ++ behind) = common ++ names := by
  rw [reached.rel_eq]
  split
  · next none_ =>
    obtain ⟨up,rfl⟩ := List.append_eq_nil_iff.mp none_
    have same : behind = [] := by simpa using up
    rw [same,show Text.split '/' Posix.dot = [Posix.dot] from by decide]
    simp [Posix.step]
  · next some_ =>
    have whole : ∀ comp ∈ List.replicate behind.length Posix.dotDot ++ names,'/' ∉ comp := by
      intro comp member
      rcases List.mem_append.mp member with up | below
      · rw [(List.mem_replicate.mp up).2]
        decide
      · exact (reached.named comp (List.mem_append_right common below)).whole
    rw [Posix.split_join some_ whole,List.foldl_append,
      Posix.foldl_up false common behind fun comp member =>
        reached.directory.named comp (List.mem_append_right common member),
      Posix.foldl_named false common names fun comp member =>
        reached.named comp (List.mem_append_right common member)]

theorem candidateOf_rel : candidateOf note (Posix.relpath path (Posix.dirname note)) = path := by
  have some_ : path ≠ [] := by
    intro empty
    have listed := reached.path_eq
    rw [empty,show Text.split '/' [] = [[]] from by decide] at listed
    exact (reached.named [] (listed ▸ List.mem_singleton_self [])).some_ rfl
  rw [reached.directory.normpath_joined reached.rel_inner.1 reached.rel_inner.2,
    reached.foldl_rel,← reached.path_join,if_neg some_]

end Reached

/-! ### What is resolved -/

structure Spelled (path rel : Text) : Prop where
  fragment : '#' ∉ rel
  query : '?' ∉ rel
  strip_eq : Text.strip rel = rel
  clear : '\\' ∉ path

instance (path rel : Text) : Decidable (Spelled path rel) :=
  decidable_of_iff ('#' ∉ rel ∧ '?' ∉ rel ∧ Text.strip rel = rel ∧ '\\' ∉ path)
    ⟨fun ⟨a,b,c,d⟩ => ⟨a,b,c,d⟩,fun ⟨a,b,c,d⟩ => ⟨a,b,c,d⟩⟩

theorem resolve_iff [Host] {listing : Listing} {note path target : Text}
    (ofNote : note ∈ listing.paths) (listed : path ∈ listing.paths)
    (encodes : Percent.unquote target = Posix.relpath path (Posix.dirname note)) :
    (resolve listing note target false).1 = some path ↔
      Spelled path (Posix.relpath path (Posix.dirname note)) := by
  have plain := listing.plain_of_mem listed
  obtain ⟨common,behind,names,reached⟩ := exists_reached (listing.plain_of_mem ofNote) plain
  have cleaned : cleanedOf target = cut (Posix.relpath path (Posix.dirname note)) := by
    rw [cleanedOf,encodes,cut]
  rw [resolve_markdown,cleaned]
  constructor
  · rintro ⟨some_,same,_,_⟩
    have clear : '\\' ∉ path := same ▸ normalizedOf_clear _
    have kept : cut (Posix.relpath path (Posix.dirname note)) =
        Posix.relpath path (Posix.dirname note) := by
      by_contra lost
      have less := reached.candidateOf_lighter lost some_
      rw [← weight_normalizedOf,same] at less
      exact lt_irrefl _ less
    obtain ⟨fragment,query,stripped⟩ := (cut_eq_iff _).mp kept
    exact ⟨fragment,query,stripped,clear⟩
  · rintro ⟨fragment,query,stripped,clear⟩
    rw [(cut_eq_iff _).mpr ⟨fragment,query,stripped⟩,reached.candidateOf_rel]
    exact ⟨reached.rel_inner.1,normalizedOf_eq plain clear,
      inside_plain plain,listed⟩

/-! ### The destination in the note -/

def destinations (target : Text) : List Text := [target,'<' :: target ++ ['>']]

theorem targetOf_quote {rel dest : Text} (spells : dest ∈ destinations (Percent.quote rel)) :
    targetOf dest = Percent.quote rel := by
  rcases List.mem_pair.mp spells with rfl | rfl
  · have no : Text.startsWith (Percent.quote rel) ['<'] = false := by
      cases quoted : Percent.quote rel with
      | nil => rfl
      | cons c rest =>
        have fine : Percent.isQuoted c = true :=
          Percent.isQuoted_of_mem (quoted ▸ List.mem_cons_self)
        have other : c ≠ '<' := by
          rintro rfl
          exact absurd fine (by decide)
        simpa [Text.startsWith,List.isPrefixOf] using other.symm
    simp [targetOf,no]
  · simp [targetOf,Text.startsWith,Text.endsWith,List.isSuffixOf,List.isPrefixOf]

theorem quoted_solid : ∀ n < 128,Percent.isQuoted (Char.ofNat n) = true →
    Text.isSpace (Char.ofNat n) = false := by
  decide +kernel

theorem strip_quote (rel : Text) : Text.strip (Percent.quote rel) = Percent.quote rel := by
  apply Decimal.strip_of_no_space
  intro c member
  have small : c.toNat < 128 := by
    have ascii := Percent.quote_ascii rel c member
    simp only [Text.isAscii,decide_eq_true_eq,UInt32.lt_iff_toNat_lt] at ascii
    exact ascii
  have fine := Percent.isQuoted_of_mem member
  rw [← Char.ofNat_toNat c] at fine ⊢
  exact quoted_solid c.toNat small fine

theorem isExternal_quote {rel : Text} (inner : Text.startsWith rel ['/'] = false) :
    isExternal (Percent.quote rel) = false := by
  have free : ':' ∉ Percent.quote rel := fun member =>
    absurd (Percent.isQuoted_of_mem member) (by decide)
  cases quoted : Percent.quote rel with
  | nil => rfl
  | cons c rest =>
    rw [quoted] at free
    have scheme : hasScheme (c :: rest) = false := by
      have apart : (rest.dropWhile fun c => c.isAlphanum || c = '+' || c = '.' || c = '-').head? ≠
          some ':' := by
        intro first
        exact free (List.mem_cons_of_mem c
          ((List.dropWhile_sublist _).subset (List.mem_of_head? first)))
      simp [hasScheme,apart]
    have relative : Text.startsWith (c :: rest) ['/','/'] = false := by
      have other : c ≠ '/' := by
        rintro rfl
        obtain ⟨behind,rfl⟩ := Percent.head_of_quote quoted
        cases inner
      simp [Text.startsWith,List.isPrefixOf,other.symm]
    simp [isExternal,scheme,relative]

theorem quote_ne_nil {rel : Text} (some_ : rel ≠ []) : Percent.quote rel ≠ [] := by
  intro empty
  have back := Percent.unquote_quote rel
  rw [empty,show Percent.unquote [] = [] from by simp [Percent.unquote]] at back
  exact some_ back.symm

theorem resolveReference_quote [Host] (listing : Listing) (note : Text) {rel : Text} {kind : Kind}
    (some_ : rel ≠ []) (inner : Text.startsWith rel ['/'] = false)
    (markdown : kind ∈ [Kind.link,.image]) :
    resolveReference listing note (Percent.quote rel) kind =
      some (resolve listing note (Percent.quote rel) false) := by
  have plain : ¬(kind = .embed ∨ kind = .wikilink) := by
    rcases List.mem_pair.mp markdown with rfl | rfl <;> simp
  rw [resolveReference,strip_quote,if_neg (by simp [quote_ne_nil some_,isExternal_quote inner]),
    decide_eq_false plain]

/-- A Markdown link or image to a file is resolved to the file iff its relative path has no number
sign, no question mark and no space around it and its path no backslash; and no reference at all is
resolved to anything but a file of the listing. -/
theorem resolves_iff [Host] (listing : Listing) {note path : Text} (ofNote : note ∈ listing.paths)
    (listed : path ∈ listing.paths) :
    let rel := Posix.relpath path (Posix.dirname note)
    (∀ kind ∈ [Kind.link,.image],∀ dest ∈ destinations (Percent.quote rel),
      (resolveReference listing note (targetOf dest) kind).map Prod.fst = some (some path) ↔
        Spelled path rel) ∧
    ∀ target kind found,
      (resolveReference listing note target kind).map Prod.fst = some (some found) →
        found ∈ listing.paths := by
  intro rel
  constructor
  · intro kind spelled dest spells
    have plain := listing.plain_of_mem listed
    obtain ⟨common,behind,names,reached⟩ := exists_reached (listing.plain_of_mem ofNote) plain
    rw [targetOf_quote spells,resolveReference_quote listing note reached.rel_inner.1
      reached.rel_inner.2 spelled,Option.map_some,Option.some.injEq]
    exact resolve_iff ofNote listed (Percent.unquote_quote _)
  · intro target kind found there
    simp only [resolveReference] at there
    split at there
    · cases there
    · exact resolve_listed (Option.some.inj there)

section Example

open scoped AsciiHost

def aNote : Text := "notes/a.md".toList

def aPicture : Text := "img/p q.png".toList

def hashed : Text := "notes/a#b.png".toList

def cutOff : Text := "notes/a".toList

def someFiles : List (Text × Nat) := [(aNote,10),(aPicture,20),(hashed,30),(cutOff,40)]

theorem someFiles_plain : ∀ file ∈ someFiles,Posix.Plain file.1 := by decide

def someListing : Listing := ⟨someFiles,someFiles_plain⟩

theorem aPicture_rel : Posix.relpath aPicture (Posix.dirname aNote) =
    "../img/p q.png".toList := by decide

theorem aPicture_resolves :
    (resolveReference someListing aNote
      (targetOf ('<' :: Percent.quote "../img/p q.png".toList ++ ['>'])) .image).map Prod.fst =
        some (some aPicture) := by
  have all := @resolves_iff _ someListing aNote aPicture (by decide) (by decide)
  rw [aPicture_rel] at all
  exact (all.1 .image (by decide) _ (List.mem_cons_of_mem _ List.mem_cons_self)).mpr (by decide)

theorem hashed_resolve (target : Text)
    (encodes : Percent.unquote target = Posix.relpath hashed (Posix.dirname aNote)) :
    (resolve someListing aNote target false).1 = some cutOff := by
  have cleaned : cleanedOf target = cut (Posix.relpath hashed (Posix.dirname aNote)) := by
    rw [cleanedOf,encodes,cut]
  rw [resolve_markdown,cleaned]
  decide

theorem hashed_differs : ¬∀ (listing : Listing) (note path : Text),note ∈ listing.paths →
    path ∈ listing.paths → ∀ kind ∈ [Kind.link,.image],
      ∀ dest ∈ destinations (Percent.quote (Posix.relpath path (Posix.dirname note))),
        (resolveReference listing note (targetOf dest) kind).map Prod.fst = some (some path) := by
  intro every
  have found := every someListing aNote hashed (by decide) (by decide) .link (by decide)
    (Percent.quote (Posix.relpath hashed (Posix.dirname aNote))) List.mem_cons_self
  rw [targetOf_quote List.mem_cons_self,resolveReference_quote someListing aNote (by decide)
    (by decide) (by decide),Option.map_some,
    hashed_resolve _ (Percent.unquote_quote _)] at found
  exact absurd (Option.some.inj (Option.some.inj found)) (by decide)

end Example

end LocalBook.Export
