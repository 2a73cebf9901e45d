import LocalBook.Text

/-! Paths with slashes, as `posixpath` takes them apart and puts them together: directory and base
name, joining, normal form and the relative path from one directory to a file. -/
namespace LocalBook.Posix

def dot : Text := ['.']

def dotDot : Text := ['.','.']

/-- `path[: path.rfind("/") + 1]`. -/
def head (path : Text) : Text := (path.reverse.dropWhile (· ≠ '/')).reverse

def basename (path : Text) : Text := (path.reverse.takeWhile (· ≠ '/')).reverse

def dirname (path : Text) : Text :=
  if (head path).all (· = '/') then head path else Text.rstripBy (· = '/') (head path)

def join (base path : Text) : Text :=
  if Text.startsWith path ['/'] then path
  else if base = [] ∨ Text.endsWith base ['/'] then base ++ path
  else base ++ '/' :: path

/-- One round of `normpath`. -/
def step (rooted : Bool) (comps : List Text) (comp : Text) : List Text :=
  if comp = [] ∨ comp = dot then comps
  else if comp ≠ dotDot ∨ (!rooted ∧ comps = []) ∨ comps.getLast? = some dotDot then comps ++ [comp]
  else comps.dropLast

def slashes (path : Text) : Nat :=
  if !Text.startsWith path ['/'] then 0
  else if Text.startsWith path ['/','/'] ∧ !Text.startsWith path ['/','/','/'] then 2
  else 1

def normpath (path : Text) : Text :=
  if path = [] then dot
  else
    let comps := (Text.split '/' path).foldl (step (slashes path ≠ 0)) []
    let whole := List.replicate (slashes path) '/' ++ Text.join ['/'] comps
    if whole = [] then dot else whole

def components (path : Text) : List Text := (Text.split '/' path).filter (· ≠ [])

/-- The steps from one directory to another place: up from it, and down again. -/
def relative : List Text → List Text → List Text
  | a :: start,b :: path =>
    if a = b then relative start path
    else List.replicate (start.length + 1) dotDot ++ b :: path
  | start,path => List.replicate start.length dotDot ++ path

/-- `relpath(path, start)` of two relative paths. -/
def relpath (path start : Text) : Text :=
  let steps := relative (components start) (components path)
  if steps = [] then dot else Text.join ['/'] steps

/-! ### Components -/

/-- A component that names something, and not the directory itself or the one above. -/
structure Named (comp : Text) : Prop where
  some_ : comp ≠ []
  notDot : comp ≠ dot
  notDotDot : comp ≠ dotDot
  whole : '/' ∉ comp

/-- The path consists of names. -/
def Plain (path : Text) : Prop := ∀ comp ∈ Text.split '/' path,Named comp

instance (comp : Text) : Decidable (Named comp) :=
  decidable_of_iff (comp ≠ [] ∧ comp ≠ dot ∧ comp ≠ dotDot ∧ '/' ∉ comp)
    ⟨fun ⟨a,b,c,d⟩ => ⟨a,b,c,d⟩,fun ⟨a,b,c,d⟩ => ⟨a,b,c,d⟩⟩

instance (path : Text) : Decidable (Plain path) := by
  unfold Plain
  infer_instance

theorem step_named (rooted : Bool) (comps : List Text) {comp : Text} (named : Named comp) :
    step rooted comps comp = comps ++ [comp] := by
  simp [step,named.some_,named.notDot,named.notDotDot]

theorem foldl_named (rooted : Bool) (comps names : List Text) (named : ∀ comp ∈ names,Named comp) :
    names.foldl (step rooted) comps = comps ++ names := by
  induction names generalizing comps with
  | nil => simp
  | cons comp rest ih =>
    have behind := fun other member => named other (List.mem_cons_of_mem comp member)
    rw [List.foldl_cons,step_named rooted comps (named comp List.mem_cons_self),ih _ behind]
    simp

theorem foldl_up (rooted : Bool) (comps names : List Text) (named : ∀ comp ∈ names,Named comp) :
    (List.replicate names.length dotDot).foldl (step rooted) (comps ++ names) = comps := by
  induction names using List.reverseRecOn with
  | nil => simp
  | append_singleton names comp ih =>
    have last := named comp (by simp)
    have before := fun other member => named other (List.mem_append_left _ member)
    have popped : step rooted (comps ++ (names ++ [comp])) dotDot = comps ++ names := by
      have up : dotDot ≠ [] ∧ dotDot ≠ dot := by decide
      have kept : (comps ++ (names ++ [comp])).getLast? = some comp := by
        rw [← List.append_assoc,List.getLast?_append]
        rfl
      have other : some comp ≠ some dotDot := fun same => last.notDotDot (Option.some.inj same)
      rw [step,if_neg (by simp [up]),if_neg (by simp [kept,last.notDotDot])]
      simp [← List.append_assoc]
    rw [List.length_append,List.length_singleton,List.replicate_succ,List.foldl_cons,popped,
      ih before]

/-- Two lists part after what they have in common. -/
theorem relative_spec (start path : List Text) : ∃ common behind names,
    start = common ++ behind ∧ path = common ++ names ∧
      relative start path = List.replicate behind.length dotDot ++ names := by
  fun_induction relative start path with
  | case1 start b path ih =>
    obtain ⟨common,behind,names,rfl,rfl,same⟩ := ih
    exact ⟨b :: common,behind,names,rfl,rfl,same⟩
  | case2 a start b path differs => exact ⟨[],a :: start,b :: path,rfl,rfl,rfl⟩
  | case3 start path _ => exact ⟨[],start,path,rfl,rfl,rfl⟩

/-! ### Texts and components -/

theorem split_append (a b : Text) :
    Text.split '/' (a ++ '/' :: b) = Text.split '/' a ++ Text.split '/' b :=
  List.splitOn_append_cons_self a b

theorem split_join {comps : List Text} (some_ : comps ≠ []) (whole : ∀ comp ∈ comps,'/' ∉ comp) :
    Text.split '/' (Text.join ['/'] comps) = comps := by
  exact List.splitOn_intercalate '/' whole some_

theorem Plain.components {path : Text} (plain : Plain path) :
    components path = Text.split '/' path :=
  List.filter_eq_self.mpr fun comp member => by simpa using (plain comp member).some_

/-- A character of the joined text is the separator or one of a part. -/
theorem mem_join {separator c : Char} {parts : List Text}
    (member : c ∈ Text.join [separator] parts) :
    c = separator ∨ ∃ part ∈ parts,c ∈ part := by
  induction parts with
  | nil => cases member
  | cons part rest ih =>
    cases rest with
    | nil => exact .inr ⟨part,List.mem_cons_self,by simpa [Text.join] using member⟩
    | cons next rest =>
      rw [Text.join,List.intercalate_cons_cons,List.append_assoc] at member
      rcases List.mem_append.mp member with first | later
      · exact .inr ⟨part,List.mem_cons_self,first⟩
      · rcases List.mem_append.mp later with mark | later
        · exact .inl (List.mem_singleton.mp mark)
        · rcases ih later with same | ⟨part,inside,here⟩
          · exact .inl same
          · exact .inr ⟨part,List.mem_cons_of_mem _ inside,here⟩

theorem mem_join_of_mem {separator : Text} {c : Char} {part : Text} {parts : List Text}
    (inside : part ∈ parts) (member : c ∈ part) : c ∈ Text.join separator parts := by
  induction parts with
  | nil => cases inside
  | cons first rest ih =>
    cases rest with
    | nil =>
      obtain rfl := List.mem_singleton.mp inside
      simpa [Text.join] using member
    | cons next rest =>
      rw [Text.join,List.intercalate_cons_cons,List.append_assoc]
      rcases List.mem_cons.mp inside with rfl | later
      · exact List.mem_append_left _ member
      · exact List.mem_append_right _ (List.mem_append_right _ (ih later))

theorem join_cons_cons (a b : Text) (rest : List Text) :
    Text.join ['/'] (a :: b :: rest) = a ++ '/' :: Text.join ['/'] (b :: rest) := by
  simp [Text.join]

theorem join_concat {comps : List Text} (some_ : comps ≠ []) (last : Text) :
    Text.join ['/'] (comps ++ [last]) = Text.join ['/'] comps ++ '/' :: last := by
  induction comps with
  | nil => exact absurd rfl some_
  | cons a rest ih =>
    cases rest with
    | nil => simp [Text.join]
    | cons b rest =>
      have behind := ih (List.cons_ne_nil b rest)
      rw [List.cons_append] at behind ⊢
      rw [List.cons_append,join_cons_cons,behind,join_cons_cons]
      simp

theorem dropWhile_whole {last : Text} (whole : '/' ∉ last) :
    last.reverse.dropWhile (· ≠ '/') = [] := by
  apply List.dropWhile_eq_nil_iff.mpr
  intro c member
  have ne : c ≠ '/' := fun same => whole (same ▸ List.mem_reverse.mp member)
  simpa using ne

theorem head_append {last : Text} (whole : '/' ∉ last) (path : Text) :
    head (path ++ '/' :: last) = path ++ ['/'] := by
  simp only [head,List.reverse_append,List.reverse_cons,List.append_assoc,List.dropWhile_append,
    dropWhile_whole whole]
  simp

theorem head_single {last : Text} (whole : '/' ∉ last) : head last = [] := by
  rw [head,dropWhile_whole whole]
  rfl

theorem dirname_single {last : Text} (whole : '/' ∉ last) : dirname last = [] := by
  simp [dirname,head_single whole]

/-- A joined path does not end in a slash. -/
theorem join_last {comps : List Text} (some_ : comps ≠ []) (named : ∀ comp ∈ comps,Named comp) :
    ∃ before c,Text.join ['/'] comps = before ++ [c] ∧ c ≠ '/' := by
  obtain ⟨front,last,rfl⟩ := (List.eq_nil_or_concat comps).resolve_left some_
  have final := named last (by simp)
  obtain ⟨before,c,rfl⟩ := (List.eq_nil_or_concat last).resolve_left final.some_
  have plain : c ≠ '/' := fun same => final.whole (by simp [same])
  by_cases empty : front = []
  · exact ⟨before,c,by simp [empty,Text.join],plain⟩
  · exact ⟨Text.join ['/'] front ++ '/' :: before,c,by simp [join_concat empty],plain⟩

/-- A joined path does not start with a slash. -/
theorem join_first {comps : List Text} (some_ : comps ≠ []) (named : ∀ comp ∈ comps,Named comp) :
    ∃ c behind,Text.join ['/'] comps = c :: behind ∧ c ≠ '/' := by
  obtain ⟨first,rest,rfl⟩ := List.exists_cons_of_ne_nil some_
  have begins := named first List.mem_cons_self
  obtain ⟨c,behind,rfl⟩ := List.exists_cons_of_ne_nil begins.some_
  have plain : c ≠ '/' := fun same => begins.whole (same ▸ List.mem_cons_self)
  cases rest with
  | nil => exact ⟨c,behind,by simp [Text.join],plain⟩
  | cons b rest => exact ⟨c,_,by rw [join_cons_cons,List.cons_append],plain⟩

theorem dirname_concat {comps : List Text} (some_ : comps ≠ [])
    (named : ∀ comp ∈ comps,Named comp) {last : Text} (whole : '/' ∉ last) :
    dirname (Text.join ['/'] (comps ++ [last])) = Text.join ['/'] comps := by
  obtain ⟨before,c,shape,plain⟩ := join_last some_ named
  rw [join_concat some_,dirname,head_append whole,shape]
  simp [plain,Text.rstripBy]

end LocalBook.Posix
