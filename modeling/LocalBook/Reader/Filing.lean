import LocalBook.Reader.Importing

/-! Where an imported session is filed. Its title is cut by characters and keeps a leading dot,
while a path is bounded in bytes and a segment with a leading dot is hidden. -/
namespace LocalBook.Reader

open Vault

variable {formats : Formats} {data : SessionData} {title : Text}

structure Numbered (part : Text) : Prop where
  nonempty : part ≠ []
  short : part.length ≤ 4
  digits : ∀ c ∈ part,isDigit c = true

structure Dated (formats : Formats) : Prop where
  year : ∀ instant date,formats.yearMonth instant = .ok date → Numbered date.1
  month : ∀ instant date,formats.yearMonth instant = .ok date → Numbered date.2

theorem Numbered.free {part : Text} (numbered : Numbered part) {c : Char}
    (other : isDigit c = false) : c ∉ part := by
  intro found
  simp [numbered.digits c found] at other

theorem Numbered.bytes {part : Text} (numbered : Numbered part) : Text.utf8Length part ≤ 16 := by
  have each : Text.utf8Length part ≤ part.length * 4 := by
    rw [Text.utf8Length,← List.length_map Char.utf8Size]
    exact List.sum_le_card_nsmul _ _ (by simpa using fun c _ => Char.utf8Size_le_four c)
  have short := numbered.short
  omega

theorem Numbered.visible {part : Text} (numbered : Numbered part) : part.head? ≠ some '.' := by
  intro dotted
  exact numbered.free (by decide) (List.mem_of_mem_head? dotted)

section Sanitizing

theorem mem_collapse {text : Text} {c : Char} (found : c ∈ collapse text) :
    c = ' ' ∨ c ∈ text := by
  induction text with
  | nil => simp [collapse] at found
  | cons first rest ih =>
    have later : c ∈ collapse rest → c = ' ' ∨ c ∈ first :: rest := by
      intro there
      exact (ih there).imp_right (List.mem_cons_of_mem _)
    rw [collapse] at found
    split at found
    · split at found
      · exact .inl (by simpa using found)
      · next next others same =>
        rw [same] at later
        split at found
        · exact later found
        · rcases List.mem_cons.mp found with blank | there
          · exact .inl blank
          · exact later there
    · rcases List.mem_cons.mp found with rfl | there
      · exact .inr List.mem_cons_self
      · exact later there

theorem mem_strip {text : Text} {c : Char} (found : c ∈ Text.strip text) : c ∈ text := by
  have inner := (List.dropWhile_suffix _).mem (List.mem_reverse.mp found)
  exact (List.dropWhile_suffix _).mem (List.mem_reverse.mp inner)

theorem safe_of_mem_sanitize {c : Char} (found : c ∈ sanitizeFilename title) :
    unsafeInName c = false := by
  have kept : ∀ c ∈ Text.strip (collapse (title.filter fun c => !unsafeInName c)),
      unsafeInName c = false := by
    intro c there
    rcases mem_collapse (mem_strip there) with rfl | there
    · decide
    · simpa using (List.mem_filter.mp there).2
  generalize stripped : Text.strip (collapse (title.filter fun c => !unsafeInName c)) = safe at kept
  have short : ∀ c ∈ (if 200 < safe.length then Text.rstripBy Text.isSpace (safe.take 200)
      else safe),unsafeInName c = false := by
    intro c there
    split at there
    · have inner := (List.dropWhile_suffix _).mem (List.mem_reverse.mp there)
      exact kept c (List.mem_of_mem_take (List.mem_reverse.mp inner))
    · exact kept c there
  rw [sanitizeFilename,stripped] at found
  generalize (if 200 < safe.length then Text.rstripBy Text.isSpace (safe.take 200) else safe) =
    cut at short found
  have plain : ∀ c ∈ ['U','n','t','i','t','l','e','d'],unsafeInName c = false := by simp [unsafeInName]
  cases cut with
  | nil => exact plain c found
  | cons first rest => exact short c found

theorem sanitize_nonempty (title : Text) : sanitizeFilename title ≠ [] := by
  rw [sanitizeFilename]
  generalize (if 200 < _ then Text.rstripBy _ _ else _) = short
  cases short with
  | nil => simp
  | cons first rest => simp

end Sanitizing

def noteName (title : Text) : Text := sanitizeFilename title ++ ".md".toList

theorem noteName_free {c : Char} (found : unsafeInName c = true) : c ∉ noteName title := by
  intro there
  rcases List.mem_append.mp there with inside | ending
  · simp [safe_of_mem_sanitize inside] at found
  · have plain : ∀ c ∈ ['.','m','d'],unsafeInName c = false := by simp [unsafeInName]
    simp [plain c ending] at found

theorem noteName_bytes : Text.utf8Length (noteName title) =
    Text.utf8Length (sanitizeFilename title) + 3 := by
  rw [noteName,Text.utf8Length,List.map_append,List.sum_append]
  rfl

theorem noteName_head : (noteName title).head? = (sanitizeFilename title).head? :=
  List.head?_append_of_ne_nil _ (sanitize_nonempty title)

/-- The year and month a session is filed under. -/
def calendar (formats : Formats) (data : SessionData) : Except String (Text × Text) :=
  formats.yearMonth (Value.present (some data.session.startedAt))

/-- The note has a path the vault accepts, of segments that fit and are visible. -/
def Filed (formats : Formats) (data : SessionData) : Prop :=
  ∃ path, generatePath formats data = .ok path ∧ validateRelativePath path false = .ok path ∧
    ∀ segment ∈ Text.split '/' path,
      Text.utf8Length segment ≤ maxSegmentBytes ∧ segment.head? ≠ some '.'

theorem generated_iff {path : Text} : generatePath formats data = .ok path ↔
    ∃ date title, calendar formats data = .ok date ∧ (sourceTitle data).text? = some title ∧
      path = "Reading".toList ++ '/' :: date.1 ++ '/' :: date.2 ++ '/' :: noteName title := by
  rw [generatePath,calendar]
  cases formats.yearMonth (Value.present (some data.session.startedAt)) with
  | error kind => simp
  | ok date =>
    cases (sourceTitle data).text? with
    | none => simp
    | some title => simp [noteName,eq_comm]

section Dated

variable {date : Text × Text} (dated : Dated formats) (told : calendar formats data = .ok date)

include dated told

theorem split_generated (title : Text) :
    Text.split '/' ("Reading".toList ++ '/' :: date.1 ++ '/' :: date.2 ++ '/' :: noteName title) =
      ["Reading".toList,date.1,date.2,noteName title] := by
  have free : '/' ∉ noteName title := noteName_free (by decide +kernel)
  have year : '/' ∉ date.1 := (dated.year _ _ told).free (by decide)
  have month : '/' ∉ date.2 := (dated.month _ _ told).free (by decide)
  have top : Text.split '/' "Reading".toList = ["Reading".toList] := by decide
  rw [split_last_slash _ free,split_last_slash _ month,split_last_slash _ year,top]
  rfl

theorem fits_generated (short : Text.utf8Length (noteName title) ≤ maxSegmentBytes)
    (visible : (noteName title).head? ≠ some '.') {segment : Text}
    (found : segment ∈ ["Reading".toList,date.1,date.2,noteName title]) :
    segment ≠ [] ∧ Text.utf8Length segment ≤ maxSegmentBytes ∧ segment.head? ≠ some '.' := by
  have numbered : ∀ part,Numbered part → part ≠ [] ∧ Text.utf8Length part ≤ maxSegmentBytes ∧
      part.head? ≠ some '.' := by
    intro part numbered
    exact ⟨numbered.nonempty,numbered.bytes.trans (by decide),numbered.visible⟩
  simp only [List.mem_cons,List.not_mem_nil,or_false] at found
  rcases found with rfl | rfl | rfl | rfl
  · decide
  · exact numbered _ (dated.year _ _ told)
  · exact numbered _ (dated.month _ _ told)
  · exact ⟨by simp [noteName],short,visible⟩

theorem not_mem_generated {c : Char} (found : unsafeInName c = true) (other : c ≠ '/')
    (number : isDigit c = false) :
    c ∉ "Reading".toList ++ '/' :: date.1 ++ '/' :: date.2 ++ '/' :: noteName title := by
  intro there
  have base : ∀ c ∈ "Reading".toList,unsafeInName c = false := by simp [unsafeInName]
  simp only [List.mem_append,List.mem_cons] at there
  rcases there with ((there | slash | there) | slash | there) | slash | there
  · simp [base c there] at found
  · exact other slash
  · exact (dated.year _ _ told).free number there
  · exact other slash
  · exact (dated.month _ _ told).free number there
  · exact other slash
  · exact noteName_free found there

theorem canonical_generated (short : Text.utf8Length (noteName title) ≤ maxSegmentBytes)
    (visible : (noteName title).head? ≠ some '.') :
    Canonical ("Reading".toList ++ '/' :: date.1 ++ '/' :: date.2 ++ '/' :: noteName title) := by
  have parts := split_generated dated told title
  have fits : ∀ segment ∈ ["Reading".toList,date.1,date.2,noteName title],_ :=
    fun _ found => fits_generated dated told short visible found
  have year := (dated.year _ _ told).bytes
  have month := (dated.month _ _ told).bytes
  constructor
  case nul => apply not_mem_generated dated told <;> decide +kernel
  case backslash => apply not_mem_generated dated told <;> decide +kernel
  case short =>
    have top : (List.map Char.utf8Size "Reading".toList).sum = 7 := by decide
    have slash : Char.utf8Size '/' = 1 := by decide
    simp only [Text.utf8Length,maxSegmentBytes,maxRelativePathBytes] at *
    simp only [List.map_append,List.map_cons,List.sum_append,List.sum_cons,top,slash]
    omega
  case segments =>
    rw [parts]
    intro empty
    exact (fits [] empty).1 rfl
  case safe =>
    rw [segmentFault,List.findSome?_eq_none_iff,parts]
    intro segment found
    obtain ⟨_,low,seen⟩ := fits segment found
    have plain : ¬(segment = ['.'] ∨ segment = ['.','.']) := by
      rintro (rfl | rfl) <;> simp at seen
    rw [if_neg plain,if_neg (Nat.not_lt.mpr low)]
  case colon =>
    rw [parts]
    simp
  case drive => simp [hasDrivePrefix]
  all_goals simp

end Dated

/-- A session is filed exactly when it has a date, its source has a title, and what is left of
the title fits with its ending and does not start with a dot. -/
theorem filed_iff (dated : Dated formats) : Filed formats data ↔
    (∃ date,calendar formats data = .ok date) ∧ ∃ title,(sourceTitle data).text? = some title ∧
      Text.utf8Length (sanitizeFilename title) ≤ 252 ∧
      (sanitizeFilename title).head? ≠ some '.' := by
  constructor
  · rintro ⟨path,made,_,fits⟩
    obtain ⟨date,title,told,titled,rfl⟩ := generated_iff.mp made
    have last : noteName title ∈ ["Reading".toList,date.1,date.2,noteName title] := by simp
    rw [split_generated dated told] at fits
    obtain ⟨short,visible⟩ := fits _ last
    rw [noteName_bytes,maxSegmentBytes] at short
    rw [noteName_head] at visible
    exact ⟨⟨date,told⟩,title,titled,by omega,visible⟩
  · rintro ⟨⟨date,told⟩,title,titled,short,visible⟩
    have low : Text.utf8Length (noteName title) ≤ maxSegmentBytes := by
      rw [noteName_bytes,maxSegmentBytes]
      omega
    have seen : (noteName title).head? ≠ some '.' := by rwa [noteName_head]
    have valid := validate_iff.mpr ⟨canonical_generated dated told low seen,rfl⟩
    refine ⟨_,generated_iff.mpr ⟨date,title,told,titled,rfl⟩,valid,?_⟩
    rw [split_generated dated told]
    intro segment found
    exact (fits_generated dated told low seen found).2

section Example

def titledSession (title : Value) : SessionData where
  id := ['1']
  session := ⟨['1'],.int 1,.int 1700000000,.null,.null,.int 0,.int 0,.int 0⟩
  source := some ⟨.text ['w'],title,.null,.null,.null,.null,.null,.null,.null⟩
  device := none
  highlights := []
  notes := []
  conversations := []

def oneMonth : Formats where
  text _ := []
  isoformat _ := []
  minutes _ := []
  yearMonth _ := .ok (['2','0','2','3'],['1','1'])

theorem oneMonth_dated : Dated oneMonth := by
  constructor
  all_goals
    rintro instant date told
    obtain rfl := Except.ok.inj told
    constructor <;> simp [isDigit]

/-- A note is filed under its title. -/
theorem plain_filed : Filed oneMonth (titledSession (.text ['a'])) :=
  (filed_iff oneMonth_dated).mpr ⟨⟨_,rfl⟩,['a'],rfl,by decide +kernel,by decide +kernel⟩

/-- A title that starts with a dot makes a note the index does not see. -/
theorem dotted_unfiled : ¬∀ (formats : Formats) (data : SessionData),Dated formats →
    Filed formats data := by
  intro every
  have filed := every oneMonth (titledSession (.text ['.','a'])) oneMonth_dated
  have hidden : (sanitizeFilename ['.','a']).head? = some '.' := by decide +kernel
  obtain ⟨path,made,_,fits⟩ := filed
  obtain ⟨date,title,told,titled,rfl⟩ := generated_iff.mp made
  obtain rfl : ['.','a'] = title := by simpa [sourceTitle,titledSession,Value.text?] using titled
  rw [split_generated oneMonth_dated told] at fits
  have seen := (fits (noteName ['.','a']) (by simp)).2
  rw [noteName_head] at seen
  exact seen hidden

end Example

end LocalBook.Reader
