import LocalBook.Vault.PathSafety

/-! Attachment names: an untrusted display name becomes one safe path segment, made
unique among the names already in the directory. -/
namespace LocalBook.Vault

open Effect

def maxBasenameBytes : Nat := 255

def defaultAttachmentBasename : Text := "attachment".toList

def digestSuffixLength : Nat := 6

def maxDedupAttempts : Nat := 1000

/-- `_CONTROL_RE`. -/
def isControl (c : Char) : Bool := c.toNat ≤ 0x1f || (0x7f ≤ c.toNat && c.toNat ≤ 0x9f)

def dangerousChars : List Char :=
  [47,92,58,42,63,34,60,62,124,37,35,36,64,33,96,39,123,125,91,93,40,41,94,38,43,61,59,44,126].map
    Char.ofNat

def windowsReserved : List Text :=
  ["CON","PRN","AUX","NUL","COM1","COM2","COM3","COM4","COM5","COM6","COM7","COM8","COM9",
    "LPT1","LPT2","LPT3","LPT4","LPT5","LPT6","LPT7","LPT8","LPT9"].map String.toList

def isDigit (c : Char) : Bool := '0' ≤ c && c ≤ '9'

def isAlphanumeric (c : Char) : Bool := isDigit c || isLetter c

/-- `_SAFE_EXTENSION_RE.fullmatch`. -/
def isSafeExtension : Text → Bool
  | '.' :: first :: rest => isAlphanumeric first && rest.length ≤ 31 &&
      rest.all fun c => isAlphanumeric c || c == '.' || c == '_' || c == '-'
  | _ => false

def backslash : Char := Char.ofNat 92

/-- The longest prefix of whole characters within `limit` UTF-8 bytes. -/
def truncateUtf8 (limit : Nat) : Text → Text
  | [] => []
  | c :: rest => if c.utf8Size ≤ limit then c :: truncateUtf8 (limit - c.utf8Size) rest else []

def foldRuns (inRun : Char → Bool) : Bool → Text → Text
  | _, [] => []
  | open', c :: rest =>
    if inRun c then if open' then foldRuns inRun true rest else '-' :: foldRuns inRun true rest
    else c :: foldRuns inRun false rest

/-- `text.split(".")[0]`. -/
def stem (t : Text) : Text := t.takeWhile fun c => c != '.'

variable [Host]

/-- `_clean_base`. -/
def cleanBase (raw : Text) : Text :=
  let text := (Host.nfc raw).filter fun c => !isControl c
  let text := text.map fun c => if c ∈ dangerousChars then '-' else c
  let text := foldRuns Text.isSpace false text
  let text := Text.lstripBy (fun c => c == '.' || c == '-') text
  let text := Text.rstripBy (fun c => c == '.' || c == '-' || c == ' ') text
  let text := foldRuns (fun c => c == '-') false text
  let text := Text.stripBy (fun c => c == '-') text
  if text = [] then []
  else if Host.upper (stem text) ∈ windowsReserved then '_' :: text
  else text

def lastDot (t : Text) : Option Nat :=
  let after := (t.reverse.takeWhile fun c => c != '.').length
  if after + 1 < t.length then some (t.length - after - 1) else none

/-- `_split_extension`. -/
def splitExtension (raw : Text) : Text × Text :=
  let text := (Host.nfc raw).filter fun c => !isControl c
  let text := text.map fun c => if c = backslash ∨ c = '/' then '-' else c
  if Host.upper (Text.strip (stem text)) ∈ windowsReserved then (text,[])
  else match lastDot text with
    | none => (text,[])
    | some index =>
      if isSafeExtension (text.drop index) then (text.take index,text.drop index) else (text,[])

/-- `clean_attachment_basename`. -/
def cleanAttachmentBasename (originalName : Text) : Text :=
  let raw := Text.strip originalName
  if raw = [] then defaultAttachmentBasename
  else
    let raw := raw.map fun c => if c = backslash then '/' else c
    let (base,extension) := splitExtension ((Text.split '/' raw).getLastD [])
    let extension := Host.nfc extension
    let extension := if isSafeExtension extension then extension else []
    let long := Text.utf8Length extension ≥ maxBasenameBytes
    let cleaned := if long then cleanBase (base ++ extension) else cleanBase base
    let extension := if long then [] else extension
    let budget := maxBasenameBytes - Text.utf8Length extension
    let cleaned := Text.rstripBy (fun c => c == '.' || c == '-') (truncateUtf8 budget cleaned)
    let cleaned :=
      if cleaned = [] then truncateUtf8 budget defaultAttachmentBasename else cleaned
    let name := cleaned ++ extension
    if name = ['.'] ∨ name = ['.','.'] then defaultAttachmentBasename else name

/-- `_with_suffix`. -/
def withSuffix (basename suffix : Text) : Text :=
  let (base,extension) := splitExtension basename
  let base := if extension = [] then basename else base
  let budget := max 1 (maxBasenameBytes - Text.utf8Length extension - Text.utf8Length suffix)
  let trimmed := Text.rstripBy (fun c => c == '.' || c == '-') (truncateUtf8 budget base)
  let trimmed :=
    if trimmed = [] then
      let fallback := truncateUtf8 budget defaultAttachmentBasename
      if fallback = [] then ['a'] else fallback
    else trimmed
  trimmed ++ suffix ++ extension

omit [Host] in
/-- `normalize_target_directory`. -/
def normalizeTargetDirectory (targetDirectory : Text) : Except Exc Text :=
  if targetDirectory = [] ∨ targetDirectory = ['.'] then .ok []
  else match validateRelativePath targetDirectory false with
    | .error reason => .error reason
    | .ok relative =>
      if isReservedDerivedPath relative then
        .error (invalidRequest "The .localnote directory is reserved" relative)
      else if (Text.split '/' relative).any fun segment => segment.head? = some '.' then
        .error (invalidRequest "Hidden directories are not writable" relative)
      else .ok relative

omit [Host] in
/-- `join_attachment_path`. -/
def joinAttachmentPath (targetDirectory basename : Text) : Except Exc Text :=
  let relative :=
    if targetDirectory = [] then basename else targetDirectory ++ '/' :: basename
  if Text.utf8Length relative > maxRelativePathBytes then
    .error (invalidRequest "Attachment path is too long"
      (if targetDirectory = [] then none else some targetDirectory))
  else .ok relative

omit [Host] in
def existingBasename (value : Text) : Text :=
  (Text.split '/' (value.map fun c => if c = backslash then '/' else c)).getLastD []

omit [Host] in
def decimal (n : Nat) : Text := (Nat.repr n).toList

/-- `safe_attachment_name` without a content digest. -/
def safeAttachmentName (originalName targetDirectory : Text) (existingNames : List Text) :
    Except Exc Text := do
  let directory ← normalizeTargetDirectory targetDirectory
  let basename := cleanAttachmentBasename originalName
  let taken := existingNames.map existingBasename
  if basename ∉ taken then joinAttachmentPath directory basename
  else
    let candidates := (List.range maxDedupAttempts).map fun i =>
      withSuffix basename ('-' :: decimal (i + 2))
    match candidates.find? fun candidate => candidate ∉ taken with
    | some candidate => joinAttachmentPath directory candidate
    | none => .error (invalidRequest "No available attachment name"
        (if directory = [] then none else some directory))

section Names

omit [Host]

theorem mem_of_mem_rstripBy {drop : Char → Bool} {t : Text} {c : Char}
    (found : c ∈ Text.rstripBy drop t) : c ∈ t := by
  have kept := List.mem_reverse.mp found
  exact List.mem_reverse.mp ((List.dropWhile_sublist _).subset kept)

theorem mem_of_mem_lstripBy {drop : Char → Bool} {t : Text} {c : Char}
    (found : c ∈ Text.lstripBy drop t) : c ∈ t := (List.dropWhile_sublist _).subset found

theorem mem_of_mem_stripBy {drop : Char → Bool} {t : Text} {c : Char}
    (found : c ∈ Text.stripBy drop t) : c ∈ t :=
  mem_of_mem_lstripBy (mem_of_mem_rstripBy found)

theorem mem_of_mem_truncateUtf8 {limit : Nat} {t : Text} {c : Char}
    (found : c ∈ truncateUtf8 limit t) : c ∈ t := by
  induction t generalizing limit with
  | nil => exact found
  | cons first rest ih =>
    unfold truncateUtf8 at found
    split at found
    · rcases List.mem_cons.mp found with same | later
      · exact List.mem_cons.mpr (.inl same)
      · exact List.mem_cons.mpr (.inr (ih later))
    · simp at found

theorem mem_of_mem_foldRuns {inRun : Char → Bool} {started : Bool} {t : Text} {c : Char}
    (found : c ∈ foldRuns inRun started t) : c = '-' ∨ c ∈ t := by
  induction t generalizing started with
  | nil => simp [foldRuns] at found
  | cons first rest ih =>
    unfold foldRuns at found
    split at found
    · split at found
      · exact (ih found).imp_right (List.mem_cons_of_mem _)
      · rcases List.mem_cons.mp found with same | later
        · exact .inl same
        · exact (ih later).imp_right (List.mem_cons_of_mem _)
    · rcases List.mem_cons.mp found with same | later
      · exact .inr (List.mem_cons.mpr (.inl same))
      · exact (ih later).imp_right (List.mem_cons_of_mem _)

theorem safeExtension_no_slash {t : Text} (safe : isSafeExtension t = true) : '/' ∉ t := by
  unfold isSafeExtension at safe
  split at safe
  · simp only [Bool.and_eq_true,List.all_eq_true] at safe
    obtain ⟨⟨firstSafe,_⟩,restSafe⟩ := safe
    intro found
    rcases List.mem_cons.mp found with same | found
    · simp at same
    · rcases List.mem_cons.mp found with rfl | later
      · revert firstSafe
        decide
      · have bad := restSafe _ later
        revert bad
        decide
  · simp at safe

end Names

theorem cleanBase_no_slash (raw : Text) : '/' ∉ cleanBase raw := by
  have dashed : '/' ∉ ((Host.nfc raw).filter fun c => !isControl c).map
      fun c => if c ∈ dangerousChars then '-' else c := by
    intro found
    obtain ⟨c,_,same⟩ := List.mem_map.mp found
    split at same
    · simp at same
    · next safe =>
      subst same
      exact safe (by decide)
  have through : ∀ t : Text, '/' ∉ t → '/' ∉ foldRuns Text.isSpace false t := by
    intro t clean found
    rcases mem_of_mem_foldRuns found with same | there
    · simp at same
    · exact clean there
  unfold cleanBase
  dsimp only
  split
  · simp
  · have body : '/' ∉ Text.stripBy (fun c => c == '-') (foldRuns (fun c => c == '-') false
        (Text.rstripBy (fun c => c == '.' || c == '-' || c == ' ')
          (Text.lstripBy (fun c => c == '.' || c == '-') (foldRuns Text.isSpace false
            (((Host.nfc raw).filter fun c => !isControl c).map
              fun c => if c ∈ dangerousChars then '-' else c))))) := by
      intro found
      rcases mem_of_mem_foldRuns (mem_of_mem_stripBy found) with same | there
      · simp at same
      · exact through _ dashed (mem_of_mem_lstripBy (mem_of_mem_rstripBy there))
    split
    · intro found
      rcases List.mem_cons.mp found with same | there
      · simp at same
      · exact body there
    · exact body

theorem splitExtension_no_slash (raw : Text) :
    '/' ∉ (splitExtension raw).1 ∧ '/' ∉ (splitExtension raw).2 := by
  have clean : '/' ∉ ((Host.nfc raw).filter fun c => !isControl c).map
      fun c => if c = backslash ∨ c = '/' then '-' else c := by
    intro found
    obtain ⟨c,_,same⟩ := List.mem_map.mp found
    split at same
    · simp at same
    · next other =>
      subst same
      exact other (.inr rfl)
  unfold splitExtension
  dsimp only
  split
  · exact ⟨clean,by simp⟩
  · split
    · exact ⟨clean,by simp⟩
    · split
      · exact ⟨fun found => clean (List.mem_of_mem_take found),
          fun found => clean (List.mem_of_mem_drop found)⟩
      · exact ⟨clean,by simp⟩

/-- One segment of a path, and not the one that means the directory itself. -/
structure SafeName (name : Text) : Prop where
  segment : '/' ∉ name
  nonempty : name ≠ []
  other : name ≠ ['.']

omit [Host] in
theorem safeName_default : SafeName defaultAttachmentBasename := by
  constructor <;> decide

omit [Host] in
theorem truncate_default {budget : Nat} (room : 1 ≤ budget) :
    truncateUtf8 budget defaultAttachmentBasename ≠ [] := by
  obtain ⟨budget,rfl⟩ := Nat.exists_eq_add_of_le' room
  have first : ('a' : Char).utf8Size ≤ budget + 1 := by
    have size : ('a' : Char).utf8Size = 1 := by decide
    omega
  change truncateUtf8 (budget + 1) ('a' :: "ttachment".toList) ≠ []
  simp [truncateUtf8,first]

omit [Host] in
theorem default_no_slash (budget : Nat) :
    '/' ∉ truncateUtf8 budget defaultAttachmentBasename :=
  fun found => safeName_default.segment (mem_of_mem_truncateUtf8 found)

theorem safeName_cleanAttachmentBasename (originalName : Text) :
    SafeName (cleanAttachmentBasename originalName) := by
  unfold cleanAttachmentBasename
  dsimp only
  split
  · exact safeName_default
  · generalize splitExtension _ = parts
    obtain ⟨base,rawExtension⟩ := parts
    dsimp only
    generalize kept : (if isSafeExtension (Host.nfc rawExtension) = true then
      Host.nfc rawExtension else []) = extension
    have extensionSegment : '/' ∉ extension := by
      subst kept
      split
      · next safe => exact safeExtension_no_slash safe
      · simp
    generalize cut : (if Text.utf8Length extension ≥ maxBasenameBytes then [] else extension) =
      suffix
    have suffixSegment : '/' ∉ suffix := by
      subst cut
      split
      · simp
      · exact extensionSegment
    have room : 1 ≤ maxBasenameBytes - Text.utf8Length suffix := by
      subst cut
      split
      · decide
      · next short => omega
    generalize stripped : Text.rstripBy (fun c => c == '.' || c == '-')
      (truncateUtf8 (maxBasenameBytes - Text.utf8Length suffix)
        (if Text.utf8Length extension ≥ maxBasenameBytes then cleanBase (base ++ extension)
          else cleanBase base)) = cleaned
    have cleanedSegment : '/' ∉ cleaned := by
      subst stripped
      intro found
      have there := mem_of_mem_truncateUtf8 (mem_of_mem_rstripBy found)
      split at there
      · exact cleanBase_no_slash _ there
      · exact cleanBase_no_slash _ there
    generalize filled : (if cleaned = [] then
      truncateUtf8 (maxBasenameBytes - Text.utf8Length suffix) defaultAttachmentBasename
      else cleaned) = whole
    have wholeSegment : '/' ∉ whole := by
      subst filled
      split
      · exact default_no_slash _
      · exact cleanedSegment
    have nonempty : whole ≠ [] := by
      subst filled
      split
      · exact truncate_default room
      · next some => exact some
    split
    · exact safeName_default
    · next other =>
      rw [not_or] at other
      exact ⟨by simp [wholeSegment,suffixSegment],by simp [nonempty],other.1⟩

theorem safeName_withSuffix {basename suffix : Text} (safe : SafeName basename)
    (segment : '/' ∉ suffix) (long : 2 ≤ suffix.length) : SafeName (withSuffix basename suffix) := by
  have extensionSegment := (splitExtension_no_slash basename).2
  have baseSegment : '/' ∉ (if (splitExtension basename).2 = [] then basename
      else (splitExtension basename).1) := by
    split
    · exact safe.segment
    · exact (splitExtension_no_slash basename).1
  have size : 2 ≤ (withSuffix basename suffix).length := by
    unfold withSuffix
    simp only [List.length_append]
    omega
  refine ⟨?_,?_,?_⟩
  · unfold withSuffix
    dsimp only
    generalize (if (splitExtension basename).2 = [] then basename
      else (splitExtension basename).1) = base at baseSegment ⊢
    simp only [List.mem_append,not_or]
    refine ⟨⟨?_,segment⟩,extensionSegment⟩
    split
    · split
      · simp
      · exact default_no_slash _
    · exact fun found => baseSegment (mem_of_mem_truncateUtf8 (mem_of_mem_rstripBy found))
  · intro empty
    simp [empty] at size
  · intro dot
    simp [dot] at size

omit [Host] in
theorem decimal_no_slash (n : Nat) : '/' ∉ decimal n := by
  intro found
  have digit := Nat.isDigit_of_mem_toDigits (b := 10) (by decide) (by decide)
    (show '/' ∈ Nat.toDigits 10 n from by simpa [decimal,Nat.repr] using found)
  exact absurd digit (by decide)

/-- The chosen path is the directory and one safe name. -/
theorem safeAttachmentName_ok {originalName directory relative : Text} {taken : List Text}
    (chosen : safeAttachmentName originalName directory taken = .ok relative) :
    ∃ parent name, normalizeTargetDirectory directory = .ok parent ∧ SafeName name ∧
      relative = if parent = [] then name else parent ++ '/' :: name := by
  have joined : ∀ parent name : Text, joinAttachmentPath parent name = .ok relative →
      relative = if parent = [] then name else parent ++ '/' :: name := by
    intro parent name done
    unfold joinAttachmentPath at done
    rw [ite_error_eq_ok] at done
    exact (Except.ok.inj done.2).symm
  have basename := safeName_cleanAttachmentBasename originalName
  unfold safeAttachmentName at chosen
  cases normal : normalizeTargetDirectory directory with
  | error reason => simp [normal,bind,Except.bind] at chosen
  | ok parent =>
    simp only [normal,bind,Except.bind] at chosen
    split at chosen
    · exact ⟨parent,_,rfl,basename,joined _ _ chosen⟩
    · split at chosen
      · next candidate found =>
        have listed := List.mem_of_find?_eq_some found
        obtain ⟨i,_,rfl⟩ := List.mem_map.mp listed
        refine ⟨parent,_,rfl,safeName_withSuffix basename ?_ ?_,joined _ _ chosen⟩
        · simpa using decimal_no_slash (i + 2)
        · have digits : decimal (i + 2) ≠ [] := by simp [decimal]
          have positive := List.length_pos_of_ne_nil digits
          simp only [List.length_cons]
          omega
      · simp at chosen

omit [Host] in
/-- A normalised directory is the root or a valid path, and normalising keeps it. -/
theorem normalizeTargetDirectory_ok {targetDirectory directory : Text}
    (normal : normalizeTargetDirectory targetDirectory = .ok directory) :
    (directory = [] ∨ Canonical directory) ∧ normalizeTargetDirectory directory = .ok directory := by
  have given := normal
  unfold normalizeTargetDirectory at normal
  split at normal
  · obtain rfl := Except.ok.inj normal
    exact ⟨.inl rfl,rfl⟩
  · split at normal
    · simp at normal
    · next relative valid =>
      simp only [ite_error_eq_ok] at normal
      obtain ⟨canonical,rfl⟩ := validate_iff.mp valid
      obtain rfl := Except.ok.inj normal.2.2
      exact ⟨.inr canonical,given⟩

end LocalBook.Vault
