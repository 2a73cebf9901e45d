import LocalBook.Vault.Attachments

/-! What an attachment is called. A cleaned name keeps its form when it is cut and numbered, since
nothing but letters and digits is put after a cut, and since the pieces it is made of stay
normalised. -/
namespace LocalBook.Vault

/-- How canonical composition behaves: the normal form is closed under taking pieces, and a
separator takes part in no composition. -/
class Composes [Host] : Prop where
  nfc_nfc : ∀ t : Text, Host.nfc (Host.nfc t) = Host.nfc t
  nfc_infix : ∀ s t : Text, s <:+: t → Host.nfc t = t → Host.nfc s = s
  nfc_separated : ∀ (a b : Text) (c : Char), c = '-' ∨ c = '.' ∨ c = '_' → Host.nfc a = a →
    Host.nfc b = b → Host.nfc (a ++ c :: b) = a ++ c :: b
  nfc_control : ∀ t : Text, (∀ c ∈ t,isControl c = false) → ∀ c ∈ Host.nfc t,isControl c = false

section Cutting

variable {drop : Char → Bool} {t : Text} {c : Char}

theorem utf8Length_append (a b : Text) :
    Text.utf8Length (a ++ b) = Text.utf8Length a + Text.utf8Length b := by
  simp [Text.utf8Length]

theorem truncateUtf8_begins (limit : Nat) (t : Text) : truncateUtf8 limit t <+: t := by
  induction t generalizing limit with
  | nil => simp [truncateUtf8]
  | cons first rest ih =>
    rw [truncateUtf8]
    split
    · exact List.prefix_cons_inj first |>.mpr (ih _)
    · exact List.nil_prefix

theorem utf8Length_truncateUtf8 (limit : Nat) (t : Text) :
    Text.utf8Length (truncateUtf8 limit t) ≤ limit := by
  induction t generalizing limit with
  | nil => simp [truncateUtf8,Text.utf8Length]
  | cons first rest ih =>
    rw [truncateUtf8]
    split
    · next fits =>
      have later := ih (limit - first.utf8Size)
      simp only [Text.utf8Length,List.map_cons,List.sum_cons] at later ⊢
      omega
    · simp [Text.utf8Length]

theorem utf8Length_mono {s t : Text} (part : List.Sublist s t) :
    Text.utf8Length s ≤ Text.utf8Length t := (part.map _).sum_le_sum (by simp)

theorem rstripBy_begins (drop : Char → Bool) (t : Text) : Text.rstripBy drop t <+: t := by
  have suffix := List.dropWhile_suffix (l := t.reverse) drop
  simpa [Text.rstripBy] using List.reverse_prefix.mpr suffix

theorem lstripBy_suffix (drop : Char → Bool) (t : Text) : Text.lstripBy drop t <:+ t :=
  List.dropWhile_suffix drop

theorem head_lstripBy (first : (Text.lstripBy drop t).head? = some c) : drop c = false := by
  have holds := List.head?_dropWhile_not drop t
  change (t.dropWhile drop).head? = some c at first
  simpa only [first] using holds

/-- What is left does not end in a dropped character. -/
theorem last_rstripBy (last : (Text.rstripBy drop t).getLast? = some c) : drop c = false := by
  rw [Text.rstripBy,List.getLast?_reverse] at last
  exact head_lstripBy last

/-- A text that starts with a kept character is not stripped to nothing. -/
theorem rstripBy_ne_nil (first : t.head? = some c) (kept : drop c = false) :
    Text.rstripBy drop t ≠ [] := by
  obtain ⟨rest,rfl⟩ := List.head?_eq_some_iff.mp first
  intro empty
  rw [Text.rstripBy,List.reverse_eq_nil_iff,List.dropWhile_eq_nil_iff] at empty
  simpa [kept] using empty c (by simp)

theorem mem_foldRuns {started : Bool} (found : c ∈ foldRuns drop started t) :
    c = '-' ∨ c ∈ t ∧ drop c = false := by
  induction t generalizing started with
  | nil => simp [foldRuns] at found
  | cons first rest ih =>
    have later : ∀ started,c ∈ foldRuns drop started rest →
        c = '-' ∨ c ∈ first :: rest ∧ drop c = false := by
      intro started there
      exact (ih there).imp_right (And.imp_left (List.mem_cons_of_mem _))
    rw [foldRuns] at found
    split at found
    · split at found
      · exact later _ found
      · rcases List.mem_cons.mp found with same | there
        · exact .inl same
        · exact later _ there
    · next kept =>
      rcases List.mem_cons.mp found with rfl | there
      · exact .inr ⟨List.mem_cons_self,by simpa using kept⟩
      · exact later _ there

theorem head_foldRuns (drop : Char → Bool) (t : Text) : (foldRuns drop false t).head? =
    t.head?.map fun c => if drop c then '-' else c := by
  cases t with
  | nil => rfl
  | cons first rest => cases kept : drop first <;> simp [foldRuns,kept]

end Cutting

def Tame (c : Char) : Prop := isControl c = false ∧ c ∉ dangerousChars ∧ Text.isSpace c = false

/-- What a name may start with. -/
def Opens (t : Text) : Prop := ∀ c,t.head? = some c → c ≠ '.' ∧ c ≠ '-'

theorem Opens.cut {s t : Text} (opens : Opens t) (part : s <+: t) : Opens s := by
  intro c first
  obtain ⟨rest,rfl⟩ := part
  exact opens c (by simp [first])

theorem tame_dash : Tame '-' := by
  refine ⟨by decide,by decide,by decide⟩

/-- A name that can stand as one segment of a path, is not hidden, and keeps its ending. -/
structure Fit (name : Text) : Prop where
  nonempty : name ≠ []
  short : Text.utf8Length name ≤ maxBasenameBytes
  opens : Opens name
  ends : ∀ c,name.getLast? = some c → c ≠ '.' ∧ c ≠ ' '
  tame : ∀ c ∈ name,Tame c

section Cleaning

variable [Host]

/-- What `_clean_base` leaves is tame, and starts as a name may. -/
theorem cleanBase_tame (raw : Text) : (∀ c ∈ cleanBase raw,Tame c) ∧ Opens (cleanBase raw) := by
  rw [cleanBase]
  generalize same : foldRuns Text.isSpace false (((Host.nfc raw).filter fun c => !isControl c).map
    fun c => if c ∈ dangerousChars then '-' else c) = folded
  have tame : ∀ c ∈ folded,Tame c := by
    intro c found
    subst same
    rcases mem_foldRuns found with rfl | ⟨there,spaced⟩
    · exact tame_dash
    · obtain ⟨d,kept,rfl⟩ := List.mem_map.mp there
      split at spaced
      · next danger => simpa [danger] using tame_dash
      · next safe =>
        rw [if_neg safe]
        exact ⟨by simpa using (List.mem_filter.mp kept).2,safe,spaced⟩
  generalize lead : Text.rstripBy (fun c => c == '.' || c == '-' || c == ' ')
    (Text.lstripBy (fun c => c == '.' || c == '-') folded) = body
  have opens : Opens body := by
    subst lead
    apply Opens.cut _ (rstripBy_begins _ _)
    intro c first
    simpa using head_lstripBy first
  have within : ∀ c ∈ body,Tame c := by
    subst lead
    exact fun c found => tame c (mem_of_mem_lstripBy (mem_of_mem_rstripBy found))
  have clean : ∀ c ∈ Text.stripBy (fun c => c == '-') (foldRuns (fun c => c == '-') false body),
      Tame c := by
    intro c found
    rcases mem_foldRuns (mem_of_mem_stripBy found) with rfl | ⟨there,_⟩
    · exact tame_dash
    · exact within c there
  have start : Opens (Text.stripBy (fun c => c == '-')
      (foldRuns (fun c => c == '-') false body)) := by
    have folded : Opens (foldRuns (fun c => c == '-') false body) := by
      intro c first
      rw [head_foldRuns] at first
      obtain ⟨d,there,rfl⟩ := Option.map_eq_some_iff.mp first
      simpa [(opens d there).2] using opens d there
    have kept : Text.lstripBy (fun c => c == '-') (foldRuns (fun c => c == '-') false body) =
        foldRuns (fun c => c == '-') false body := by
      cases same : foldRuns (fun c => c == '-') false body with
      | nil => rfl
      | cons first rest =>
        have plain := (folded first (by simp [same])).2
        simp [Text.lstripBy,plain]
    rw [Text.stripBy,kept]
    exact folded.cut (rstripBy_begins _ _)
  split
  · simp [Opens]
  · split
    · refine ⟨?_,?_⟩
      · rintro c (_ | there)
        · exact ⟨by decide,by decide,by decide⟩
        · exact clean c (by assumption)
      · simp [Opens]
    · exact ⟨clean,start⟩

end Cleaning

section Extensions

def extensionChar (c : Char) : Bool := isAlphanumeric c || c == '.' || c == '_' || c == '-'

theorem extensionChar_ascii {c : Char} (found : extensionChar c = true) : c.toNat < 128 := by
  have below : ∀ d : Char,d.toNat < 128 → c ≤ d → c.toNat < 128 := by
    intro d small le
    exact lt_of_le_of_lt (UInt32.le_iff_toNat_le.mp (Char.le_def.mp le)) small
  simp only [extensionChar,isAlphanumeric,isDigit,isLetter,Bool.or_eq_true,Bool.and_eq_true,
    decide_eq_true_eq,beq_iff_eq] at found
  rcases found with (((digit | letter) | rfl) | rfl) | rfl
  · exact below '9' (by decide) digit.2
  · rcases letter with low | high
    · exact below 'z' (by decide) (by simpa using low.2)
    · exact below 'Z' (by decide) (by simpa using high.2)
  all_goals decide

instance (c : Char) : Decidable (Tame c) := by
  unfold Tame
  infer_instance

theorem extensionChar_tame {c : Char} (found : extensionChar c = true) : Tame c := by
  have each : ∀ n < 128,extensionChar (Char.ofNat n) = true → Tame (Char.ofNat n) := by
    decide +kernel
  have here := each c.toNat (extensionChar_ascii found)
  rw [Char.ofNat_toNat] at here
  exact here found

/-- A safe extension is a dot and up to thirty-two plain characters. -/
theorem safeExtension_chars {t : Text} (safe : isSafeExtension t = true) :
    t.head? = some '.' ∧ 2 ≤ t.length ∧ t.length ≤ 33 ∧ ∀ c ∈ t,extensionChar c = true := by
  unfold isSafeExtension at safe
  split at safe
  · next first rest =>
    simp only [Bool.and_eq_true,List.all_eq_true,decide_eq_true_eq] at safe
    obtain ⟨⟨starts,short⟩,others⟩ := safe
    refine ⟨rfl,by simp,by simp; omega,?_⟩
    intro c found
    simp only [List.mem_cons] at found
    rcases found with rfl | rfl | there
    · decide
    · simp [extensionChar,starts]
    · exact others c there
  · simp at safe

theorem utf8Length_ascii {t : Text} (ascii : ∀ c ∈ t,c.toNat < 128) :
    Text.utf8Length t = t.length := by
  have ones : t.map Char.utf8Size = t.map fun _ => 1 := by
    apply List.map_congr_left
    intro c found
    exact Char.utf8Size_eq_one_iff.mpr (UInt32.le_iff_toNat_le.mpr (Nat.le_of_lt_succ (ascii c found)))
  rw [Text.utf8Length,ones]
  simp

theorem utf8Length_extension {t : Text} (safe : isSafeExtension t = true) :
    Text.utf8Length t ≤ 33 := by
  obtain ⟨_,_,short,chars⟩ := safeExtension_chars safe
  rw [utf8Length_ascii fun c found => extensionChar_ascii (chars c found)]
  exact short

variable [Host]

theorem nfc_of_ascii {t : Text} (ascii : ∀ c ∈ t,c.toNat < 128) : Host.nfc t = t := by
  apply Host.nfc_ascii
  rw [List.all_eq_true]
  intro c found
  simpa [Text.isAscii,UInt32.lt_iff_toNat_lt] using ascii c found

theorem nfc_extension {t : Text} (safe : t = [] ∨ isSafeExtension t = true) :
    Host.nfc t = t := by
  apply nfc_of_ascii
  intro c found
  rcases safe with rfl | safe
  · simp at found
  · exact extensionChar_ascii ((safeExtension_chars safe).2.2.2 c found)

/-- What `_split_extension` shows of a name, before it is split. -/
def shown (raw : Text) : Text :=
  ((Host.nfc raw).filter fun c => !isControl c).map fun c =>
    if c = backslash ∨ c = '/' then '-' else c

omit [Host] in
theorem lastDot_some {t : Text} {i : Nat} (found : lastDot t = some i) :
    0 < i ∧ (2 ≤ (t.drop i).length → (t.drop i).getLast? ≠ some '.') := by
  unfold lastDot at found
  dsimp only at found
  split at found
  · next short =>
    obtain rfl := Option.some.inj found
    refine ⟨by omega,?_⟩
    intro two dotted
    rw [List.length_drop] at two
    rw [List.getLast?_drop,if_neg (by omega),← List.head?_reverse] at dotted
    obtain ⟨rest,same⟩ := List.head?_eq_some_iff.mp dotted
    simp [same] at two
    omega
  · simp at found

theorem splitExtension_eq (raw : Text) : splitExtension raw =
    if Host.upper (Text.strip (stem (shown raw))) ∈ windowsReserved then (shown raw,[])
    else match lastDot (shown raw) with
      | none => (shown raw,[])
      | some index =>
        if isSafeExtension ((shown raw).drop index) then
          ((shown raw).take index,(shown raw).drop index)
        else (shown raw,[]) := rfl

/-- An extension that is split off is safe, does not end in a dot and is not the whole name. -/
theorem splitExtension_parts (raw : Text) :
    (splitExtension raw).1 ++ (splitExtension raw).2 = shown raw ∧
      ((splitExtension raw).2 = [] ∨ isSafeExtension (splitExtension raw).2 = true ∧
        (splitExtension raw).2.getLast? ≠ some '.' ∧ (splitExtension raw).1 ≠ []) := by
  rw [splitExtension_eq]
  split
  · simp
  · split
    · simp
    · next index found =>
      obtain ⟨positive,last⟩ := lastDot_some found
      split
      · next safe =>
        have long := (safeExtension_chars safe).2.1
        refine ⟨List.take_append_drop _ _,.inr ⟨safe,last long,?_⟩⟩
        rw [List.length_drop] at long
        apply List.ne_nil_of_length_pos
        rw [List.length_take]
        omega
      · simp

end Extensions

section Basename

/-- A tame beginning and a safe extension within the limit make a name that fits. -/
theorem fit_append {body extension : Text} (some' : body ≠ []) (opens : Opens body)
    (tame : ∀ c ∈ body,Tame c) (ends : ∀ c,body.getLast? = some c → c ≠ '.')
    (safe : extension = [] ∨ isSafeExtension extension = true ∧ extension.getLast? ≠ some '.')
    (short : Text.utf8Length body + Text.utf8Length extension ≤ maxBasenameBytes) :
    Fit (body ++ extension) := by
  have tail : ∀ c ∈ extension,Tame c := by
    intro c found
    rcases safe with rfl | ⟨safe,_⟩
    · simp at found
    · exact extensionChar_tame ((safeExtension_chars safe).2.2.2 c found)
  have spaced : ∀ c,Tame c → c ≠ ' ' := by
    rintro c clean rfl
    exact absurd clean.2.2 (by decide)
  constructor
  case nonempty => simp [some']
  case short => rwa [utf8Length_append]
  case opens =>
    intro c first
    rw [List.head?_append_of_ne_nil _ some'] at first
    exact opens c first
  case ends =>
    intro c last
    rcases safe with rfl | ⟨safe,undotted⟩
    · rw [List.append_nil] at last
      exact ⟨ends c last,spaced c (tame c (List.mem_of_getLast? last))⟩
    · have nonempty : extension ≠ [] := by
        rintro rfl
        simp [isSafeExtension] at safe
      rw [List.getLast?_append_of_ne_nil _ nonempty] at last
      refine ⟨?_,spaced c (tail c (List.mem_of_getLast? last))⟩
      rintro rfl
      exact undotted last
  case tame =>
    intro c found
    exact (List.mem_append.mp found).elim (tame c) (tail c)

theorem default_letters : ∀ c ∈ defaultAttachmentBasename,isLetter c = true := by
  intro c found
  have spelled : defaultAttachmentBasename = ['a','t','t','a','c','h','m','e','n','t'] := by decide
  simp only [spelled,List.mem_cons,List.not_mem_nil,or_false] at found
  rcases found with rfl | rfl | rfl | rfl | rfl | rfl | rfl | rfl | rfl | rfl <;> rfl

theorem default_size : Text.utf8Length defaultAttachmentBasename = 10 := by
  decide

/-- A piece of the default name stands in for a name that is stripped to nothing. -/
theorem truncate_letters (budget : Nat) :
    ∀ c ∈ truncateUtf8 budget defaultAttachmentBasename,isLetter c = true :=
  fun c found => default_letters c (mem_of_mem_truncateUtf8 found)

theorem letter_plain {c : Char} (letter : isLetter c = true) :
    extensionChar c = true ∧ c ≠ '.' ∧ c ≠ '-' := by
  refine ⟨by simp [extensionChar,isAlphanumeric,letter],?_,?_⟩
  all_goals
    rintro rfl
    revert letter
    decide

theorem fit_default : Fit defaultAttachmentBasename := by
  rw [← List.append_nil defaultAttachmentBasename]
  apply fit_append
  · decide
  · intro c first
    exact (letter_plain (default_letters c (List.mem_of_mem_head? first))).2
  · intro c found
    exact extensionChar_tame (letter_plain (default_letters c found)).1
  · intro c last
    exact (letter_plain (default_letters c (List.mem_of_getLast? last))).2.1
  · exact .inl rfl
  · rw [default_size]
    decide

variable [Host]

/-- The parts of a cleaned name: what is left of its base, and its extension. -/
theorem clean_parts (originalName : Text) :
    cleanAttachmentBasename originalName = defaultAttachmentBasename ∨
    ∃ base body extension, cleanAttachmentBasename originalName = body ++ extension ∧
      (extension = [] ∨ isSafeExtension extension = true ∧ extension.getLast? ≠ some '.') ∧
      (∀ c ∈ base,isControl c = false) ∧
      (body = Text.rstripBy (fun c => c == '.' || c == '-')
          (truncateUtf8 (maxBasenameBytes - Text.utf8Length extension) (cleanBase base)) ∧
        body ≠ [] ∨
        body = truncateUtf8 (maxBasenameBytes - Text.utf8Length extension)
          defaultAttachmentBasename) := by
  rw [cleanAttachmentBasename]
  dsimp only
  split
  · exact .inl rfl
  · generalize (Text.split '/' ((Text.strip originalName).map
      fun c => if c = backslash then '/' else c)).getLastD [] = last
    have parts := splitExtension_parts last
    have controls : ∀ c ∈ shown last,isControl c = false := by
      intro c found
      obtain ⟨d,there,rfl⟩ := List.mem_map.mp found
      split
      · decide
      · simpa using (List.mem_filter.mp there).2
    generalize splitExtension last = split at parts
    obtain ⟨base,extension⟩ := split
    obtain ⟨whole,safe⟩ := parts
    dsimp only at whole safe ⊢
    have sound : extension = [] ∨ isSafeExtension extension = true := safe.imp_right And.left
    have kept : (if isSafeExtension (Host.nfc extension) = true then Host.nfc extension else []) =
        extension := by
      rw [nfc_extension sound]
      rcases sound with rfl | sound
      · simp
      · rw [if_pos sound]
    have short : ¬Text.utf8Length extension ≥ maxBasenameBytes := by
      rw [maxBasenameBytes]
      rcases sound with rfl | sound
      · simp [Text.utf8Length]
      · have bytes := utf8Length_extension sound
        omega
    simp only [kept,if_neg short]
    generalize made : (if Text.rstripBy _ _ = [] then _ else Text.rstripBy _ _) = body
    split
    · exact .inl rfl
    · refine .inr ⟨base,body,extension,rfl,safe.imp_right fun h => ⟨h.1,h.2.1⟩,?_,?_⟩
      · intro c found
        exact controls c (whole ▸ List.mem_append_left _ found)
      · split at made
        · exact .inr made.symm
        · next some' =>
          subst made
          exact .inl ⟨rfl,some'⟩

theorem fit_cleanAttachmentBasename (originalName : Text) :
    Fit (cleanAttachmentBasename originalName) := by
  rcases clean_parts originalName with same | ⟨base,body,extension,same,safe,_,made⟩
  · rw [same]
    exact fit_default
  · rw [same]
    have room : Text.utf8Length extension ≤ 33 := by
      rcases safe with rfl | ⟨safe,_⟩
      · simp [Text.utf8Length]
      · exact utf8Length_extension safe
    have total : Text.utf8Length body ≤ maxBasenameBytes - Text.utf8Length extension := by
      rcases made with ⟨rfl,_⟩ | rfl
      · exact (utf8Length_mono (rstripBy_begins _ _).sublist).trans (utf8Length_truncateUtf8 _ _)
      · exact utf8Length_truncateUtf8 _ _
    have short : Text.utf8Length body + Text.utf8Length extension ≤ maxBasenameBytes := by
      rw [maxBasenameBytes] at total ⊢
      omega
    rcases made with ⟨rfl,some'⟩ | rfl
    · obtain ⟨tame,opens⟩ := cleanBase_tame base
      apply fit_append some' _ _ _ safe short
      · exact opens.cut ((rstripBy_begins _ _).trans (truncateUtf8_begins _ _))
      · intro c found
        exact tame c (mem_of_mem_truncateUtf8 (mem_of_mem_rstripBy found))
      · intro c last
        simpa using (show _ ∧ _ by simpa using last_rstripBy last).1
    · have letters := truncate_letters (maxBasenameBytes - Text.utf8Length extension)
      apply fit_append _ _ _ _ safe short
      · apply truncate_default
        rw [maxBasenameBytes]
        omega
      · intro c first
        exact (letter_plain (letters c (List.mem_of_mem_head? first))).2
      · intro c found
        exact extensionChar_tame (letter_plain (letters c found)).1
      · intro c last
        exact (letter_plain (letters c (List.mem_of_getLast? last))).2.1

end Basename

section Normal

variable [Host]

def Normal (t : Text) : Prop := Host.nfc t = t

theorem normal_nil : Normal [] := nfc_of_ascii (by simp)

variable [Composes]

theorem Normal.cut {s t : Text} (normal : Normal t) (part : s <:+: t) : Normal s :=
  Composes.nfc_infix s t part normal

theorem Normal.separated {a b : Text} {c : Char} (first : Normal a) (second : Normal b)
    (separator : c = '-' ∨ c = '.' ∨ c = '_') : Normal (a ++ c :: b) :=
  Composes.nfc_separated a b c separator first second

/-- A dash in the place of a character keeps the pieces around it. -/
theorem Normal.dashed (front : Text) {t : Text} (dash : Char → Prop) [DecidablePred dash]
    (normal : Normal (front ++ t)) :
    Normal (front ++ t.map fun c => if dash c then '-' else c) := by
  induction t generalizing front with
  | nil => exact normal
  | cons c rest ih =>
    rw [List.map_cons]
    have before : Normal front := normal.cut (List.prefix_append _ _).isInfix
    have after : Normal ([] ++ rest) := normal.cut ⟨front ++ [c],[],by simp⟩
    split
    · exact before.separated (ih [] after) (.inl rfl)
    · have here := ih (front ++ [c]) (by simpa using normal)
      simpa using here

/-- So does a dash in the place of a run. -/
theorem Normal.folded (drop : Char → Bool) (front : Text) (started : Bool) {t : Text}
    (alone : started = true → front = []) (normal : Normal (front ++ t)) :
    Normal (front ++ foldRuns drop started t) := by
  induction t generalizing front started with
  | nil => simpa [foldRuns] using normal
  | cons c rest ih =>
    have before : Normal front := normal.cut (List.prefix_append _ _).isInfix
    have after : Normal ([] ++ rest) := normal.cut ⟨front ++ [c],[],by simp⟩
    have restarted : Normal ([] ++ foldRuns drop true rest) := ih [] true (fun _ => rfl) after
    rw [foldRuns]
    split
    · split
      · next run => rwa [alone run]
      · exact before.separated restarted (.inl rfl)
    · have here := ih (front ++ [c]) false (by simp) (by simpa using normal)
      simpa using here

theorem normal_cleanBase {base : Text} (controls : ∀ c ∈ base,isControl c = false) :
    Normal (cleanBase base) := by
  have composed : Normal (Host.nfc base) := Composes.nfc_nfc base
  have plain : ((Host.nfc base).filter fun c => !isControl c) = Host.nfc base := by
    apply List.filter_eq_self.mpr
    intro c found
    simp [Composes.nfc_control base controls c found]
  rw [cleanBase,plain]
  have mapped := Normal.dashed [] (fun c => c ∈ dangerousChars) composed
  have spaced := Normal.folded Text.isSpace [] false (by simp) mapped
  have stripped : Normal (Text.rstripBy (fun c => c == '.' || c == '-' || c == ' ')
      (Text.lstripBy (fun c => c == '.' || c == '-') (foldRuns Text.isSpace false
        ((Host.nfc base).map fun c => if c ∈ dangerousChars then '-' else c)))) :=
    (spaced.cut (lstripBy_suffix _ _).isInfix).cut (rstripBy_begins _ _).isInfix
  have dashes := Normal.folded (fun c => c == '-') [] false (by simp) stripped
  have final := (dashes.cut (lstripBy_suffix (fun c => c == '-') _).isInfix).cut
    (rstripBy_begins (fun c => c == '-') _).isInfix
  split
  · exact normal_nil
  · split
    · exact normal_nil.separated final (.inr (.inr rfl))
    · exact final

/-- A cleaned name is in normal form: cutting, dashing and putting an extension back keep it. -/
theorem normal_cleanAttachmentBasename (originalName : Text) :
    Normal (cleanAttachmentBasename originalName) := by
  have letters : ∀ t : Text,(∀ c ∈ t,isLetter c = true) → Normal t := by
    intro t letters
    exact nfc_of_ascii fun c found => extensionChar_ascii (letter_plain (letters c found)).1
  rcases clean_parts originalName with same | ⟨base,body,extension,same,safe,controls,made⟩
  · rw [same]
    exact letters _ default_letters
  · have front : Normal body := by
      rcases made with ⟨rfl,_⟩ | rfl
      · exact (normal_cleanBase controls).cut
          ((rstripBy_begins _ _).trans (truncateUtf8_begins _ _)).isInfix
      · exact letters _ (truncate_letters _)
    rw [same]
    rcases safe with rfl | ⟨safe,_⟩
    · rwa [List.append_nil]
    · obtain ⟨dot,_,_,chars⟩ := safeExtension_chars safe
      obtain ⟨rest,rfl⟩ := List.head?_eq_some_iff.mp dot
      apply front.separated _ (.inr (.inl rfl))
      exact nfc_of_ascii fun c found => extensionChar_ascii (chars c (List.mem_cons_of_mem _ found))

omit [Composes] in
theorem shown_of_normal {name : Text} (fit : Fit name) (normal : Normal name) :
    shown name = name := by
  rw [shown,normal]
  have plain : (name.filter fun c => !isControl c) = name := by
    apply List.filter_eq_self.mpr
    intro c found
    simp [(fit.tame c found).1]
  have kept : (name.map fun c => if c = backslash ∨ c = '/' then '-' else c) = name.map id := by
    apply List.map_congr_left
    intro c found
    have safe := (fit.tame c found).2.1
    rw [if_neg,id]
    rintro (rfl | rfl)
    all_goals exact safe (by decide)
  rw [plain,kept,List.map_id]

end Normal

section Numbering

theorem decimal_digits (n : Nat) : ∀ c ∈ decimal n,isDigit c = true := by
  intro c found
  have digit := Nat.isDigit_of_mem_toDigits (b := 10) (c := c) (by decide) (by decide)
    (by simpa [decimal,Nat.repr] using found)
  simpa [Char.isDigit,isDigit,Char.le_def] using digit

/-- A number for a further attempt takes at most four digits. -/
theorem decimal_short {i : Nat} (bounded : i < maxDedupAttempts) :
    (decimal (i + 2)).length ≤ 4 := by
  have digits := Nat.repr_length (i + 2) 4 (by decide)
  rw [maxDedupAttempts] at bounded
  rw [decimal,String.length_toList]
  exact digits (by omega)

theorem digit_extension {c : Char} (digit : isDigit c = true) : extensionChar c = true := by
  simp [extensionChar,isAlphanumeric,digit]

theorem digit_not_dot {c : Char} (digit : isDigit c = true) : c ≠ '.' := by
  rintro rfl
  revert digit
  decide

/-- What is cut from a name with room for one character keeps a piece of whole characters. -/
theorem trimmed_piece {base : Text} {budget : Nat} (opens : Opens base) (some' : base ≠ [])
    (room : 4 ≤ budget) :
    Text.rstripBy (fun c => c == '.' || c == '-') (truncateUtf8 budget base) ≠ [] ∧
      Text.rstripBy (fun c => c == '.' || c == '-') (truncateUtf8 budget base) <+: base ∧
      Text.utf8Length (Text.rstripBy (fun c => c == '.' || c == '-')
        (truncateUtf8 budget base)) ≤ budget := by
  obtain ⟨first,rest,rfl⟩ := List.exists_cons_of_ne_nil some'
  have opening := opens first rfl
  have size := Char.utf8Size_le_four first
  have leads : (truncateUtf8 budget (first :: rest)).head? = some first := by
    rw [truncateUtf8,if_pos (by omega)]
    rfl
  have less := rstripBy_begins (fun c => c == '.' || c == '-') (truncateUtf8 budget (first :: rest))
  refine ⟨rstripBy_ne_nil leads (by simpa using opening),less.trans (truncateUtf8_begins _ _),?_⟩
  exact (utf8Length_mono less.sublist).trans (utf8Length_truncateUtf8 _ _)

/-- The suffix of a further attempt. -/
theorem suffix_plain {i : Nat} (bounded : i < maxDedupAttempts) :
    Text.utf8Length ('-' :: decimal (i + 2)) ≤ 5 ∧ (∀ c ∈ '-' :: decimal (i + 2),Tame c) ∧
      ∀ c,('-' :: decimal (i + 2)).getLast? = some c → c ≠ '.' := by
  have chars : ∀ c ∈ '-' :: decimal (i + 2),extensionChar c = true ∧ c ≠ '.' := by
    intro c found
    rcases List.mem_cons.mp found with rfl | there
    · decide
    · have digit := decimal_digits _ c there
      exact ⟨digit_extension digit,digit_not_dot digit⟩
  refine ⟨?_,fun c found => extensionChar_tame (chars c found).1,
    fun c last => (chars c (List.mem_of_getLast? last)).2⟩
  rw [utf8Length_ascii fun c found => extensionChar_ascii (chars c found).1,List.length_cons]
  have short := decimal_short bounded
  omega

variable [Host]

/-- A numbered name keeps whole characters of its base, all of its extension, and fits. -/
theorem withSuffix_numbered {name : Text} {i : Nat} (fit : Fit name) (normal : Normal name)
    (bounded : i < maxDedupAttempts) :
    ∃ kept dropped extension, name = kept ++ dropped ++ extension ∧ kept ≠ [] ∧
      withSuffix name ('-' :: decimal (i + 2)) = kept ++ '-' :: decimal (i + 2) ++ extension ∧
      Fit (withSuffix name ('-' :: decimal (i + 2))) := by
  obtain ⟨whole,safe⟩ := splitExtension_parts name
  rw [shown_of_normal fit normal] at whole
  rw [withSuffix]
  generalize splitExtension name = split at whole safe ⊢
  obtain ⟨base,extension⟩ := split
  dsimp only at whole safe ⊢
  have body : (if extension = [] then name else base) = base := by
    split
    · next none' => simpa [none'] using whole.symm
    · rfl
  have some' : base ≠ [] := by
    rcases safe with rfl | ⟨_,_,some'⟩
    · rw [← whole,List.append_nil] at fit
      exact fit.nonempty
    · exact some'
  have opens : Opens base := fit.opens.cut ⟨extension,whole⟩
  have room : Text.utf8Length extension ≤ 33 := by
    rcases safe with rfl | ⟨safe,_⟩
    · simp [Text.utf8Length]
    · exact utf8Length_extension safe
  obtain ⟨numberSize,numberTame,numberEnds⟩ := suffix_plain bounded
  have numbered : '-' :: decimal (i + 2) ≠ [] := List.cons_ne_nil _ _
  generalize '-' :: decimal (i + 2) = suffix at numberSize numberTame numberEnds numbered ⊢
  have budget : max 1 (maxBasenameBytes - Text.utf8Length extension - Text.utf8Length suffix) =
      maxBasenameBytes - Text.utf8Length extension - Text.utf8Length suffix := by
    apply max_eq_right
    rw [maxBasenameBytes]
    omega
  have wide : 4 ≤ maxBasenameBytes - Text.utf8Length extension - Text.utf8Length suffix := by
    rw [maxBasenameBytes]
    omega
  obtain ⟨keeps,part,size⟩ := trimmed_piece opens some' wide
  rw [body,budget,if_neg keeps]
  generalize Text.rstripBy _ _ = kept at keeps part size ⊢
  have tame : ∀ c ∈ kept,Tame c := by
    intro c found
    apply fit.tame c
    rw [← whole]
    exact List.mem_append_left _ (part.mem found)
  have fits : Fit (kept ++ suffix ++ extension) := by
    apply fit_append _ _ _ _ (safe.imp_right fun h => ⟨h.1,h.2.1⟩)
    · rw [utf8Length_append]
      rw [maxBasenameBytes] at size ⊢
      omega
    · simp [keeps]
    · intro c first
      rw [List.head?_append_of_ne_nil _ keeps] at first
      exact opens.cut part c first
    · intro c found
      exact (List.mem_append.mp found).elim (tame c) (numberTame c)
    · intro c last
      rw [List.getLast?_append_of_ne_nil _ numbered] at last
      exact numberEnds c last
  obtain ⟨dropped,rfl⟩ := part
  exact ⟨kept,dropped,extension,whole.symm,keeps,rfl,fits⟩

end Numbering

section Landing

variable {name directory : Text}

theorem Fit.free (fit : Fit name) {c : Char} (danger : c ∈ dangerousChars) : c ∉ name :=
  fun found => (fit.tame c found).2.1 danger

theorem Fit.segment (fit : Fit name) : '/' ∉ name := fit.free (by decide)

theorem Fit.unharmed (fit : Fit name) : segmentFault [name] = none := by
  have plain : ¬(name = ['.'] ∨ name = ['.','.']) := by
    have opens := fit.opens
    rintro (rfl | rfl) <;> simp [Opens] at opens
  have short : ¬Text.utf8Length name > maxSegmentBytes := Nat.not_lt.mpr fit.short
  simp [segmentFault,plain,short]

theorem Fit.canonical (fit : Fit name) : Canonical name := by
  have split : Text.split '/' name = [name] := List.splitOn_eq_singleton fit.segment
  have nul : Char.ofNat 0 ∉ name := fun found => absurd (fit.tame _ found).1 (by decide)
  have colon := fit.free (c := ':') (by decide)
  constructor
  case nonempty => exact fit.nonempty
  case nul => exact nul
  case backslash => exact fit.free (by decide)
  case relative => exact fun first => fit.segment (List.mem_of_mem_head? first)
  case drive =>
    rw [hasDrivePrefix.eq_def]
    split
    · next second _ =>
      have other : second ≠ ':' := by
        rintro rfl
        simp at colon
      simp [other]
    · rfl
  case device => exact fun first => fit.free (by decide) (List.mem_of_mem_head? first)
  case short => exact fit.short.trans (by decide)
  case segments => simpa [split] using fit.nonempty.symm
  case safe => rw [split,fit.unharmed]
  case colon =>
    rw [split]
    exact fun second => colon (List.mem_of_getElem? second)

/-- A name that fits stands in any valid directory whose path leaves room for it. -/
theorem Canonical.child (canonical : Canonical directory) (fit : Fit name)
    (short : Text.utf8Length (directory ++ '/' :: name) ≤ maxRelativePathBytes) :
    Canonical (directory ++ '/' :: name) := by
  have split := split_last_slash directory fit.segment
  have alone := fit.canonical
  have some' := canonical.nonempty
  constructor
  case nonempty => simp
  case nul => simpa [alone.nul] using canonical.nul
  case backslash => simpa [alone.backslash] using canonical.backslash
  case relative =>
    rw [List.head?_append_of_ne_nil _ some']
    exact canonical.relative
  case drive =>
    have drive := canonical.drive
    match directory with
    | [first] => simp [hasDrivePrefix]
    | first :: second :: rest => simpa [hasDrivePrefix] using drive
  case device =>
    rw [List.head?_append_of_ne_nil _ some']
    exact canonical.device
  case short => exact short
  case segments =>
    rw [split]
    simpa [fit.nonempty.symm] using canonical.segments
  case safe =>
    have inner := canonical.safe
    have last := fit.unharmed
    rw [segmentFault] at inner last ⊢
    rw [split,List.findSome?_append,inner,last]
    rfl
  case colon =>
    have parts : Text.split '/' directory ≠ [] := List.splitOn_ne_nil _ _
    rw [split,List.head?_append_of_ne_nil _ parts]
    exact canonical.colon

def inDirectory (directory name : Text) : Text :=
  if directory = [] then name else directory ++ '/' :: name

theorem joinAttachmentPath_eq (directory name : Text) : joinAttachmentPath directory name =
    if Text.utf8Length (inDirectory directory name) > maxRelativePathBytes then
      .error (invalidRequest "Attachment path is too long"
        (if directory = [] then none else some directory))
    else .ok (inDirectory directory name) := rfl

theorem canonical_inDirectory (valid : directory = [] ∨ Canonical directory) (fit : Fit name)
    (short : ¬Text.utf8Length (inDirectory directory name) > maxRelativePathBytes) :
    Canonical (inDirectory directory name) := by
  rw [inDirectory] at short ⊢
  split at short
  · next root =>
    rw [if_pos root]
    exact fit.canonical
  · next inner =>
    rw [if_neg inner]
    exact (valid.resolve_left inner).child fit (Nat.not_lt.mp short)

/-- A name that keeps a cleaned one, or a beginning of whole characters of it and its extension
around a number. -/
def Shortens (basename name : Text) : Prop :=
  name = basename ∨ ∃ kept dropped extension n, basename = kept ++ dropped ++ extension ∧
    kept ≠ [] ∧ name = kept ++ '-' :: decimal n ++ extension

variable [Host]

/-- Where an attachment lands. -/
def Lands (originalName directory : Text) (existingNames : List Text) (relative : Text) : Prop :=
  ∃ name, relative = inDirectory directory name ∧ Fit name ∧
    name ∉ existingNames.map existingBasename ∧ validateRelativePath relative false = .ok relative ∧
    Shortens (cleanAttachmentBasename originalName) name

/-- Nothing is chosen when the directory leaves no room, or every attempt is taken. -/
def Unplaceable (originalName directory : Text) (existingNames : List Text) : Prop :=
  (∃ name,Fit name ∧ Text.utf8Length (inDirectory directory name) > maxRelativePathBytes) ∨
    cleanAttachmentBasename originalName ∈ existingNames.map existingBasename ∧
      ∀ i < maxDedupAttempts,withSuffix (cleanAttachmentBasename originalName)
        ('-' :: decimal (i + 2)) ∈ existingNames.map existingBasename

/-- A free name is joined to its directory, when there is room. -/
theorem joined_lands {originalName : Text} {existingNames : List Text}
    (valid : directory = [] ∨ Canonical directory) (fit : Fit name)
    (free : name ∉ existingNames.map existingBasename)
    (shortens : Shortens (cleanAttachmentBasename originalName) name) :
    (∃ relative,joinAttachmentPath directory name = .ok relative ∧
      Lands originalName directory existingNames relative) ∨
    (∃ reason,joinAttachmentPath directory name = .error reason) ∧
      Unplaceable originalName directory existingNames := by
  rw [joinAttachmentPath_eq]
  split
  · next long => exact .inr ⟨⟨_,rfl⟩,.inl ⟨name,fit,long⟩⟩
  · next short =>
    have canonical := canonical_inDirectory valid fit short
    exact .inl ⟨_,rfl,name,rfl,fit,free,validate_iff.mpr ⟨canonical,rfl⟩,shortens⟩

variable [Composes]

/-- Whatever an attachment is called, it lands in its directory under a free name that fits. -/
theorem safeAttachmentName_lands (originalName targetDirectory : Text) (existingNames : List Text)
    (valid : normalizeTargetDirectory targetDirectory = .ok directory) :
    (∃ relative,safeAttachmentName originalName targetDirectory existingNames = .ok relative ∧
      Lands originalName directory existingNames relative) ∨
    (∃ reason,safeAttachmentName originalName targetDirectory existingNames = .error reason) ∧
      Unplaceable originalName directory existingNames := by
  have placed := (normalizeTargetDirectory_ok valid).1
  have fit := fit_cleanAttachmentBasename originalName
  have normal := normal_cleanAttachmentBasename originalName
  simp only [safeAttachmentName,valid,bind,Except.bind]
  split
  · next free => exact joined_lands placed fit free (.inl rfl)
  · next used =>
    split
    · next candidate found =>
      have free := List.find?_some found
      obtain ⟨i,listed,rfl⟩ := List.mem_map.mp (List.mem_of_find?_eq_some found)
      obtain ⟨kept,dropped,extension,whole,keeps,made,fits⟩ :=
        withSuffix_numbered fit normal (List.mem_range.mp listed)
      exact joined_lands placed fits (by simpa using free)
        (.inr ⟨kept,dropped,extension,i + 2,whole,keeps,made⟩)
    · next exhausted =>
      refine .inr ⟨⟨_,rfl⟩,.inr ⟨not_not.mp used,?_⟩⟩
      intro i bounded
      rw [List.find?_eq_none] at exhausted
      simpa using exhausted _ (List.mem_map_of_mem (List.mem_range.mpr bounded))

end Landing

section Example

open scoped AsciiHost

instance composes_ascii : Composes where
  nfc_nfc _ := rfl
  nfc_infix _ _ _ _ := rfl
  nfc_separated _ _ _ _ _ _ := rfl
  nfc_control _ plain := plain

/-- A second note of one name gets a number. -/
theorem note_lands : ∃ relative,safeAttachmentName ['a','.','m','d'] [] [['a','.','m','d']] =
    .ok relative ∧ Lands ['a','.','m','d'] [] [['a','.','m','d']] relative := by
  have root : normalizeTargetDirectory [] = .ok [] := rfl
  rcases safeAttachmentName_lands ['a','.','m','d'] [] [['a','.','m','d']] root with
    lands | ⟨⟨reason,failed⟩,_⟩
  · exact lands
  · have chosen : safeAttachmentName ['a','.','m','d'] [] [['a','.','m','d']] =
        .ok ['a','-','2','.','m','d'] := by decide +kernel
    rw [chosen] at failed
    simp at failed

end Example

end LocalBook.Vault
