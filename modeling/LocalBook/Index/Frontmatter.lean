import LocalBook.Index.Entry
import LocalBook.Decimal

/-! The frontmatter of a note: what the YAML loader returns is made JSON-safe, dumped and
bound to a statement. Each of the three refuses some values, and nothing catches that. -/
namespace LocalBook.Index

abbrev PyStr := List Nat

namespace PyStr

def ofText (t : Text) : PyStr := t.map Char.toNat

def isSurrogate (code : Nat) : Bool := 0xD800 ≤ code && code < 0xE000

/-- `str.encode("utf-8")`, which a lone surrogate fails. -/
def encode (s : PyStr) : Option Text :=
  if s.any isSurrogate then none else some (s.map Char.ofNat)

theorem encode_ofText (t : Text) : (ofText t).encode = some t := by
  have plain : (ofText t).any isSurrogate = false := by
    refine List.any_eq_false.mpr fun code member here => ?_
    obtain ⟨c,-,rfl⟩ := List.mem_map.mp member
    have valid := c.valid
    simp only [isSurrogate,Bool.and_eq_true,decide_eq_true_eq] at here
    simp only [UInt32.isValidChar,Nat.isValidChar] at valid
    change 0xD800 ≤ c.val.toNat ∧ c.val.toNat < 0xE000 at here
    omega
  rw [encode,if_neg (by rw [plain]; decide),ofText,List.map_map]
  refine congrArg some ((List.map_congr_left fun c _ => ?_).trans (List.map_id t))
  exact Char.ofNat_toNat c

end PyStr

/-- A key of a YAML mapping; of those that are no strings and no integers only what `str`
makes of them matters. -/
inductive YamlKey where
  | str (text : PyStr)
  | int (value : Int)
  | other (text : Text)

/-- What `yaml.safe_load` returns. An alias to a collection it is inside of stands for itself. -/
inductive Yaml where
  | null
  | bool (value : Bool)
  | int (value : Int)
  | float (text : Text)
  | str (text : PyStr)
  | date (iso : Text)
  | bytes
  | set
  | list (items : List Yaml)
  | dict (entries : List (YamlKey × Yaml))
  | recursive

/-- A value after `_coerce_json_safe`. -/
inductive Coerced where
  | null
  | bool (value : Bool)
  | int (value : Int)
  | float (text : Text)
  | str (text : PyStr)
  | bytes
  | set
  | list (items : List Coerced)
  | dict (entries : List (PyStr × Coerced))

def unwritable (value : Int) : Bool := 10 ^ 4300 ≤ value.natAbs

/-- `str(key)`. -/
def keyText : YamlKey → Option PyStr
  | .str text => some text
  | .int value => if unwritable value then none else some (PyStr.ofText (Decimal.render value))
  | .other text => some (PyStr.ofText text)

def keyed [DecidableEq κ] (entries : List (κ × α)) : Dict κ α :=
  entries.foldl (fun d entry => d.set entry.1 entry.2) []

theorem nodup_keyed [DecidableEq κ] (entries : List (κ × α)) :
    ((keyed entries).map Prod.fst).Nodup := by
  have all (d : Dict κ α) (distinct : (d.map Prod.fst).Nodup) :
      ((entries.foldl (fun d entry => d.set entry.1 entry.2) d).map Prod.fst).Nodup := by
    induction entries generalizing d with
    | nil => exact distinct
    | cons entry rest ih => exact ih _ (Dict.nodup_names_set distinct entry.1 entry.2)
  exact all [] List.nodup_nil

def allOf : List (Option α) → Option (List α)
  | [] => some []
  | first :: rest => first.bind fun value => (allOf rest).map (value :: ·)

/-- `_coerce_json_safe`; the recursion limit is reached at the given depth. -/
def coerceJsonSafe : Nat → Yaml → Option Coerced
  | 0, _ => none
  | _ + 1, .null => some .null
  | _ + 1, .bool value => some (.bool value)
  | _ + 1, .int value => some (.int value)
  | _ + 1, .float text => some (.float text)
  | _ + 1, .str text => some (.str text)
  | _ + 1, .date iso => some (.str (PyStr.ofText iso))
  | _ + 1, .bytes => some .bytes
  | _ + 1, .set => some .set
  | depth + 1, .list items => (allOf (items.map (coerceJsonSafe depth))).map .list
  | depth + 1, .dict entries =>
    (allOf (entries.map fun entry => (keyText entry.1).bind fun key =>
      (coerceJsonSafe depth entry.2).map fun value => (key,value))).map fun pairs =>
        .dict (keyed pairs)
  | _ + 1, .recursive => none

def hexDigit (n : Nat) : Char := if n < 10 then Char.ofNat (48 + n) else Char.ofNat (87 + n)

def escaped (c : Char) : Text :=
  if c = '"' then "\\\"".toList
  else if c = Char.ofNat 92 then "\\\\".toList
  else if c = Char.ofNat 10 then "\\n".toList
  else if c = Char.ofNat 13 then "\\r".toList
  else if c = Char.ofNat 9 then "\\t".toList
  else if c = Char.ofNat 12 then "\\f".toList
  else if c = Char.ofNat 8 then "\\b".toList
  else if c.toNat < 32 then
    "\\u00".toList ++ [hexDigit (c.toNat / 16),hexDigit (c.toNat % 16)]
  else [c]

def quoted (t : Text) : Text := '"' :: t.flatMap escaped ++ ['"']

/-- `_dumps`, and the binding of its text to a statement: a set and bytes are no JSON, and a
lone surrogate is dumped but not bound. -/
def dumps : Nat → Coerced → Option Text
  | 0, _ => none
  | _ + 1, .null => some "null".toList
  | _ + 1, .bool value => some (if value then "true".toList else "false".toList)
  | _ + 1, .int value => if unwritable value then none else some (Decimal.render value)
  | _ + 1, .float text => some text
  | _ + 1, .str text => text.encode.map quoted
  | _ + 1, .bytes => none
  | _ + 1, .set => none
  | depth + 1, .list items => (allOf (items.map (dumps depth))).map fun texts =>
      '[' :: Text.join [','] texts ++ [']']
  | depth + 1, .dict entries =>
    (allOf (entries.map fun entry => entry.1.encode.bind fun key =>
      (dumps depth entry.2).map fun value => quoted key ++ ':' :: value)).map fun texts =>
        Char.ofNat 123 :: Text.join [','] texts ++ [Char.ofNat 125]

section Tags

variable [Host]

/-- `re.split(r"[\s,]+", part.strip())`, without empty tokens. -/
def tokens (part : Text) : List Text :=
  (part.splitOnP fun c => Text.isSpace c || c == ',').filter (· ≠ [])

def cleanedTag (token : Text) : Text :=
  Text.strip (if token.head? = some '#' then token.drop 1 else token)

def addTag (tags : List Text) (tag : Text) : List Text :=
  if tag = [] ∨ Host.casefold tag ∈ tags.map Host.casefold then tags else tags ++ [tag]

def collectTags (parts : List Text) : List Text :=
  ((parts.flatMap tokens).map cleanedTag).foldl addTag []

theorem addTag_distinct {tags : List Text} (distinct : (tags.map Host.casefold).Nodup)
    (tag : Text) : ((addTag tags tag).map Host.casefold).Nodup := by
  rw [addTag]
  split
  · exact distinct
  · rename_i new
    rw [List.map_append]
    refine distinct.append (List.nodup_singleton _) fun folded old here => ?_
    rw [List.mem_singleton.mp here] at old
    exact new (.inr old)

theorem collectTags_distinct (parts : List Text) :
    ((collectTags parts).map Host.casefold).Nodup := by
  rw [collectTags]
  generalize (parts.flatMap tokens).map cleanedTag = found
  have all (tags : List Text) (distinct : (tags.map Host.casefold).Nodup) :
      ((found.foldl addTag tags).map Host.casefold).Nodup := by
    induction found generalizing tags with
    | nil => exact distinct
    | cons tag rest ih => exact ih _ (addTag_distinct distinct tag)
  exact all [] List.nodup_nil

end Tags

/-- What the YAML loader makes of a block: an error, with its line when it has one, or a value. -/
inductive Loaded where
  | failed (line : Option Nat)
  | value (yaml : Yaml)

/-- The YAML loader, what `str` writes of a value that is no string, and the depth at which
the recursion limit is reached. -/
structure YamlRuntime where
  safeLoad : Text → Loaded
  str : Coerced → Text
  depth : Nat

/-- `re.split(r"\r\n|\r|\n", …)`. -/
def splitLines : Text → List Text
  | [] => [[]]
  | c :: rest =>
    if c = Char.ofNat 13 then
      -- the line feed after a carriage return belongs to it
      match rest, splitLines rest with
      | next :: _, lines => if next = Char.ofNat 10 then [] :: lines.tail else [] :: lines
      | [], lines => [] :: lines
    else if c = Char.ofNat 10 then [] :: splitLines rest
    else
      match splitLines rest with
      | line :: others => (c :: line) :: others
      | [] => [[c]]

def isBlank (c : Char) : Bool := c = ' ' || c = Char.ofNat 9

/-- `_SECTION_RE`: the first line opens a block. -/
def opensBlock (line : Text) : Bool := Text.stripBy isBlank line = "---".toList

/-- `_DELIMITER_LINE`. -/
def closesBlock (line : Text) : Bool :=
  Text.startsWith line "---".toList && (line.drop 3).all Text.isSpace

def withoutBom (text : Text) : Text :=
  if text.head? = some (Char.ofNat 0xFEFF) then text.drop 1 else text

section Parse

variable [Host]

/-- A `parse_error`, as the JSON text that is stored. -/
def parseErrorText (kind message : String) (line : Option Nat) : Text :=
  Char.ofNat 123 :: "\"kind\":".toList ++ quoted kind.toList ++ ",\"message\":".toList ++
    quoted message.toList ++ ",\"line\":".toList ++
    ((line.map Decimal.natText).getD "null".toList) ++ [Char.ofNat 125]

def invalidFrontmatter (kind message : String) (line : Option Nat) : FrontmatterResult where
  status := .parseError
  properties := []
  tags := []
  parseError := some (parseErrorText kind message line)
  propertyKeys := List.nodup_nil
  distinctTags := List.nodup_nil

/-- The parts of a `tags` value. -/
def tagParts : Option Coerced → List Coerced
  | none | some .null => []
  | some (.list items) => items
  | some value => [value]

/-- `str(part)`, as far as it can be bound. -/
def partText (runtime : YamlRuntime) : Coerced → Option Text
  | .str text => text.encode
  | .int value => if unwritable value then none else some (Decimal.render value)
  | value => some (runtime.str value)

def acceptedFrontmatter (runtime : YamlRuntime) (properties : Dict PyStr Coerced) :
    Option FrontmatterResult :=
  (allOf (properties.map fun entry => entry.1.encode.bind fun key =>
    (dumps runtime.depth entry.2).map fun value => (key,value))).bind fun dumped =>
  (allOf ((tagParts (properties.find (PyStr.ofText "tags".toList))).map (partText runtime))).map
    fun parts =>
      {status := .ok
       properties := keyed dumped
       tags := collectTags parts
       propertyKeys := nodup_keyed dumped
       distinctTags := collectTags_distinct parts}

def noFrontmatter : FrontmatterResult where
  properties := []
  tags := []
  propertyKeys := List.nodup_nil
  distinctTags := List.nodup_nil

/-- The frontmatter block of a note, with the index of the line that closes it. -/
inductive Block where
  | none
  | unterminated
  | closed (yaml : Text) (closing : Nat)

omit [Host] in
def blockOf (text : Text) : Block :=
  match splitLines (withoutBom text) with
  | [] => .none
  | first :: rest =>
    if !opensBlock first then .none
    else
      match rest.findIdx? closesBlock with
      | none => .unterminated
      | some n => .closed (Text.join ['\n'] (rest.take n)) (n + 1)

/-- `parse_frontmatter`, together with the dumps and bindings of its result; none when one of
them raises. -/
def parseFrontmatter (runtime : YamlRuntime) (text : Text) : Option FrontmatterResult :=
  match blockOf text with
  | .none => some noFrontmatter
  | .unterminated => some (invalidFrontmatter "unterminated"
      "Frontmatter has no closing --- delimiter" (some 1))
  | .closed yaml closing =>
    match runtime.safeLoad yaml with
    | .failed line => some (invalidFrontmatter "yaml" "Frontmatter is not valid YAML"
        (line.map (· + 2)))
    | .value (.dict entries) =>
      match coerceJsonSafe runtime.depth (.dict entries) with
      | some (.dict properties) => acceptedFrontmatter runtime properties
      | _ => none
    | .value _ => some (invalidFrontmatter "non_dict" "Frontmatter must be a YAML mapping"
        (some (closing + 1)))

end Parse

section Storable

/-- The coercion ends: no collection contains itself, none is too deep, and every key can be
written as a text. -/
def Finite : Nat → Yaml → Prop
  | 0, _ => False
  | _ + 1, .recursive => False
  | depth + 1, .list items => ∀ item ∈ items, Finite depth item
  | depth + 1, .dict entries =>
    ∀ entry ∈ entries, keyText entry.1 ≠ none ∧ Finite depth entry.2
  | _ + 1, _ => True

/-- The entries of a mapping that count once its keys are texts. -/
def kept (entries : List (YamlKey × Yaml)) : Dict PyStr Yaml :=
  keyed (entries.map fun entry => ((keyText entry.1).getD [],entry.2))

/-- The value can be stored: besides, what counts of it has no set, no bytes, no lone
surrogate and no integer that is too long. -/
def Storable : Nat → Yaml → Prop
  | 0, _ => False
  | _ + 1, .recursive | _ + 1, .set | _ + 1, .bytes => False
  | _ + 1, .int value => unwritable value = false
  | _ + 1, .str text => text.encode ≠ none
  | depth + 1, .list items => ∀ item ∈ items, Storable depth item
  | depth + 1, .dict entries =>
    (∀ entry ∈ entries, keyText entry.1 ≠ none ∧ Finite depth entry.2) ∧
      ∀ entry ∈ kept entries, entry.1.encode ≠ none ∧ Storable depth entry.2
  | _ + 1, _ => True

def StorableNote (runtime : YamlRuntime) (text : Text) : Prop :=
  ∀ yaml closing entries, blockOf text = .closed yaml closing →
    runtime.safeLoad yaml = .value (.dict entries) → Storable runtime.depth (.dict entries)

theorem allOf_isSome {results : List (Option α)} :
    (allOf results).isSome = true ↔ ∀ result ∈ results, result.isSome = true := by
  induction results with
  | nil => exact iff_of_true rfl fun _ member => by cases member
  | cons first rest ih =>
    rw [List.forall_mem_cons,← ih,allOf]
    cases first with
    | none => simp
    | some value => simp

theorem allOf_map {f : α → Option β} {g : α → β} {items : List α}
    (each : ∀ item ∈ items, f item = some (g item)) :
    allOf (items.map f) = some (items.map g) := by
  induction items with
  | nil => rfl
  | cons first rest ih =>
    obtain ⟨here,later⟩ := List.forall_mem_cons.mp each
    rw [List.map_cons,allOf,here,ih later]
    rfl

theorem finite_iff (depth : Nat) (yaml : Yaml) :
    (coerceJsonSafe depth yaml).isSome = true ↔ Finite depth yaml := by
  induction depth generalizing yaml with
  | zero => exact iff_of_false (by simp [coerceJsonSafe]) id
  | succ depth ih =>
    cases yaml with
    | list items =>
      rw [coerceJsonSafe,Option.isSome_map,allOf_isSome,List.forall_mem_map,Finite]
      exact forall₂_congr fun item _ => ih item
    | dict entries =>
      rw [coerceJsonSafe,Option.isSome_map,allOf_isSome,List.forall_mem_map,Finite]
      refine forall₂_congr fun entry _ => ?_
      rw [← ih entry.2]
      cases keyText entry.1 with
      | none => simp
      | some key => simp
    | recursive => exact iff_of_false (by simp [coerceJsonSafe]) id
    | null | bool | int | float | str | date | bytes | set => exact iff_of_true rfl trivial

theorem mem_keyed [DecidableEq κ] {entries : List (κ × α)} {entry : κ × α}
    (found : entry ∈ keyed entries) : entry ∈ entries := by
  have all (added : List (κ × α)) (d : Dict κ α)
      (member : entry ∈ added.foldl (fun d entry => d.set entry.1 entry.2) d) :
      entry ∈ d ∨ entry ∈ added := by
    induction added generalizing d with
    | nil => exact .inl member
    | cons first rest ih =>
      rcases ih _ member with old | later
      · rcases Dict.mem_set old with same | before
        · exact .inr (List.mem_cons.mpr (.inl same))
        · exact .inl before
      · exact .inr (List.mem_cons_of_mem _ later)
  exact (all entries [] found).resolve_left (by simp)

theorem set_mapped [DecidableEq κ] (g : α → β) (d : Dict κ α) (key : κ) (value : α) :
    Dict.set (d.map fun entry => (entry.1,g entry.2)) key (g value) =
      (d.set key value).map fun entry => (entry.1,g entry.2) := by
  induction d with
  | nil => rfl
  | cons head rest ih =>
    rw [List.map_cons,Dict.set,Dict.set]
    split
    · rfl
    · rw [ih,List.map_cons]

theorem keyed_mapped [DecidableEq κ] (g : α → β) (entries : List (κ × α)) :
    keyed (entries.map fun entry => (entry.1,g entry.2)) =
      (keyed entries).map fun entry => (entry.1,g entry.2) := by
  have all (d : Dict κ α) :
      (entries.map fun entry => (entry.1,g entry.2)).foldl
        (fun d entry => Dict.set d entry.1 entry.2) (d.map fun entry => (entry.1,g entry.2)) =
      (entries.foldl (fun d entry => Dict.set d entry.1 entry.2) d).map
        fun entry => (entry.1,g entry.2) := by
    induction entries generalizing d with
    | nil => rfl
    | cons first rest ih =>
      rw [List.map_cons,List.foldl_cons,List.foldl_cons,set_mapped]
      exact ih _
  exact all []

def coercedOf (depth : Nat) (yaml : Yaml) : Coerced := (coerceJsonSafe depth yaml).getD .null

theorem coerce_coercedOf {depth : Nat} {yaml : Yaml} (finite : Finite depth yaml) :
    coerceJsonSafe depth yaml = some (coercedOf depth yaml) := by
  obtain ⟨value,coerced⟩ := Option.isSome_iff_exists.mp ((finite_iff depth yaml).mpr finite)
  rw [coercedOf,coerced,Option.getD_some]

/-- A mapping is coerced to the coerced values that count. -/
theorem coerce_dict {depth : Nat} {entries : List (YamlKey × Yaml)}
    (finite : Finite (depth + 1) (.dict entries)) :
    coerceJsonSafe (depth + 1) (.dict entries) =
      some (.dict ((kept entries).map fun entry => (entry.1,coercedOf depth entry.2))) := by
  rw [coerceJsonSafe,allOf_map (g := fun entry =>
    ((keyText entry.1).getD [],coercedOf depth entry.2)) fun entry member => ?_]
  · rw [Option.map_some,kept,← keyed_mapped,List.map_map]
    rfl
  · obtain ⟨written,inner⟩ := finite entry member
    obtain ⟨key,same⟩ := Option.ne_none_iff_exists'.mp written
    rw [same,coerce_coercedOf inner]
    rfl

theorem finite_of_kept {depth : Nat} {entries : List (YamlKey × Yaml)}
    (finite : Finite (depth + 1) (.dict entries)) {entry : PyStr × Yaml}
    (member : entry ∈ kept entries) : Finite depth entry.2 := by
  obtain ⟨old,present,rfl⟩ := List.mem_map.mp (mem_keyed member)
  exact (finite old present).2

theorem bind_isSome_iff {key : Option α} {value : Option β} {f : α → β → γ} :
    (key.bind fun k => value.map (f k)).isSome = true ↔ key ≠ none ∧ value.isSome = true := by
  cases key <;> cases value <;> simp

/-- What is coerced can be dumped and bound exactly when the value can be stored. -/
theorem dumps_iff (depth : Nat) {yaml : Yaml} {m : Nat} (finite : Finite depth yaml)
    (deep : depth ≤ m) :
    (dumps m (coercedOf depth yaml)).isSome = true ↔ Storable depth yaml := by
  induction depth generalizing yaml m with
  | zero => exact finite.elim
  | succ depth ih =>
    obtain _ | m := m
    · exact absurd deep (Nat.not_succ_le_zero _)
    have inner := Nat.le_of_succ_le_succ deep
    cases yaml with
    | list items =>
      have coerced : coercedOf (depth + 1) (.list items) =
          .list (items.map (coercedOf depth)) := by
        rw [coercedOf,coerceJsonSafe,allOf_map fun item member =>
          coerce_coercedOf (finite item member)]
        rfl
      rw [coerced,dumps,Option.isSome_map,allOf_isSome,List.forall_mem_map,List.forall_mem_map,
        Storable]
      exact forall₂_congr fun item member => ih (finite item member) inner
    | dict entries =>
      rw [coercedOf,coerce_dict finite,Option.getD_some,dumps,Option.isSome_map,allOf_isSome,
        List.forall_mem_map,List.forall_mem_map,Storable]
      refine Iff.trans (forall₂_congr fun entry member => ?_)
        (iff_and_self.mpr fun _ => finite)
      rw [bind_isSome_iff,ih (finite_of_kept finite member) inner]
    | recursive => exact finite.elim
    | int value =>
      rw [coercedOf,coerceJsonSafe,Option.getD_some,dumps,Storable]
      cases unwritable value <;> simp
    | str text =>
      rw [coercedOf,coerceJsonSafe,Option.getD_some,dumps,Storable,Option.isSome_map]
      exact Option.isSome_iff_ne_none
    | bytes | set => exact iff_of_false (by simp [coercedOf,coerceJsonSafe,dumps]) id
    | null | bool | float => exact iff_of_true rfl trivial
    | date iso =>
      refine iff_of_true ?_ trivial
      rw [coercedOf,coerceJsonSafe,Option.getD_some,dumps,PyStr.encode_ofText]
      rfl

/-- A part of the tags that is dumped can be written as a text. -/
theorem partText_isSome {runtime : YamlRuntime} {m : Nat} {value : Coerced}
    (dumped : (dumps m value).isSome = true) : (partText runtime value).isSome = true := by
  obtain _ | m := m
  · rw [dumps] at dumped
    cases dumped
  cases value with
  | str text =>
    rw [dumps,Option.isSome_map] at dumped
    exact dumped
  | int value =>
    rw [dumps] at dumped
    rw [partText]
    split
    · rename_i long
      rw [if_pos long] at dumped
      cases dumped
    · rfl
  | null | bool | float | bytes | set | list | dict => rfl

theorem tagParts_isSome {runtime : YamlRuntime} {m : Nat} {value : Option Coerced}
    (dumped : ∀ tags ∈ value, (dumps m tags).isSome = true) :
    ∀ part ∈ tagParts value, (partText runtime part).isSome = true := by
  intro part member
  cases value with
  | none => cases member
  | some tags =>
    have whole := dumped tags rfl
    cases tags with
    | null => cases member
    | list items =>
      obtain _ | m := m
      · rw [dumps] at whole
        cases whole
      rw [dumps,Option.isSome_map,allOf_isSome,List.forall_mem_map] at whole
      exact partText_isSome (whole part member)
    | bool | int | float | str | bytes | set | dict =>
      rw [List.mem_singleton.mp member]
      exact partText_isSome whole

variable [Host]

/-- The result for a mapping is there exactly when the mapping can be stored. -/
theorem accepted_iff {runtime : YamlRuntime} {entries : List (YamlKey × Yaml)} {depth : Nat}
    (deep : runtime.depth = depth + 1) (finite : Finite (depth + 1) (.dict entries)) :
    (acceptedFrontmatter runtime
      ((kept entries).map fun entry => (entry.1,coercedOf depth entry.2))).isSome = true ↔
      Storable (depth + 1) (.dict entries) := by
  have each : (∀ entry ∈ kept entries, (entry.1.encode.bind fun key =>
      (dumps runtime.depth (coercedOf depth entry.2)).map fun value =>
        (key,value)).isSome = true) ↔ Storable (depth + 1) (.dict entries) := by
    rw [Storable]
    refine Iff.trans (forall₂_congr fun entry member => ?_) (iff_and_self.mpr fun _ => finite)
    rw [bind_isSome_iff,deep,dumps_iff depth (finite_of_kept finite member) (Nat.le_succ depth)]
  rw [acceptedFrontmatter,← each]
  constructor
  · intro accepted
    obtain ⟨result,same⟩ := Option.isSome_iff_exists.mp accepted
    obtain ⟨dumped,all,-⟩ := Option.bind_eq_some_iff.mp same
    have whole := allOf_isSome.mp (Option.isSome_iff_exists.mpr ⟨dumped,all⟩)
    rw [List.forall_mem_map,List.forall_mem_map] at whole
    exact whole
  · intro all
    have dumped : (allOf (((kept entries).map fun entry => (entry.1,coercedOf depth entry.2)).map
        fun entry => entry.1.encode.bind fun key =>
          (dumps runtime.depth entry.2).map fun value => (key,value))).isSome = true := by
      rw [allOf_isSome,List.forall_mem_map,List.forall_mem_map]
      exact all
    obtain ⟨pairs,same⟩ := Option.isSome_iff_exists.mp dumped
    rw [same,Option.bind_some,Option.isSome_map,allOf_isSome,List.forall_mem_map]
    refine tagParts_isSome (m := runtime.depth) fun tags found => ?_
    obtain ⟨entry,member,pair⟩ := List.mem_map.mp (Dict.mem_of_find found)
    have here := (bind_isSome_iff.mp (all entry member)).2
    rw [(Prod.mk.inj pair).2] at here
    exact here

/-- The frontmatter of a note raises nothing exactly when its mapping can be stored. -/
theorem parseFrontmatter_isSome {runtime : YamlRuntime} {text : Text} :
    (parseFrontmatter runtime text).isSome = true ↔ StorableNote runtime text := by
  rw [parseFrontmatter,StorableNote]
  cases blockOf text with
  | none => exact iff_of_true rfl fun _ _ _ impossible => by cases impossible
  | unterminated => exact iff_of_true rfl fun _ _ _ impossible => by cases impossible
  | closed yaml closing =>
    dsimp only
    cases loads : runtime.safeLoad yaml with
    | failed line =>
      refine iff_of_true rfl fun other _ _ same loaded => ?_
      cases same
      rw [loads] at loaded
      cases loaded
    | value found =>
      cases found with
      | dict entries =>
        dsimp only
        have same : (∀ yaml' closing' entries', Block.closed yaml closing = .closed yaml' closing' →
            runtime.safeLoad yaml' = .value (.dict entries') →
            Storable runtime.depth (.dict entries')) ↔
            Storable runtime.depth (.dict entries) := by
          constructor
          · exact fun all => all yaml closing entries rfl loads
          · rintro storable yaml' closing' entries' ⟨⟩ loaded
            rw [loads] at loaded
            cases loaded
            exact storable
        rw [same]
        obtain deep | ⟨depth,deep⟩ : runtime.depth = 0 ∨ ∃ depth, runtime.depth = depth + 1 := by
          cases runtime.depth with
          | zero => exact .inl rfl
          | succ depth => exact .inr ⟨depth,rfl⟩
        · rw [deep]
          exact iff_of_false (by simp [coerceJsonSafe]) id
        · rw [deep]
          by_cases finite : Finite (depth + 1) (.dict entries)
          · rw [coerce_dict finite]
            exact accepted_iff deep finite
          · have stuck : coerceJsonSafe (depth + 1) (.dict entries) = none :=
              Option.not_isSome_iff_eq_none.mp (mt (finite_iff _ _).mp finite)
            rw [stuck]
            exact iff_of_false (by simp) fun storable => finite storable.1
      | null | bool | int | float | str | date | bytes | set | list | recursive =>
        refine iff_of_true rfl fun other _ _ same loaded => ?_
        cases same
        rw [loads] at loaded
        cases loaded

end Storable

end LocalBook.Index
