import LocalBook.Posix
import LocalBook.Percent

/-! References from a note to a place in the Vault: how they are written, relative to the folder of
the note and percent-encoded, and how they are resolved again. -/
namespace LocalBook.Workspace.References

open Posix (dot dotDot Named Plain)
open Percent (hexUpper hexValue quote quoteByte isQuoted)

/-! ### Encoding and decoding of one segment -/

/-- The bytes that `encodeURIComponent` leaves alone. -/
def unreserved (b : UInt8) : Bool :=
  (Char.ofNat b.toNat).isAlphanum || "-_.!~*'()".toList.contains (Char.ofNat b.toNat)

def hexByte (n : Nat) : Text := ['%',hexUpper (n / 16),hexUpper (n % 16)]

def componentByte (b : UInt8) : Text :=
  if unreserved b then [Char.ofNat b.toNat] else hexByte b.toNat

def encodeURIComponent (text : Text) : Text := (encodeUtf8 text).data.toList.flatMap componentByte

/-- `.replace(/[!'()*]/g, …)`. -/
def escapeMark (c : Char) : Text := if "!'()*".toList.contains c then hexByte c.toNat else [c]

def encodeSegment (segment : Text) : Text := (encodeURIComponent segment).flatMap escapeMark

def encodeReference (path : Text) : Text :=
  Text.join ['/'] ((Text.split '/' path).map encodeSegment)

def strictBytes : Text → Option (List UInt8)
  | [] => some []
  | c :: rest =>
    if c = '%' then
      match rest with
      | high :: low :: rest => (hexValue high).bind fun h => (hexValue low).bind fun l =>
          (strictBytes rest).map (UInt8.ofNat (16 * h + l) :: ·)
      | _ => none
    else (strictBytes rest).map (String.utf8EncodeChar c ++ ·)

/-- `decodeURIComponent`, which throws on malformed escapes and on bytes that are no UTF-8. -/
def decodeURIComponent (text : Text) : Option Text :=
  (strictBytes text).bind fun bytes => decodeUtf8 ⟨bytes.toArray⟩

def decodeReferenceSegment (segment : Text) : Text := (decodeURIComponent segment).getD segment

/-! ### Writing and resolving -/

def folderOf (notePath : Option Text) : List Text :=
  match notePath with
  | none => []
  | some path => if path = [] then [] else (Text.split '/' path).dropLast

def sharedOf : List Text → List Text → Nat
  | a :: start,b :: c :: path => if a = b then sharedOf start (c :: path) + 1 else 0
  | _,_ => 0

def relativeMarkdownReference (notePath : Option Text) (targetPath : Text) : Text :=
  let start := folderOf notePath
  let path := Text.split '/' targetPath
  let shared := sharedOf start path
  Text.join ['/'] (List.replicate (start.length - shared) dotDot ++ path.drop shared)

def schemeChar (c : Char) : Bool := c.isAlphanum || c = '+' || c = '.' || c = '-'

/-- `^[A-Za-z][A-Za-z0-9+.-]*:`. -/
def hasScheme (target : Text) : Bool :=
  target.head?.any Char.isAlpha && (target.dropWhile schemeChar).head? = some ':'

/-- What is never a Vault path. -/
def Refused (target : Text) : Prop :=
  target = [] ∨ Char.ofNat 0 ∈ target ∨ Char.ofNat 92 ∈ target ∨ hasScheme target = true ∨
    Text.startsWith target ['/','/'] = true ∨ Text.startsWith target ['?'] = true

instance (target : Text) : Decidable (Refused target) :=
  inferInstanceAs (Decidable (_ ∨ _ ∨ _ ∨ _ ∨ _ ∨ _))

def walk : List Text → List Text → Option (List Text)
  | parts, [] => some parts
  | parts, segment :: rest =>
    if segment = [] ∨ segment = dot then walk parts rest
    else if segment = dotDot then if parts = [] then none else walk parts.dropLast rest
    else walk (parts ++ [segment]) rest

def baseOf (notePath : Option Text) (target : Text) : List Text :=
  if Text.startsWith target ['/'] then [] else folderOf notePath

def decodedOf (target : Text) : List Text := (Text.split '/' target).map decodeReferenceSegment

def resolveVaultRelativePath (notePath : Option Text) (target : Text) : Option Text :=
  if Refused target then none
  else (walk [] (baseOf notePath target ++ decodedOf target)).bind fun parts =>
    if parts = [] then none else some (Text.join ['/'] parts)

structure VaultPath where
  text : Text
  plain : Plain text

/-! ### An encoded segment is read back -/

/-- The bytes that an encoded segment has as they are. -/
def bare (b : UInt8) : Bool := (Char.ofNat b.toNat).isAlphanum ||
  "-_.~".toList.contains (Char.ofNat b.toNat)

theorem escaped_componentByte : ∀ n < 256,(componentByte (UInt8.ofNat n)).flatMap escapeMark =
    if bare (UInt8.ofNat n) then [Char.ofNat n] else hexByte n := by
  decide +kernel

theorem encodeSegment_eq (segment : Text) : encodeSegment segment =
    (encodeUtf8 segment).data.toList.flatMap fun b =>
      if bare b then [Char.ofNat b.toNat] else hexByte b.toNat := by
  rw [encodeSegment,encodeURIComponent,List.flatMap_assoc]
  refine List.flatMap_congr fun b _ => ?_
  simpa using escaped_componentByte b.toNat b.toNat_lt

theorem bare_single : ∀ n < 256,bare (UInt8.ofNat n) = true →
    Char.ofNat n ≠ '%' ∧ String.utf8EncodeChar (Char.ofNat n) = [UInt8.ofNat n] := by
  decide +kernel

theorem strictBytes_cons {c : Char} (plain : c ≠ '%') (rest : Text) :
    strictBytes (c :: rest) = (strictBytes rest).map (String.utf8EncodeChar c ++ ·) := by
  conv_lhs => unfold strictBytes
  rw [if_neg plain]

theorem strictBytes_hexByte {n : Nat} (small : n < 256) (rest : Text) :
    strictBytes (hexByte n ++ rest) = (strictBytes rest).map (UInt8.ofNat n :: ·) := by
  have high := Percent.hexValue_hexUpper (n / 16) (by omega)
  have low := Percent.hexValue_hexUpper (n % 16) (by omega)
  have whole : 16 * (n / 16) + n % 16 = n := Nat.div_add_mod _ _
  simp only [hexByte,List.cons_append,List.nil_append,strictBytes,if_true,high,low,
    Option.bind_some,whole]

theorem strictBytes_encoded {keep : UInt8 → Bool}
    (single : ∀ n < 256,keep (UInt8.ofNat n) = true →
      Char.ofNat n ≠ '%' ∧ String.utf8EncodeChar (Char.ofNat n) = [UInt8.ofNat n])
    (bytes : List UInt8) :
    strictBytes (bytes.flatMap fun b =>
      if keep b then [Char.ofNat b.toNat] else hexByte b.toNat) = some bytes := by
  induction bytes with
  | nil => rfl
  | cons b rest ih =>
    rw [List.flatMap_cons]
    split
    · next kept =>
      have ⟨plain,byte⟩ := single b.toNat b.toNat_lt (by simpa using kept)
      rw [List.singleton_append,strictBytes_cons plain,ih,byte]
      simp
    · rw [strictBytes_hexByte b.toNat_lt,ih]
      simp

theorem decode_encodeSegment (segment : Text) :
    decodeReferenceSegment (encodeSegment segment) = segment := by
  have bytes : strictBytes (encodeSegment segment) = some (encodeUtf8 segment).data.toList := by
    rw [encodeSegment_eq,strictBytes_encoded bare_single]
  have back : decodeUtf8 ⟨(encodeUtf8 segment).data⟩ = some segment :=
    decodeUtf8_encodeUtf8 segment
  rw [decodeReferenceSegment,decodeURIComponent,bytes,Option.bind_some,Array.toArray_toList,back,
    Option.getD_some]

def isWritten (c : Char) : Bool := c.isAlphanum || "-_.~%".toList.contains c

theorem written_byte : ∀ n < 256,
    (if bare (UInt8.ofNat n) then [Char.ofNat n] else hexByte n).all isWritten = true := by
  decide +kernel

theorem isWritten_of_mem {segment : Text} {c : Char} (member : c ∈ encodeSegment segment) :
    isWritten c = true := by
  rw [encodeSegment_eq] at member
  obtain ⟨b,-,inside⟩ := List.mem_flatMap.mp member
  exact List.all_eq_true.mp (written_byte b.toNat b.toNat_lt) c (by simpa using inside)

theorem encodeSegment_ne_nil {segment : Text} (some_ : segment ≠ []) :
    encodeSegment segment ≠ [] := by
  intro none_
  have back := decode_encodeSegment segment
  rw [none_] at back
  exact some_ (back.symm.trans rfl)

theorem not_mem_encodeSegment {segment : Text} {c : Char} (other : isWritten c = false) :
    c ∉ encodeSegment segment :=
  fun member => Bool.false_ne_true (other.symm.trans (isWritten_of_mem member))

/-! ### A written reference is not refused -/

theorem split_encodeReference {segments : List Text} (some_ : segments ≠ [])
    (whole : ∀ segment ∈ segments,'/' ∉ segment) :
    encodeReference (Text.join ['/'] segments) =
      Text.join ['/'] (segments.map encodeSegment) := by
  rw [encodeReference,Posix.split_join some_ whole]

theorem colon_of_hasScheme {target : Text} (scheme : hasScheme target = true) : ':' ∈ target := by
  have after : (target.dropWhile schemeChar).head? = some ':' := by
    simp only [hasScheme,Bool.and_eq_true,decide_eq_true_eq] at scheme
    exact scheme.2
  exact (List.dropWhile_suffix _).subset (List.mem_of_mem_head? after)

/-- What a text of names between single slashes begins with. -/
theorem join_start {names : List Text} (some_ : names ≠ [])
    (named : ∀ name ∈ names,name ≠ [] ∧ '/' ∉ name) :
    ∃ c rest,Text.join ['/'] names = c :: rest ∧ c ≠ '/' ∧ ∃ name ∈ names,c ∈ name := by
  obtain ⟨name,others,rfl⟩ := List.exists_cons_of_ne_nil some_
  have ⟨full,whole⟩ := named name List.mem_cons_self
  obtain ⟨c,rest,rfl⟩ := List.exists_cons_of_ne_nil full
  have other : c ≠ '/' := fun same => whole (same ▸ List.mem_cons_self)
  refine ⟨c,?_⟩
  cases others with
  | nil => exact ⟨rest,by simp [Text.join],other,_,List.mem_cons_self,List.mem_cons_self⟩
  | cons next others =>
    exact ⟨_,by rw [Posix.join_cons_cons,List.cons_append],other,_,List.mem_cons_self,
      List.mem_cons_self⟩

theorem not_refused {segments : List Text} (some_ : segments ≠ [])
    (full : ∀ segment ∈ segments,segment ≠ []) :
    ¬ Refused (Text.join ['/'] (segments.map encodeSegment)) ∧
      Text.startsWith (Text.join ['/'] (segments.map encodeSegment)) ['/'] = false := by
  have absent : ∀ c,c ≠ '/' → isWritten c = false →
      c ∉ Text.join ['/'] (segments.map encodeSegment) := by
    intro c slash other member
    rcases Posix.mem_join member with same | ⟨_,inside,here⟩
    · exact slash same
    · obtain ⟨segment,-,rfl⟩ := List.mem_map.mp inside
      exact not_mem_encodeSegment other here
  have named : ∀ name ∈ segments.map encodeSegment,name ≠ [] ∧ '/' ∉ name := by
    intro name member
    obtain ⟨segment,inside,rfl⟩ := List.mem_map.mp member
    exact ⟨encodeSegment_ne_nil (full segment inside),not_mem_encodeSegment (by decide)⟩
  obtain ⟨c,rest,shape,other,-⟩ := join_start (by simpa using some_) named
  have start : Text.startsWith (Text.join ['/'] (segments.map encodeSegment)) ['/'] = false := by
    refine Bool.eq_false_iff.mpr fun starts => other ?_
    rw [shape] at starts
    exact (List.cons_prefix_cons.mp (List.isPrefixOf_iff_prefix.mp starts)).1.symm
  refine ⟨?_,start⟩
  rintro (empty | nul | backslash | scheme | slashes | question)
  · rw [shape] at empty
    cases empty
  · exact absent _ (by decide) (by decide) nul
  · exact absent _ (by decide) (by decide) backslash
  · exact absent _ (by decide) (by decide) (colon_of_hasScheme scheme)
  · rw [shape] at slashes
    exact other (List.cons_prefix_cons.mp (List.isPrefixOf_iff_prefix.mp slashes)).1.symm
  · have mark : '?' ∈ Text.join ['/'] (segments.map encodeSegment) :=
      (List.isPrefixOf_iff_prefix.mp question).subset List.mem_cons_self
    exact absent _ (by decide) (by decide) mark

/-! ### The loop over the segments -/

/-- A segment that names something. -/
def isName (segment : Text) : Bool := segment ≠ [] && segment ≠ dot && segment ≠ dotDot

theorem isName_of_named {segment : Text} (named : Named segment) : isName segment = true := by
  simp [isName,named.some_,named.notDot,named.notDotDot]

theorem walk_name {parts rest : List Text} {segment : Text} (name : isName segment = true) :
    walk parts (segment :: rest) = walk (parts ++ [segment]) rest := by
  simp only [isName,Bool.and_eq_true,decide_eq_true_eq] at name
  rw [walk,if_neg (by simp [name]),if_neg name.2]

theorem walk_up {parts rest : List Text} :
    walk parts (dotDot :: rest) = if parts = [] then none else walk parts.dropLast rest := by
  rw [walk,if_neg (by decide),if_pos rfl]

theorem walk_names (names rest : List Text) (parts : List Text)
    (named : ∀ name ∈ names,isName name = true) :
    walk parts (names ++ rest) = walk (parts ++ names) rest := by
  induction names generalizing parts with
  | nil => rw [List.nil_append,List.append_nil]
  | cons name names ih =>
    rw [List.cons_append,walk_name (named name List.mem_cons_self),
      ih _ fun other member => named other (List.mem_cons_of_mem _ member),List.append_assoc,
      List.singleton_append]

theorem walk_ups (n : Nat) (rest parts : List Text) (enough : n ≤ parts.length) :
    walk parts (List.replicate n dotDot ++ rest) = walk (parts.take (parts.length - n)) rest := by
  induction n generalizing parts with
  | zero => simp
  | succ n ih =>
    have some_ : parts ≠ [] := List.ne_nil_of_length_pos (by omega)
    rw [List.replicate_succ,List.cons_append,walk_up,if_neg some_,
      ih _ (by rw [List.length_dropLast]; omega),List.length_dropLast,List.dropLast_eq_take,
      List.take_take]
    congr 2
    omega

/-! ### A written reference is resolved to its place -/

theorem sharedOf_spec (start path : List Text) : sharedOf start path ≤ start.length ∧
    start.take (sharedOf start path) = path.take (sharedOf start path) ∧
      (path ≠ [] → sharedOf start path < path.length) := by
  fun_induction sharedOf start path with
  | case1 start b c path ih =>
    have ⟨short,same,inside⟩ := ih
    refine ⟨Nat.succ_le_succ short,?_,fun _ => ?_⟩
    · rw [List.take_succ_cons,List.take_succ_cons,same]
    · exact Nat.succ_lt_succ (inside (List.cons_ne_nil _ _))
  | case2 a start b c path differs => exact ⟨Nat.zero_le _,rfl,fun _ => Nat.succ_pos _⟩
  | case3 start path _ =>
    exact ⟨Nat.zero_le _,rfl,fun some_ => List.length_pos_of_ne_nil some_⟩

theorem folderOf_named (note : Option VaultPath) :
    ∀ name ∈ folderOf (note.map VaultPath.text),Named name := by
  cases note with
  | none => exact fun _ member => (List.not_mem_nil member).elim
  | some note =>
    intro name member
    rw [Option.map_some] at member
    unfold folderOf at member
    split at member
    · exact (List.not_mem_nil member).elim
    · next path same =>
      cases same
      split at member
      · exact (List.not_mem_nil member).elim
      · exact note.plain name (List.mem_of_mem_dropLast member)

theorem split_ne_nil (path : Text) : Text.split '/' path ≠ [] := List.splitOn_ne_nil _ _

/-- A reference written for a note is resolved to the path it was written for. -/
theorem resolve_reference (note : Option VaultPath) (path : VaultPath) :
    resolveVaultRelativePath (note.map VaultPath.text)
      (encodeReference (relativeMarkdownReference (note.map VaultPath.text) path.text)) =
        some path.text := by
  have named := folderOf_named note
  generalize note.map VaultPath.text = notePath at named ⊢
  have ⟨short,same,inside⟩ := sharedOf_spec (folderOf notePath) (Text.split '/' path.text)
  have inside := inside (split_ne_nil _)
  simp only [relativeMarkdownReference]
  generalize sharedOf (folderOf notePath) (Text.split '/' path.text) = shared at short same inside ⊢
  let segments := List.replicate ((folderOf notePath).length - shared) dotDot ++
    (Text.split '/' path.text).drop shared
  have each : ∀ segment ∈ segments,segment ≠ [] ∧ '/' ∉ segment := by
    intro segment member
    rcases List.mem_append.mp member with up | down
    · rw [List.eq_of_mem_replicate up]
      decide
    · have name := path.plain segment (List.mem_of_mem_drop down)
      exact ⟨name.some_,name.whole⟩
  have some_ : segments ≠ [] := by
    have : segments.length ≠ 0 := by
      simp only [segments,List.length_append,List.length_drop]
      omega
    exact fun none_ => this (congrArg List.length none_)
  have ⟨kept,relative⟩ := not_refused some_ fun segment member => (each segment member).1
  have decoded : decodedOf (Text.join ['/'] (segments.map encodeSegment)) = segments := by
    rw [decodedOf,Posix.split_join (by simpa using some_) ?_,List.map_map]
    · refine (List.map_congr_left fun segment _ => ?_).trans (List.map_id _)
      exact decode_encodeSegment segment
    · intro part member
      obtain ⟨segment,-,rfl⟩ := List.mem_map.mp member
      exact not_mem_encodeSegment (by decide)
  have names : ∀ name ∈ folderOf notePath,isName name = true := fun name member =>
    isName_of_named (named name member)
  have down : ∀ name ∈ (Text.split '/' path.text).drop shared,isName name = true :=
    fun name member => isName_of_named (path.plain name (List.mem_of_mem_drop member))
  change resolveVaultRelativePath notePath (encodeReference (Text.join ['/'] segments)) = _
  rw [split_encodeReference some_ fun segment member => (each segment member).2,
    resolveVaultRelativePath,if_neg kept,baseOf,if_neg (by simp [relative]),decoded,
    walk_names _ _ _ names,List.nil_append,walk_ups _ _ _ (by omega)]
  have back : (folderOf notePath).length - ((folderOf notePath).length - shared) = shared := by
    omega
  have last := walk_names _ [] ((Text.split '/' path.text).take shared) down
  rw [List.append_nil,List.take_append_drop,walk] at last
  rw [back,same,last,Option.bind_some,if_neg (split_ne_nil _),Text.join_split]

/-! ### What is left of the segments of any target -/

def climbs : List Text → Nat
  | [] => 0
  | segment :: rest =>
    if isName segment then climbs rest - 1
    else if segment = dotDot then climbs rest + 1 else climbs rest

def kept : List Text → List Text
  | [] => []
  | segment :: rest =>
    if isName segment ∧ climbs rest = 0 then segment :: kept rest else kept rest

theorem walk_eq (segments parts : List Text) : walk parts segments =
    if climbs segments ≤ parts.length then
      some (parts.take (parts.length - climbs segments) ++ kept segments) else none := by
  induction segments generalizing parts with
  | nil => simp [walk,climbs,kept]
  | cons segment rest ih =>
    cases name : isName segment with
    | true =>
      rw [walk_name name,ih,climbs,if_pos name,kept,List.length_append,List.length_singleton]
      by_cases level : climbs rest = 0
      · rw [if_pos (by omega : climbs rest ≤ parts.length + 1),if_pos (by omega),
          if_pos ⟨name,level⟩,level,Nat.sub_zero,Nat.zero_sub,Nat.sub_zero,
          List.take_of_length_le (by simp),List.take_length,List.append_assoc,
          List.singleton_append]
      · have later : ¬ (isName segment = true ∧ climbs rest = 0) := fun both => level both.2
        have amount : parts.length + 1 - climbs rest = parts.length - (climbs rest - 1) := by omega
        rw [if_neg later]
        by_cases enough : climbs rest ≤ parts.length + 1
        · rw [if_pos enough,if_pos (by omega),amount,List.take_append_of_le_length (by omega)]
        · rw [if_neg enough,if_neg (by omega)]
    | false =>
      have other : ¬ (isName segment = true ∧ climbs rest = 0) := by simp [name]
      have unnamed : ¬ isName segment = true := by simp [name]
      rw [climbs,if_neg unnamed,kept,if_neg other]
      by_cases up : segment = dotDot
      · rw [if_pos up,up,walk_up]
        by_cases none_ : parts = []
        · rw [if_pos none_,none_,if_neg (by simp)]
        · have some_ := List.length_pos_of_ne_nil none_
          rw [if_neg none_,ih,List.length_dropLast,List.dropLast_eq_take,List.take_take]
          have amount : min (parts.length - 1 - climbs rest) (parts.length - 1) =
              parts.length - (climbs rest + 1) := by omega
          by_cases enough : climbs rest ≤ parts.length - 1
          · rw [if_pos enough,if_pos (by omega),amount]
          · rw [if_neg enough,if_neg (by omega)]
      · have blank : segment = [] ∨ segment = dot := by
          simp only [isName,Bool.and_eq_false_iff,decide_eq_false_iff_not,not_not] at name
          tauto
        rw [walk,if_pos blank,ih,if_neg up]

theorem mem_kept {segments : List Text} {segment : Text} : segment ∈ kept segments ↔
    ∃ front back,segments = front ++ segment :: back ∧ isName segment = true ∧ climbs back = 0 := by
  induction segments with
  | nil => simp [kept]
  | cons first rest ih =>
    rw [kept]
    constructor
    · intro member
      split at member
      · next keeps =>
        rcases List.mem_cons.mp member with rfl | later
        · exact ⟨[],rest,rfl,keeps⟩
        · obtain ⟨front,back,rfl,name,level⟩ := ih.mp later
          exact ⟨first :: front,back,rfl,name,level⟩
      · obtain ⟨front,back,rfl,name,level⟩ := ih.mp member
        exact ⟨first :: front,back,rfl,name,level⟩
    · rintro ⟨front,back,same,name,level⟩
      cases front with
      | nil =>
        obtain ⟨rfl,rfl⟩ := List.cons.inj same
        rw [if_pos ⟨name,level⟩]
        exact List.mem_cons_self
      | cons _ front =>
        obtain ⟨rfl,rfl⟩ := List.cons.inj same
        have later := ih.mpr ⟨front,back,rfl,name,level⟩
        split
        · exact List.mem_cons_of_mem _ later
        · exact later

theorem split_join_flat {parts : List Text} (some_ : parts ≠ []) :
    Text.split '/' (Text.join ['/'] parts) = parts.flatMap (Text.split '/') := by
  induction parts with
  | nil => exact absurd rfl some_
  | cons part rest ih =>
    cases rest with
    | nil => simp [Text.join]
    | cons next rest =>
      rw [Posix.join_cons_cons,Posix.split_append,ih (List.cons_ne_nil _ _)]
      exact List.flatMap_cons.symm

theorem plain_join {parts : List Text} (some_ : parts ≠ []) :
    Plain (Text.join ['/'] parts) ↔ ∀ part ∈ parts,Plain part := by
  unfold Plain
  rw [split_join_flat some_]
  constructor
  · exact fun all part member comp inside => all comp (List.mem_flatMap.mpr ⟨part,member,inside⟩)
  · intro each comp inside
    obtain ⟨part,member,inside⟩ := List.mem_flatMap.mp inside
    exact each part member comp inside

theorem plain_of_named {name : Text} (named : Named name) : Plain name := by
  have single : Text.split '/' name = [name] := List.splitOn_eq_singleton named.whole
  unfold Plain
  rw [single]
  exact fun comp member => List.mem_singleton.mp member ▸ named

/-- A written reference comes back to its place. What a target is resolved to is a canonical path
iff the target is refused, it climbs out of the Vault, or every decoded segment that names something
and is not climbed over consists of names itself. -/
theorem reference_resolved_iff (note : Option VaultPath) (path : VaultPath) (target : Text) :
    (resolveVaultRelativePath (note.map VaultPath.text)
        (encodeReference (relativeMarkdownReference (note.map VaultPath.text) path.text)) =
          some path.text ∧
      ∀ resolved ∈ resolveVaultRelativePath (note.map VaultPath.text) target,Plain resolved) ↔
    Refused target ∨
      (baseOf (note.map VaultPath.text) target).length < climbs (decodedOf target) ∨
      ∀ front segment back,decodedOf target = front ++ segment :: back →
        isName segment = true → climbs back = 0 → Plain segment := by
  refine Iff.trans (and_iff_right (resolve_reference note path)) ?_
  have named : ∀ name ∈ baseOf (note.map VaultPath.text) target,Named name := by
    unfold baseOf
    split
    · exact fun _ member => (List.not_mem_nil member).elim
    · exact folderOf_named note
  rw [resolveVaultRelativePath]
  generalize baseOf (note.map VaultPath.text) target = base at named ⊢
  by_cases refused : Refused target
  · simp [refused]
  rw [if_neg refused,walk_names _ _ _ fun name member => isName_of_named (named name member),
    List.nil_append,walk_eq]
  by_cases out : base.length < climbs (decodedOf target)
  · rw [if_neg (by omega)]
    simp [out]
  rw [if_pos (by omega),Option.bind_some]
  have base_ : ∀ part ∈ base.take (base.length - climbs (decodedOf target)),Plain part :=
    fun part member => plain_of_named (named part (List.mem_of_mem_take member))
  constructor
  · refine fun all => .inr (.inr fun front segment back same name level => ?_)
    have member : segment ∈ kept (decodedOf target) := mem_kept.mpr ⟨front,back,same,name,level⟩
    have some_ : base.take (base.length - climbs (decodedOf target)) ++
        kept (decodedOf target) ≠ [] := List.ne_nil_of_mem (List.mem_append_right _ member)
    rw [if_neg some_] at all
    exact (plain_join some_).mp (all _ rfl) segment (List.mem_append_right _ member)
  · rintro (here | here | each) resolved found
    · exact absurd here refused
    · exact absurd here out
    · split at found
      · cases found
      · next some_ =>
        obtain rfl := Option.some.inj found
        refine (plain_join some_).mpr fun part member => ?_
        rcases List.mem_append.mp member with own | later
        · exact base_ part own
        · obtain ⟨front,back,same,name,level⟩ := mem_kept.mp later
          exact each front part back same name level

/-- An encoded slash brings a step above the Vault into the resolved path. -/
theorem encoded_slash_climbs :
    ¬ ∀ resolved ∈ resolveVaultRelativePath (some "a.md".toList) "..%2Fsecret.md".toList,
      Plain resolved := by
  intro all
  exact absurd (all "../secret.md".toList (by decide +kernel)) (by decide)

end LocalBook.Workspace.References
