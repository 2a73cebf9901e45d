import LocalBook.Text

/-! Percent-encoding, as `urllib.parse` has it: `quote` with the slash left alone, and `unquote`,
which decodes what is ASCII and replaces what is no UTF-8. -/
namespace LocalBook.Percent

/-! ### Bytes -/

def hexUpper (n : Nat) : Char := if n < 10 then Char.ofNat (48 + n) else Char.ofNat (55 + n)

def hexValue (c : Char) : Option Nat :=
  if '0' ≤ c ∧ c ≤ '9' then some (c.toNat - 48)
  else if 'A' ≤ c ∧ c ≤ 'F' then some (c.toNat - 55)
  else if 'a' ≤ c ∧ c ≤ 'f' then some (c.toNat - 87)
  else none

/-- The bytes that `quote` leaves alone. -/
def isSafe (b : UInt8) : Bool :=
  let c := Char.ofNat b.toNat
  c.isAlphanum || c = '_' || c = '.' || c = '-' || c = '~' || c = '/'

def quoteByte (b : UInt8) : Text :=
  if isSafe b then [Char.ofNat b.toNat] else ['%',hexUpper (b.toNat / 16),hexUpper (b.toNat % 16)]

/-- `quote(text, safe="/")`. -/
def quote (text : Text) : Text := (encodeUtf8 text).data.toList.flatMap quoteByte

/-- `unquote_to_bytes`, of ASCII. -/
def unquoteToBytes : Text → List UInt8
  | '%' :: high :: low :: rest =>
    match hexValue high,hexValue low with
    | some h,some l => UInt8.ofNat (16 * h + l) :: unquoteToBytes rest
    | _,_ => UInt8.ofNat '%'.toNat :: unquoteToBytes (high :: low :: rest)
  | c :: rest => UInt8.ofNat c.toNat :: unquoteToBytes rest
  | [] => []
termination_by text => text.length

/-! ### Decoding with replacement -/

def continues (b : UInt8) : Bool := 0x80 ≤ b && b ≤ 0xbf

def follows (first second : UInt8) : Bool :=
  continues second && 0xe0 ≤ first && first ≤ 0xf4 && (first ≠ 0xe0 || 0xa0 ≤ second) &&
    (first ≠ 0xed || second ≤ 0x9f) && (first ≠ 0xf0 || 0x90 ≤ second) &&
    (first ≠ 0xf4 || second ≤ 0x8f)

def illFormed : List UInt8 → Nat
  | first :: second :: third :: _ =>
    if follows first second then if 0xf0 ≤ first && continues third then 3 else 2 else 1
  | [first,second] => if follows first second then 2 else 1
  | _ => 1

def decodeFrom : Nat → List UInt8 → Text
  | 0,_ => []
  | _,[] => []
  | fuel + 1,bytes =>
    match (ByteArray.mk bytes.toArray).utf8DecodeChar? 0 with
    | some c => c :: decodeFrom fuel (bytes.drop c.utf8Size)
    | none => Char.ofNat 0xfffd :: decodeFrom fuel (bytes.drop (illFormed bytes))

/-- `bytes.decode("utf-8", "replace")`. -/
def decodeReplace (bytes : List UInt8) : Text := decodeFrom bytes.length bytes

/-- `unquote(text)`. -/
def unquote (text : Text) : Text :=
  (text.splitBy fun a b => Text.isAscii a = Text.isAscii b).flatMap fun part =>
    if part.all Text.isAscii then decodeReplace (unquoteToBytes part) else part

/-! ### The round trip -/

theorem hexValue_hexUpper : ∀ n < 16,hexValue (hexUpper n) = some n := by decide

theorem ascii_quoteByte : ∀ n < 256,(quoteByte (UInt8.ofNat n)).all Text.isAscii = true := by
  decide +kernel

theorem unquoteToBytes_plain (c : Char) (rest : Text) (plain : c ≠ '%') :
    unquoteToBytes (c :: rest) = UInt8.ofNat c.toNat :: unquoteToBytes rest := by
  conv_lhs => unfold unquoteToBytes
  split <;> simp_all

theorem safe_plain : ∀ n < 256,isSafe (UInt8.ofNat n) = true →
    Char.ofNat n ≠ '%' ∧ (Char.ofNat n).toNat = n := by
  decide +kernel

theorem unquoteToBytes_quoteByte (b : UInt8) (rest : Text) :
    unquoteToBytes (quoteByte b ++ rest) = b :: unquoteToBytes rest := by
  have small := b.toNat_lt
  unfold quoteByte
  split
  · next safe =>
    have ⟨plain,value⟩ := safe_plain b.toNat small (by simpa using safe)
    rw [List.singleton_append,unquoteToBytes_plain _ _ plain,value]
    simp
  · have high := hexValue_hexUpper (b.toNat / 16) (by omega)
    have low := hexValue_hexUpper (b.toNat % 16) (by omega)
    have whole : 16 * (b.toNat / 16) + b.toNat % 16 = b.toNat := Nat.div_add_mod _ _
    rw [List.cons_append,List.cons_append,List.cons_append,List.nil_append,unquoteToBytes]
    simp [high,low,whole]

theorem unquoteToBytes_quote (bytes : List UInt8) :
    unquoteToBytes (bytes.flatMap quoteByte) = bytes := by
  induction bytes with
  | nil => simp [unquoteToBytes]
  | cons b rest ih => rw [List.flatMap_cons,unquoteToBytes_quoteByte,ih]

theorem encode_cons (c : Char) (rest : Text) : (encodeUtf8 (c :: rest)).data.toList =
    (String.utf8EncodeChar c) ++ (encodeUtf8 rest).data.toList := by
  simp [encodeUtf8,String.toByteArray_ofList,List.utf8Encode]

theorem decodeFrom_encode (text : Text) (fuel : Nat)
    (enough : (encodeUtf8 text).data.toList.length ≤ fuel) :
    decodeFrom fuel (encodeUtf8 text).data.toList = text := by
  induction text generalizing fuel with
  | nil => cases fuel <;> simp [decodeFrom,encodeUtf8]
  | cons c rest ih =>
    have size := c.utf8Size_pos
    have long : (String.utf8EncodeChar c).length = c.utf8Size := by simp
    rw [encode_cons,List.length_append,long] at enough
    obtain ⟨fuel,rfl⟩ : ∃ n,fuel = n + 1 := ⟨fuel - 1,by omega⟩
    have first : (ByteArray.mk (encodeUtf8 (c :: rest)).data.toList.toArray).utf8DecodeChar? 0 =
        some c := by
      have whole : (encodeUtf8 (c :: rest)).data.toList.toArray = (c :: rest).utf8Encode.data := by
        rw [Array.toArray_toList,encodeUtf8,String.toByteArray_ofList]
      rw [whole]
      exact List.utf8DecodeChar?_utf8Encode_cons
    have behind : (encodeUtf8 (c :: rest)).data.toList.drop c.utf8Size =
        (encodeUtf8 rest).data.toList := by
      rw [encode_cons,← long,List.drop_left]
    have some_ : (encodeUtf8 (c :: rest)).data.toList ≠ [] := by
      rw [encode_cons]
      exact List.append_ne_nil_of_left_ne_nil (List.ne_nil_of_length_pos (long ▸ size)) _
    obtain ⟨b,bytes,shape⟩ := List.exists_cons_of_ne_nil some_
    rw [shape] at first behind ⊢
    simp only [decodeFrom,first,behind]
    rw [ih fuel (by omega)]

@[simp] theorem decodeReplace_encode (text : Text) :
    decodeReplace (encodeUtf8 text).data.toList = text :=
  decodeFrom_encode text _ le_rfl

theorem quote_ascii (text : Text) : ∀ c ∈ quote text,Text.isAscii c = true := by
  intro c member
  obtain ⟨b,_,inside⟩ := List.mem_flatMap.mp member
  exact List.all_eq_true.mp (ascii_quoteByte b.toNat b.toNat_lt) c (by simpa using inside)

@[simp] theorem unquote_quote (text : Text) : unquote (quote text) = text := by
  have back : decodeReplace (unquoteToBytes (quote text)) = text := by
    rw [quote,unquoteToBytes_quote,decodeReplace_encode]
  by_cases empty : quote text = []
  · rw [empty] at back ⊢
    rw [← back]
    simp [unquote,unquoteToBytes,decodeReplace,decodeFrom]
  · have chain : (quote text).IsChain fun a b => Text.isAscii a = Text.isAscii b := by
      apply List.Pairwise.isChain
      exact List.pairwise_of_forall_mem_list fun a first b second =>
        (quote_ascii text a first).trans (quote_ascii text b second).symm
    have all : (quote text).all Text.isAscii = true := List.all_eq_true.mpr (quote_ascii text)
    rw [unquote,List.splitBy_of_isChain empty (by simpa using chain)]
    simp only [List.flatMap_cons,List.flatMap_nil,all,if_true,List.append_nil]
    exact back

/-! ### What a quoted text is made of -/

def isQuoted (c : Char) : Bool :=
  c.isAlphanum || c = '_' || c = '.' || c = '-' || c = '~' || c = '/' || c = '%'

theorem quoted_quoteByte : ∀ n < 256,(quoteByte (UInt8.ofNat n)).all isQuoted = true := by
  decide +kernel

theorem isQuoted_of_mem {text : Text} {c : Char} (member : c ∈ quote text) :
    isQuoted c = true := by
  obtain ⟨b,_,inside⟩ := List.mem_flatMap.mp member
  exact List.all_eq_true.mp (quoted_quoteByte b.toNat b.toNat_lt) c (by simpa using inside)

/-- A quoted text starts with a slash only where the text does. -/
theorem head_of_quote {text rest : Text} (slash : quote text = '/' :: rest) :
    ∃ behind,text = '/' :: behind := by
  have bytes := unquoteToBytes_quote (encodeUtf8 text).data.toList
  rw [← quote,slash,unquoteToBytes_plain '/' rest (by decide)] at bytes
  cases text with
  | nil => cases slash
  | cons c behind =>
    have first : (encodeUtf8 (c :: behind)).utf8DecodeChar? 0 = some c := by
      rw [encodeUtf8,String.toByteArray_ofList]
      exact List.utf8DecodeChar?_utf8Encode_cons
    have other : encodeUtf8 (c :: behind) =
        (String.utf8EncodeChar '/').toByteArray ++ (unquoteToBytes rest).toByteArray := by
      apply ByteArray.ext
      apply Array.toList_inj.mp
      rw [← bytes]
      simp
      rfl
    rw [other,ByteArray.utf8DecodeChar?_utf8EncodeChar_append] at first
    exact ⟨behind,by rw [Option.some.inj first]⟩

end LocalBook.Percent
