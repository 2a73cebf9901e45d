import Mathlib

/-! Python strings and bytes. A string is a list of characters, a byte string a
`ByteArray`; the few character tables that are not ASCII are supplied by the host. -/
namespace LocalBook

abbrev Text := List Char

abbrev Bytes := ByteArray

instance : LawfulBEq Text := inferInstance

namespace Text

def isAscii (c : Char) : Bool := c.val < 128

/-- `str.isspace` of one character, the class `\s` of Python's `re`. -/
def isSpace (c : Char) : Bool :=
  let n := c.val
  (9 ≤ n && n ≤ 13) || (28 ≤ n && n ≤ 32) || n == 0x85 || n == 0xa0 || n == 0x1680 ||
    (0x2000 ≤ n && n ≤ 0x200a) || n == 0x2028 || n == 0x2029 || n == 0x202f ||
    n == 0x205f || n == 0x3000

def lstripBy (drop : Char → Bool) (t : Text) : Text := t.dropWhile drop

def rstripBy (drop : Char → Bool) (t : Text) : Text := (t.reverse.dropWhile drop).reverse

def stripBy (drop : Char → Bool) (t : Text) : Text := rstripBy drop (lstripBy drop t)

def strip (t : Text) : Text := stripBy isSpace t

/-- `len(t.encode("utf-8"))`. -/
def utf8Length (t : Text) : Nat := (t.map Char.utf8Size).sum

def startsWith (t pre : Text) : Bool := pre.isPrefixOf t

def endsWith (t suffix : Text) : Bool := suffix.isSuffixOf t

def removePrefix (t pre : Text) : Text := if startsWith t pre then t.drop pre.length else t

def split (separator : Char) (t : Text) : List Text := t.splitOn separator

def join (separator : Text) (parts : List Text) : Text := separator.intercalate parts

def asciiLower (c : Char) : Char := if 'A' ≤ c ∧ c ≤ 'Z' then Char.ofNat (c.toNat + 32) else c

def asciiUpper (c : Char) : Char := if 'a' ≤ c ∧ c ≤ 'z' then Char.ofNat (c.toNat - 32) else c

theorem join_split (separator : Char) (t : Text) :
    join [separator] (split separator t) = t := List.intercalate_splitOn separator

theorem split_injective (separator : Char) : Function.Injective (split separator) :=
  Function.LeftInverse.injective (g := join [separator]) (join_split separator)

end Text

/-- Case mapping and normalisation of the Python runtime, known on ASCII text. -/
class Host where
  lower : Text → Text
  upper : Text → Text
  casefold : Text → Text
  nfc : Text → Text
  lower_ascii : ∀ t : Text, t.all Text.isAscii → lower t = t.map Text.asciiLower
  upper_ascii : ∀ t : Text, t.all Text.isAscii → upper t = t.map Text.asciiUpper
  casefold_ascii : ∀ t : Text, t.all Text.isAscii → casefold t = t.map Text.asciiLower
  nfc_ascii : ∀ t : Text, t.all Text.isAscii → nfc t = t

namespace AsciiHost

scoped instance host : Host where
  lower := List.map Text.asciiLower
  upper := List.map Text.asciiUpper
  casefold := List.map Text.asciiLower
  nfc := id
  lower_ascii _ _ := rfl
  upper_ascii _ _ := rfl
  casefold_ascii _ _ := rfl
  nfc_ascii _ _ := rfl

end AsciiHost

/-- `text.encode("utf-8")`. -/
def encodeUtf8 (t : Text) : Bytes := (String.ofList t).toByteArray

/-- `data.decode("utf-8")`, which refuses ill-formed bytes. -/
def decodeUtf8 (data : Bytes) : Option Text := data.utf8Decode?.map Array.toList

@[simp] theorem decodeUtf8_encodeUtf8 (t : Text) : decodeUtf8 (encodeUtf8 t) = some t := by
  simp [decodeUtf8,encodeUtf8,String.toByteArray_ofList]

theorem encodeUtf8_of_decodeUtf8 {data : Bytes} {t : Text} (decoded : decodeUtf8 data = some t) :
    encodeUtf8 t = data := by
  obtain ⟨chars,found,rfl⟩ := Option.map_eq_some_iff.mp decoded
  have valid : data.utf8Decode?.isSome := by simp [found]
  have back := ByteArray.utf8Encode_get_utf8Decode? (b := data) (h := valid)
  simpa [encodeUtf8,String.toByteArray_ofList,found] using back

end LocalBook
