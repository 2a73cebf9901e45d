import LocalBook.Text

/-! SHA-256 over byte strings, as Python's `hashlib` computes it, and the digest
form `sha256:<lowercase hex>` every component stores. -/
namespace LocalBook.Sha256

/-- Words are naturals below `2^32`. -/
abbrev Word := Nat

def wordSize : Nat := 4294967296

def add (a b : Word) : Word := (a + b) % wordSize

def rotr (a : Word) (n : Nat) : Word := (a >>> n) ||| ((a <<< (32 - n)) % wordSize)

def complement (a : Word) : Word := 4294967295 - a

def roundConstants : List Word :=
  [0x428a2f98,0x71374491,0xb5c0fbcf,0xe9b5dba5,0x3956c25b,0x59f111f1,0x923f82a4,0xab1c5ed5,
   0xd807aa98,0x12835b01,0x243185be,0x550c7dc3,0x72be5d74,0x80deb1fe,0x9bdc06a7,0xc19bf174,
   0xe49b69c1,0xefbe4786,0x0fc19dc6,0x240ca1cc,0x2de92c6f,0x4a7484aa,0x5cb0a9dc,0x76f988da,
   0x983e5152,0xa831c66d,0xb00327c8,0xbf597fc7,0xc6e00bf3,0xd5a79147,0x06ca6351,0x14292967,
   0x27b70a85,0x2e1b2138,0x4d2c6dfc,0x53380d13,0x650a7354,0x766a0abb,0x81c2c92e,0x92722c85,
   0xa2bfe8a1,0xa81a664b,0xc24b8b70,0xc76c51a3,0xd192e819,0xd6990624,0xf40e3585,0x106aa070,
   0x19a4c116,0x1e376c08,0x2748774c,0x34b0bcb5,0x391c0cb3,0x4ed8aa4a,0x5b9cca4f,0x682e6ff3,
   0x748f82ee,0x78a5636f,0x84c87814,0x8cc70208,0x90befffa,0xa4506ceb,0xbef9a3f7,0xc67178f2]

structure Registers where
  a : Word
  b : Word
  c : Word
  d : Word
  e : Word
  f : Word
  g : Word
  h : Word
deriving Repr,DecidableEq

def initial : Registers :=
  ⟨0x6a09e667,0xbb67ae85,0x3c6ef372,0xa54ff53a,0x510e527f,0x9b05688c,0x1f83d9ab,0x5be0cd19⟩

def round (r : Registers) (constant word : Word) : Registers :=
  let s1 := rotr r.e 6 ^^^ rotr r.e 11 ^^^ rotr r.e 25
  let choice := (r.e &&& r.f) ^^^ (complement r.e &&& r.g)
  let t1 := (r.h + s1 + choice + constant + word) % wordSize
  let s0 := rotr r.a 2 ^^^ rotr r.a 13 ^^^ rotr r.a 22
  let majority := (r.a &&& r.b) ^^^ (r.a &&& r.c) ^^^ (r.b &&& r.c)
  ⟨add t1 (add s0 majority),r.a,r.b,r.c,add r.d t1,r.e,r.f,r.g⟩

def extend : Nat → List Word → List Word
  | 0, words => words
  | n + 1, words =>
    let w15 := words.getD 14 0
    let w2 := words.getD 1 0
    let s0 := rotr w15 7 ^^^ rotr w15 18 ^^^ (w15 >>> 3)
    let s1 := rotr w2 17 ^^^ rotr w2 19 ^^^ (w2 >>> 10)
    extend n (((words.getD 15 0 + s0 + words.getD 6 0 + s1) % wordSize) :: words)

def compress (r : Registers) (block : List Word) : Registers :=
  let schedule := (extend 48 block.reverse).reverse
  let out := (roundConstants.zip schedule).foldl (fun r (k,w) => round r k w) r
  ⟨add r.a out.a,add r.b out.b,add r.c out.c,add r.d out.d,
    add r.e out.e,add r.f out.f,add r.g out.g,add r.h out.h⟩

def bigEndian : Nat → Nat → List Nat
  | 0, _ => []
  | n + 1, value => (value >>> (8 * n)) % 256 :: bigEndian n value

def pad (message : List Nat) : List Nat :=
  message ++ 0x80 :: List.replicate ((119 - message.length % 64) % 64) 0 ++
    bigEndian 8 (8 * message.length)

def words : List Nat → List Word
  | a :: b :: c :: d :: rest => (((a * 256 + b) * 256 + c) * 256 + d) :: words rest
  | _ => []

def blocks : Nat → List Word → List (List Word)
  | 0, _ => []
  | n + 1, rest => rest.take 16 :: blocks n (rest.drop 16)

def digestWords (message : List Nat) : List Word :=
  let padded := words (pad message)
  let r := (blocks (padded.length / 16) padded).foldl compress initial
  [r.a,r.b,r.c,r.d,r.e,r.f,r.g,r.h]

def hexDigits : List Char := "0123456789abcdef".toList

def hexDigit (n : Nat) : Char := hexDigits.getD (n % 16) '0'

/-- `hashlib.sha256(data).hexdigest()`. -/
@[irreducible] def hexdigest (data : Bytes) : Text :=
  (digestWords (data.data.toList.map UInt8.toNat)).flatMap fun word =>
    (bigEndian 4 word).flatMap fun byte => [hexDigit (byte / 16),hexDigit byte]

theorem hexDigit_mem (n : Nat) : hexDigit n ∈ hexDigits := by
  have small : n % 16 < hexDigits.length := Nat.mod_lt _ (by decide)
  rw [hexDigit,List.getD_eq_getElem _ _ small]
  exact List.getElem_mem small

theorem mem_hexdigest {data : Bytes} {c : Char} (found : c ∈ hexdigest data) :
    c ∈ hexDigits := by
  unfold hexdigest at found
  simp only [List.mem_flatMap,List.mem_cons,List.not_mem_nil,or_false] at found
  obtain ⟨_,_,_,_,rfl | rfl⟩ := found <;> exact hexDigit_mem _

example : hexdigest "abc".toUTF8 =
    "ba7816bf8f01cfea414140de5dae2223b00361a396177a9cb410ff61f20015ad".toList := by
  decide +kernel

end LocalBook.Sha256

namespace LocalBook

/-- `sha256_bytes`: the canonical digest of some content. -/
def sha256Bytes (data : Bytes) : Text := "sha256:".toList ++ Sha256.hexdigest data

/-- `_canonical_digest`. -/
def canonicalDigest [Host] (value : Text) : Text :=
  let text := Host.lower value
  if text.startsWith "sha256:".toList then text else "sha256:".toList ++ text

theorem lowercase_hexDigits : ∀ c ∈ "sha256:".toList ++ Sha256.hexDigits,
    Text.isAscii c ∧ Text.asciiLower c = c := by
  -- As a boolean, since deciding the statement may range over every character.
  have each : ("sha256:".toList ++ Sha256.hexDigits).all fun c =>
      decide (Text.isAscii c ∧ Text.asciiLower c = c) := by decide
  exact fun c found => of_decide_eq_true (List.all_eq_true.mp each c found)

theorem lower_sha256Bytes [Host] (data : Bytes) :
    Host.lower (sha256Bytes data) = sha256Bytes data := by
  have plain : ∀ c ∈ sha256Bytes data, Text.isAscii c ∧ Text.asciiLower c = c := by
    intro c found
    rcases List.mem_append.mp found with label | digit
    · exact lowercase_hexDigits c (List.mem_append_left _ label)
    · exact lowercase_hexDigits c (List.mem_append_right _ (Sha256.mem_hexdigest digit))
  rw [Host.lower_ascii _ (List.all_eq_true.mpr fun c found => (plain c found).1)]
  exact (List.map_congr_left fun c found => (plain c found).2).trans (List.map_id _)

@[simp] theorem canonicalDigest_sha256Bytes [Host] (data : Bytes) :
    canonicalDigest (sha256Bytes data) = sha256Bytes data := by
  have labelled : Text.startsWith (sha256Bytes data) "sha256:".toList = true :=
    List.isPrefixOf_iff_prefix.mpr (List.prefix_append _ _)
  simp only [canonicalDigest,lower_sha256Bytes,labelled,if_true]

theorem sha256Bytes_ne_nil (data : Bytes) : sha256Bytes data ≠ [] :=
  List.append_ne_nil_of_left_ne_nil (by decide) _

end LocalBook
