import LocalBook.Text

/-! Decimal integers as Python prints and reads them. `int(text)` strips blanks, takes one
sign and lets single underscores stand between digits; of the digits it reads, the ASCII
ones are modelled. -/
namespace LocalBook.Decimal

def natText (n : Nat) : Text := Nat.toDigits 10 n

/-- `str(n)`. -/
def render : Int → Text
  | .ofNat n => natText n
  | .negSucc n => '-' :: natText (n + 1)

def isDigit (c : Char) : Bool := c.isDigit

def digits (t : Text) : Option Text :=
  let groups := Text.split '_' t
  if groups.all fun group => group ≠ [] && group.all isDigit then some groups.flatten else none

def parseNat (t : Text) : Option Nat := (digits t).map fun ds => Nat.ofDigitChars 10 ds 0

/-- `int(text)`, which raises `ValueError` on anything that is not a decimal integer. -/
def parse (t : Text) : Option Int :=
  match Text.strip t with
  | '-' :: rest => (parseNat rest).map fun n => -(n : Int)
  | '+' :: rest => (parseNat rest).map Int.ofNat
  | rest => (parseNat rest).map Int.ofNat

theorem isDigit_of_mem {n : Nat} {c : Char} (found : c ∈ natText n) : c.isDigit = true :=
  Nat.isDigit_of_mem_toDigits (by omega) (by omega) found

theorem natText_ne_nil (n : Nat) : natText n ≠ [] := Nat.toDigits_ne_nil

theorem not_mem_natText {n : Nat} {c : Char} (other : c.isDigit = false) : c ∉ natText n := by
  intro found
  simp [isDigit_of_mem found] at other

theorem digits_natText (n : Nat) : digits (natText n) = some (natText n) := by
  have whole : Text.split '_' (natText n) = [natText n] :=
    List.splitOn_eq_singleton (not_mem_natText (by decide))
  have plain : (natText n).all isDigit = true :=
    List.all_eq_true.mpr fun _ found => isDigit_of_mem found
  simp [digits,whole,natText_ne_nil,plain]

@[simp] theorem parseNat_natText (n : Nat) : parseNat (natText n) = some n := by
  rw [parseNat,digits_natText,Option.map_some,natText,Nat.ofDigitChars_ten_toDigits]

theorem isSpace_of_isDigit {c : Char} (digit : c.isDigit = true) : Text.isSpace c = false := by
  simp only [Char.isDigit,Bool.and_eq_true,decide_eq_true_eq,ge_iff_le,
    UInt32.le_iff_toNat_le] at digit
  simp only [Text.isSpace,Bool.or_eq_false_iff,Bool.and_eq_false_iff,decide_eq_false_iff_not,
    beq_eq_false_iff_ne,ne_eq,UInt32.le_iff_toNat_le,← UInt32.toNat_inj]
  have zero : '0'.val.toNat = 48 := rfl
  have nine : '9'.val.toNat = 57 := rfl
  simp only [UInt32.reduceToNat]
  omega

/-- Stripping leaves a text alone that has no blank in it. -/
theorem strip_of_no_space {t : Text} (solid : ∀ c ∈ t, Text.isSpace c = false) :
    Text.strip t = t := by
  have keep : ∀ s : Text, (∀ c ∈ s, Text.isSpace c = false) → s.dropWhile Text.isSpace = s := by
    intro s free
    cases s with
    | nil => rfl
    | cons c rest => simp [free c (by simp)]
  rw [Text.strip,Text.stripBy,Text.rstripBy,Text.lstripBy,keep t solid,keep t.reverse (by simpa),
    List.reverse_reverse]

theorem isSpace_of_mem_render {n : Int} {c : Char} (found : c ∈ render n) :
    Text.isSpace c = false := by
  cases n with
  | ofNat n => exact isSpace_of_isDigit (isDigit_of_mem found)
  | negSucc n =>
    rcases List.mem_cons.mp found with rfl | digit
    · decide
    · exact isSpace_of_isDigit (isDigit_of_mem digit)

@[simp] theorem parse_render (n : Int) : parse (render n) = some n := by
  rw [parse,strip_of_no_space fun _ => isSpace_of_mem_render]
  cases n with
  | ofNat n =>
    have whole := parseNat_natText n
    simp only [render]
    cases shape : natText n with
    | nil => exact absurd shape (natText_ne_nil n)
    | cons c rest =>
      have digit : c.isDigit = true := isDigit_of_mem (n := n) (by simp [shape])
      rw [shape] at whole
      split
      · rename_i same
        simp_all
      · rename_i same
        simp_all
      · simp [whole]
  | negSucc n => simp [render,Int.negSucc_eq]

theorem not_mem_render {n : Int} {c : Char} (other : c.isDigit = false) (sign : c ≠ '-') :
    c ∉ render n := by
  cases n with
  | ofNat n => exact not_mem_natText other
  | negSucc n => simp [render,sign,not_mem_natText other]

end LocalBook.Decimal
