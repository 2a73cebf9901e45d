import LocalBook.Decimal

/-! JSON request data and the values SQLite stores of it. -/
namespace LocalBook.Reader

/-- A JSON value. A float is kept as its text, with whether it is zero. A string that escapes
a lone surrogate is no text. -/
inductive Json where
  | null
  | bool (value : Bool)
  | int (value : Int)
  | float (text : Text) (zero : Bool)
  | str (text : Text)
  | surrogates
  | arr (items : List Json)
  | obj (fields : List (Text × Json))

namespace Json

def truthy : Json → Bool
  | .null => false
  | .bool value => value
  | .int value => value ≠ 0
  | .float _ zero => !zero
  | .str text => text ≠ []
  | .surrogates => true
  | .arr items => !items.isEmpty
  | .obj fields => !fields.isEmpty

/-- Python's `first or second`. -/
def or (first second : Json) : Json := if first.truthy then first else second

end Json

/-- The `data` of an operation. -/
abbrev Data := List (Text × Json)

namespace Data

/-- `data.get(key, default)`. -/
def getD (data : Data) (key : String) (default : Json) : Json :=
  (data.lookup key.toList).getD default

/-- `data.get(key)`. -/
def get (data : Data) (key : String) : Json := data.getD key .null

def contains (data : Data) (key : String) : Bool := (data.lookup key.toList).isSome

end Data

/-- A stored value. The text `json.dumps` makes is kept undumped. -/
inductive Value where
  | null
  | int (value : Int)
  | real (text : Text)
  | text (text : Text)
  | dumped (json : Json)

namespace Value

/-- What a `TEXT` column keeps of a bound value. -/
def textAffinity : Value → Value
  | .int value => .text (Decimal.render value)
  | .real chars => .text chars
  | other => other

def isNull : Value → Bool
  | .null => true
  | _ => false

def text? : Value → Option Text
  | .text chars => some chars
  | _ => none

/-- `CHECK (column IN (…))`, which a null passes. -/
def isIn (value : Value) (allowed : List String) : Bool :=
  match value with
  | .null => true
  | .text chars => chars ∈ allowed.map String.toList
  | _ => false

/-- `COALESCE(new, old)`. -/
def coalesce (new old : Value) : Value := if new.isNull then old else new

end Value

inductive ReaderErrorCode where
  | invalidOperation
  | syncConflict
  | batchTooLarge
  | deviceNotFound
  | invalidCursor
  | sessionNotFound
  | conversationNotFound
  | aiUnavailable
  | webSearchUnavailable
  | invalidRequest
deriving Repr,DecidableEq

/-- The meta data of a conflict. -/
structure SyncConflict where
  entityId : Text
  reason : String
deriving Repr,DecidableEq

structure ReaderError where
  code : ReaderErrorCode
  message : String
  conflict : Option SyncConflict := none
deriving Repr,DecidableEq

/-- What a database call raises: a domain error, or an exception nothing wraps. -/
inductive Fault where
  | reader (error : ReaderError)
  | unwrapped (what : String)
deriving Repr,DecidableEq

def storable (value : Int) : Bool := -(2 ^ 63) ≤ value && value < 2 ^ 63

def bindParam : Json → Except Fault Value
  | .null => .ok .null
  | .bool value => .ok (.int (if value then 1 else 0))
  | .int value =>
    if storable value then .ok (.int value)
    else .error (.unwrapped "OverflowError")
  | .float text _ => .ok (.real text)
  | .str text => .ok (.text text)
  | .surrogates => .error (.unwrapped "UnicodeEncodeError")
  | .arr _ | .obj _ => .error (.unwrapped "ProgrammingError")

/-- Binding a parameter of a `TEXT` column. -/
def bindText (json : Json) : Except Fault Value := Value.textAffinity <$> bindParam json

end LocalBook.Reader
