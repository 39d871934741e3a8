import TreeLang.Json.Reader

namespace TreeLang.Json

/-- The member of that key, `some none` without one, `none` where the key is repeated. -/
def member? (members : List (String × Json)) (key : String) : Option (Option Json) :=
  match members.filter (·.1 == key) with
  | [] => some none
  | [(_, x)] => some (some x)
  | _ => none

def required? (members : List (String × Json)) (key : String) : Option Json :=
  (member? members key).join

/-- A member that may be missing or null. -/
def optional? (members : List (String × Json)) (key : String) (read : Json → Option α) :
    Option (Option α) := do
  match ← member? members key with
  | none => some none
  | some .null => some none
  | some x => (read x).map some

/-- A member that may be missing and is an array otherwise. -/
def list? (members : List (String × Json)) (key : String) (read : Json → Option α) :
    Option (List α) := do
  match ← member? members key with
  | none => some []
  | some (.array xs) => xs.mapM read
  | some _ => none

/-- A record is an object with its fields as members or an array of them in their order. A key that is
known may stand in an object once, other keys are passed over; an array may end early and has no further
elements. -/
def members? (keys : List String) : Json → Option (List (String × Json))
  | .object ms => some ms
  | .array xs => if xs.length ≤ keys.length then some (keys.zip xs) else none
  | _ => none

/-- What tells the kind of a node: the member of that name, or the first element. -/
def tag? : Json → Option Json
  | .object ms => required? ms "kind"
  | .array (x :: _) => some x
  | _ => none

/-- The kind that a tag stands for, by its name or by its number among the kinds. -/
def kind? (kinds : List (String × List String)) : Json → Option String
  | .string kind => some kind
  | .number n => do
    let i ← n.int?
    if 0 ≤ i then (kinds[i.toNat]?).map (·.1) else none
  | _ => none

/-- The kind of a node and the members of the record that it is, for kinds with those fields. In an
array they stand behind the tag. -/
def node? (kinds : List (String × List String)) (j : Json) :
    Option (String × List (String × Json)) := do
  let kind ← kind? kinds (← j.tag?)
  match j with
  | .object ms => return (kind, ms)
  | .array xs => return (kind, ← members? (← kinds.lookup kind) (.array xs.tail))
  | _ => none

/-- The name of a variant without parts: alone, or as the only key of an object that holds nothing. -/
def variant? : Json → Option String
  | .string name => some name
  | .object [(name, .null)] => some name
  | .object [(name, .object [])] => some name
  | _ => none

def string? : Json → Option String
  | .string s => some s
  | _ => none

def bool? : Json → Option Bool
  | .bool b => some b
  | _ => none

def int? : Json → Option Int
  | .number n => n.int?
  | _ => none

def int32? (j : Json) : Option Int32 := do
  let n ← j.int?
  if Int32.minValue.toInt ≤ n ∧ n ≤ Int32.maxValue.toInt then some (Int32.ofInt n) else none

def double? : Json → Option Double
  | .number n => some n.double
  | _ => none

/-- Why a text is not a document of the expected shape. -/
inductive ReadError where
  | truncated
  | malformed
  | mismatch
  deriving DecidableEq

def ReadError.category : ReadError → String
  | .truncated => "eof"
  | .malformed => "syntax"
  | .mismatch => "data"

def ReadError.ofFault : Fault → ReadError
  | .truncated => .truncated
  | .malformed => .malformed

/-- Reads a whole text as a document and the document as a value. A text that is no document is told
as such, whatever else is wrong with the part of it before. -/
def decodeText (ignored : List String → Bool) (decode : Json → Except ReadError α) (text : String) :
    Except ReadError α :=
  match parse ignored text with
  | .error fault => .error (.ofFault fault)
  | .ok j => decode j

/-- What is not there does not have the expected shape. -/
def expect : Option α → Except ReadError α
  | some a => .ok a
  | none => .error .mismatch

/-- Takes the members of an object in order. A key that is known may come once. -/
def takeMembers (take : α → String → Json → Option (Except ReadError α)) (start : α) :
    List String → List (String × Json) → Except ReadError α
  | _, [] => .ok start
  | seen, (key, x) :: ms =>
    match take start key x with
    | none => takeMembers take start seen ms
    | some result =>
      if key ∈ seen then .error .mismatch
      else
        match result with
        | .error e => .error e
        | .ok next => takeMembers take next (key :: seen) ms

/-- Takes the elements of an array under the keys at their positions. -/
def takeElements (take : α → String → Json → Option (Except ReadError α)) (start : α) :
    List String → List Json → Except ReadError α
  | _, [] => .ok start
  | [], _ :: _ => .error .malformed
  | key :: keys, x :: xs =>
    match take start key x with
    | none => .error .mismatch
    | some (.error e) => .error e
    | some (.ok next) => takeElements take next keys xs

def takeAll (take : α → String → Json → Option (Except ReadError α)) (start : α)
    (keys : List String) : Json → Except ReadError α
  | .object ms => takeMembers take start [] ms
  | .array xs => takeElements take start keys xs
  | _ => .error .mismatch

end TreeLang.Json
