import SyntaxTree.Json.Value
import SyntaxTree.Kind
import SyntaxTree.Text.Quoted

/-!
Why a JSON text does not load. It may end too early, break the grammar or nest too deeply; or it is well
formed so far and says the wrong thing, and then the cause tells what was found and what was expected.
-/

namespace SyntaxTree.Json

/-- What a value is, as far as a message tells. -/
inductive Found where
  | null
  | bool (value : Bool)
  | integer (value : Int)
  | float (value : Double)
  | string (value : String)
  | array
  | object
deriving DecidableEq

def Value.found : Value → Found
  | null => .null
  | bool value => .bool value
  | integer value => .integer value
  | float value => .float value
  | string value => .string value
  | array _ => .array
  | object _ => .object

namespace Found

def text : Found → String
  | null => "null"
  | bool value => "boolean `" ++ (if value then "true" else "false") ++ "`"
  | integer value => "integer `" ++ (Value.integer value).text ++ "`"
  | float value => "floating point `" ++ (Value.float value).text ++ "`"
  | string value => "string " ++ Text.quoted value
  | array => "sequence"
  | object => "map"

end Found

/-- What would have fitted. -/
inductive Expected where
  | node
  | record (kind : Kind)
  | recordItems (kind : Kind)
  | items (count : Nat)
  | nodes
  | text
  | number
  | tag
  | tagIndex
  | unit
deriving DecidableEq

def elementCount (count : Nat) : String :=
  if count = 1 then "1 element" else toString count ++ " elements"

def Expected.phrase : Expected → String
  | node => "internally tagged enum Node"
  | record kind => "struct " ++ kind.name
  | recordItems kind => "struct " ++ kind.name ++ " with " ++ elementCount kind.fields.length
  | items count => elementCount count ++ " in sequence"
  | nodes => "a sequence"
  | text => "a string"
  | number => "a number, \"NaN\", \"+Inf\" or \"-Inf\""
  | tag => "variant identifier"
  | tagIndex => "variant index 0 <= i < " ++ toString Kind.all.length
  | unit => "unit"

/-- What is wrong with the content of a text. -/
inductive Cause where
  | missingField (name : String)
  | duplicateField (name : String)
  | unknownTag (name : String)
  | invalidType (found : Found) (expected : Expected)
  | invalidValue (found : Found) (expected : Expected)
  | invalidLength (length : Nat) (expected : Expected)
  | notNumeric
deriving DecidableEq

/-- A name as messages mark it. -/
def marked (name : String) : String := "`" ++ name ++ "`"

def Cause.message : Cause → String
  | missingField name => "missing field " ++ marked name
  | duplicateField name => "duplicate field " ++ marked name
  | unknownTag name =>
    "unknown variant " ++ marked name ++ ", expected one of " ++
      ", ".intercalate (Kind.all.map fun k => marked k.name)
  | invalidType found expected => "invalid type: " ++ found.text ++ ", expected " ++ expected.phrase
  | invalidValue found expected => "invalid value: " ++ found.text ++ ", expected " ++ expected.phrase
  | invalidLength length expected =>
    "invalid length " ++ toString length ++ ", expected " ++ expected.phrase
  | notNumeric => "data did not match any variant of untagged enum Repr"

/-- Why a text does not load. -/
inductive Fault where
  | endOfText
  | malformed
  | tooDeep
  | content (cause : Cause)
deriving DecidableEq

namespace Fault

def missing (name : String) : Fault := content (.missingField name)

def duplicate (name : String) : Fault := content (.duplicateField name)

def mismatch (found : Found) (expected : Expected) : Fault := content (.invalidType found expected)

def message? : Fault → Option String
  | endOfText | malformed => none
  | tooDeep => some "recursion limit exceeded"
  | content cause => some cause.message

end Fault

end SyntaxTree.Json
