import SyntaxTree.Json.Loop

/-!
Skipping a value of which only the grammar matters. The open brackets are kept on a stack, so a value may
nest as deeply as its text allows.
-/

namespace SyntaxTree.Json

inductive Bracket where
  | array
  | object
deriving DecidableEq

/-- Goes to the next item inside a bracket, also past the name of a member, or past the closing bracket. -/
def nextSkipped (bracket : Bracket) (first : Bool) (cs : List Char) : Except Fault (Next × List Char) :=
  match bracket with
  | .array => nextElement first cs
  | .object => do
    let (next, cs) ← nextMember first cs
    match next with
    | .close => .ok (.close, cs)
    | .item => do
      let (_, cs) ← readString .grammar cs
      let cs ← colon cs
      .ok (.item, cs)

mutual

/-- Skips a value and all that follows it inside the open brackets. -/
def skipValue : Nat → List Bracket → List Char → Except Fault (List Char)
  | 0, _, _ => .error .malformed
  | fuel + 1, stack, cs => do
    let (token, cs) ← readToken .grammar cs
    match token with
    | .scalar _ => skipItems fuel false stack cs
    | .openArray => skipItems fuel true (.array :: stack) cs
    | .openObject => skipItems fuel true (.object :: stack) cs

/-- Skips what follows inside the open brackets; `first` tells that nothing precedes it in the innermost
one. -/
def skipItems : Nat → Bool → List Bracket → List Char → Except Fault (List Char)
  | _, _, [], cs => .ok cs
  | 0, _, _ :: _, _ => .error .malformed
  | fuel + 1, first, bracket :: stack, cs => do
    let (next, cs) ← nextSkipped bracket first cs
    match next with
    | .close => skipItems fuel false stack cs
    | .item => skipValue fuel (bracket :: stack) cs

end

/-- Skips one value. Two steps take a character at least, so `bound` may be any number above the length of
the text. -/
def skip (bound : Nat) (cs : List Char) : Except Fault (List Char) := skipValue (2 * bound) [] cs

end SyntaxTree.Json
