import SyntaxTree.Json.Token

/-!
Going through the items of an array and the members of an object. The two loops carry a state along and
read each item or member by a given step, so that the same loops collect values, skip them or fill in a
record. They stop at the closing bracket; their fuel is a bound on the number of items.
-/

namespace SyntaxTree.Json

/-- What comes next inside brackets. -/
inductive Next where
  | item
  | close
deriving DecidableEq

/-- Goes to the next item of an array, past the comma in front of all but the first, or past the closing
bracket. -/
def nextElement (first : Bool) (cs : List Char) : Except Fault (Next × List Char) :=
  match skipBlanks cs with
  | [] => .error .endOfText
  | c :: cs =>
    if c = ']' then .ok (.close, cs)
    else if first then .ok (.item, c :: cs)
    else if c = ',' then
      match skipBlanks cs with
      | [] => .error .endOfText
      | d :: cs => if d = ']' then .error .malformed else .ok (.item, d :: cs)
    else .error .malformed

/-- Goes past the quote in front of a name. -/
def openName : List Char → Except Fault (Next × List Char)
  | [] => .error .endOfText
  | c :: cs => if c = '"' then .ok (.item, cs) else .error .malformed

/-- Goes to the next member of an object, past the quote in front of its name, or past the closing
bracket. -/
def nextMember (first : Bool) (cs : List Char) : Except Fault (Next × List Char) :=
  match skipBlanks cs with
  | [] => .error .endOfText
  | c :: cs =>
    if c = '}' then .ok (.close, cs)
    else if first then openName (c :: cs)
    else if c = ',' then openName (skipBlanks cs)
    else .error .malformed

/-- Goes past the colon between a name and its value. -/
def colon (cs : List Char) : Except Fault (List Char) :=
  match skipBlanks cs with
  | [] => .error .endOfText
  | c :: cs => if c = ':' then .ok cs else .error .malformed

/-- Reads the items of an array up to its closing bracket. -/
def elements {σ : Type} (step : σ → Reader σ) : Nat → Bool → σ → Reader σ
  | 0, _, _, _ => .error .malformed
  | fuel + 1, first, state, cs => do
    let (next, cs) ← nextElement first cs
    match next with
    | .close => .ok (state, cs)
    | .item => do
      let (state, cs) ← step state cs
      elements step fuel false state cs

/-- Reads the members of an object up to its closing bracket. A step is given the name of a member and
reads on from the colon. -/
def objectMembers {σ : Type} (step : String → σ → Reader σ) : Nat → Bool → σ → Reader σ
  | 0, _, _, _ => .error .malformed
  | fuel + 1, first, state, cs => do
    let (next, cs) ← nextMember first cs
    match next with
    | .close => .ok (state, cs)
    | .item => do
      let (name, cs) ← readString .full cs
      let (state, cs) ← step name state cs
      objectMembers step fuel false state cs

/-- A step that collects what `read` gives, last first. -/
def collect {α : Type} (read : Reader α) (items : List α) : Reader (List α) := fun cs => do
  let (item, cs) ← read cs
  .ok (item :: items, cs)

end SyntaxTree.Json
