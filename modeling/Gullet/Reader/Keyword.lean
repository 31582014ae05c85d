import Gullet.Reader

/-!
# Keywords and relations

Keywords are written with letters of either case, and may have spaces in front. If a keyword does not
come next, all that was read for it, except the spaces, is put back.
-/

namespace Gullet.Stream

/-- Whether a token matches a character of a keyword. -/
def matchesKeyword (want : Char) : TokenValue → Bool
  | .char .letter c | .char .other c => c.toLower = want.toLower
  | _ => false

/-- Takes the remaining characters of a keyword, of which `taken` has been taken, last first. -/
def takeKeyword (s : Stream) : List Char → List Token → Run Bool
  | [], _ => return true
  | want :: rest, taken => do
    match ← s with
    | none =>
      taken.forM Run.pushBack
      return false
    | some t =>
      if matchesKeyword want t.value then takeKeyword s rest (t :: taken)
      else
        (t :: taken).forM Run.pushBack
        return false

/-- Takes a keyword if it comes next, and tells whether it did. -/
def keyword (s : Stream) (word : String) : Run Bool := do
  s.skipSpaces
  takeKeyword s word.toList []

/-- Takes an equals sign if one comes next, and spaces before it. -/
def optionalEquals (s : Stream) : Run Unit :=
  Run.loop (fun () => do
    let found ← s.take? fun
      | .char .other '=' => some true
      | .char .space _ => some false
      | _ => none
    match found with
    | some false => return .inl ()
    | _ => return .inr ()) ()

/-- Takes one of the signs `<`, `=` and `>`. -/
def relation (s : Stream) : Run Ordering := do
  s.skipSpaces
  match ← s with
  | none => Run.fail (.expected .relation none)
  | some t =>
    match t.value with
    | .char .other '<' => return .lt
    | .char .other '=' => return .eq
    | .char .other '>' => return .gt
    | _ => Run.fail (.expected .relation (some t))

end Gullet.Stream
