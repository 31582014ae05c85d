/-!
# JSON values

The values that reports and saved state are made of, and their text.
-/

namespace Gullet

/-- A JSON value. -/
inductive Json where
  | null
  | bool (b : Bool)
  | number (n : Int)
  /-- A number with the given number of decimals. -/
  | decimal (mantissa : Int) (decimals : Nat)
  | string (s : String)
  | array (items : List Json)
  /-- An object. Its keys are in order. -/
  | object (fields : List (String × Json))
deriving Inhabited

namespace Json

/-- A hexadecimal code of four digits. -/
def hexCode (n : Nat) : String :=
  let digits := Nat.toDigits 16 n
  "\\u" ++ String.ofList (List.replicate (4 - digits.length) '0' ++ digits)

/-- A character as it stands in a string: quotes, backslashes and control characters are escaped. -/
def escaped (c : Char) : String :=
  match c with
  | '"' => "\\\""
  | '\\' => "\\\\"
  | '\n' => "\\n"
  | '\r' => "\\r"
  | '\t' => "\\t"
  | '\x08' => "\\b"
  | '\x0c' => "\\f"
  | c => if c.toNat < 32 then hexCode c.toNat else c.toString

/-- A string with its quotes. -/
def quotedText (s : String) : String := "\"" ++ String.join (s.toList.map escaped) ++ "\""

/-- A number with decimals. -/
def decimalText (mantissa : Int) (decimals : Nat) : String :=
  let scale := Nat.pow 10 decimals
  let part := toString (mantissa.natAbs % scale)
  (if mantissa < 0 then "-" else "") ++ toString (mantissa.natAbs / scale) ++
    if decimals = 0 then ""
    else "." ++ String.ofList (List.replicate (decimals - part.length) '0') ++ part

mutual

/-- The value as text, without blanks. -/
def text : Json → String
  | null => "null"
  | bool b => if b then "true" else "false"
  | number n => toString n
  | decimal mantissa decimals => decimalText mantissa decimals
  | string s => quotedText s
  | array items => "[" ++ ",".intercalate (itemTexts items) ++ "]"
  | object fields => "\x7b" ++ ",".intercalate (fieldTexts fields) ++ "\x7d"

/-- The items of an array as text. -/
def itemTexts : List Json → List String
  | [] => []
  | item :: rest => text item :: itemTexts rest

/-- The fields of an object as text. -/
def fieldTexts : List (String × Json) → List String
  | [] => []
  | (key, value) :: rest => (quotedText key ++ ":" ++ text value) :: fieldTexts rest

end

/-- The value of a field of an object. The last one of a name counts. -/
def field? (fields : List (String × Json)) (key : String) : Option Json :=
  (fields.reverse.find? fun f => f.1 = key).map Prod.snd

/-- The string that a value is. -/
def string? : Json → Option String
  | string s => some s
  | _ => none

/-- The truth value that a value is. -/
def bool? : Json → Option Bool
  | bool b => some b
  | _ => none

/-- The natural number that a value is, if it is less than `bound`. -/
def natural? (bound : Nat) : Json → Option Nat
  | number n => if 0 ≤ n && n < bound then some n.toNat else none
  | _ => none

/-- The values of the named fields: those of an object, or the items of an array of that length. A field
with a default value may be absent in an object. -/
def fields? (names : List (String × Option Json)) : Json → Option (List Json)
  | object fields => names.mapM fun (name, default) => (field? fields name).or default
  | array items => if items.length = names.length then some items else none
  | _ => none

/-- The case of a choice that a value is, with what the case carries. -/
def case? : Json → Option (String × Json)
  | string name => some (name, null)
  | object [(name, content)] => some (name, content)
  | _ => none

/-- The element that is named by a value, among those whose names are given. -/
def named? {α : Type} (name : α → String) (all : List α) (j : Json) : Option α :=
  match case? j with
  | some (s, null) => all.find? fun a => name a = s
  | _ => none

end Json

end Gullet
