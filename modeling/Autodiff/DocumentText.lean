import Autodiff.Decimal
import Autodiff.Document

namespace Autodiff

namespace Document

/-- Sets a field; a field of the same name is replaced, so that the last of several counts. -/
def setField {α : Type} (name : String) (value : Document α) :
    List (String × Document α) → List (String × Document α)
  | [] => [(name, value)]
  | (other, old) :: rest =>
    if other = name then (name, value) :: rest else (other, old) :: setField name value rest

def skipBlanks (cs : List Char) : List Char :=
  cs.dropWhile fun c => c == ' ' || c == '\n' || c == '\t' || c == '\r'

def digitsValue (ds : List Char) : Nat := ds.foldl (fun n c => 10 * n + (c.toNat - '0'.toNat)) 0

def hexDigit (c : Char) : Nat :=
  if c.isDigit then c.toNat - '0'.toNat else c.toLower.toNat - 'a'.toNat + 10

def hexValue (ds : List Char) : Nat := ds.foldl (fun n c => 16 * n + hexDigit c) 0

/-- Reads what follows an opening quote, up to the closing one. -/
def readText : List Char → List Char → Option (String × List Char)
  | acc, '"' :: cs => some (String.ofList acc.reverse, cs)
  | acc, '\\' :: 'n' :: cs => readText ('\n' :: acc) cs
  | acc, '\\' :: 't' :: cs => readText ('\t' :: acc) cs
  | acc, '\\' :: 'r' :: cs => readText ('\r' :: acc) cs
  | acc, '\\' :: 'b' :: cs => readText (Char.ofNat 8 :: acc) cs
  | acc, '\\' :: 'f' :: cs => readText (Char.ofNat 12 :: acc) cs
  | acc, '\\' :: 'u' :: a :: b :: c :: d :: cs =>
    let unit := hexValue [a, b, c, d]
    match cs with
    | '\\' :: 'u' :: e :: f :: g :: h :: rest =>
      let second := hexValue [e, f, g, h]
      if 0xd800 ≤ unit ∧ unit < 0xdc00 ∧ 0xdc00 ≤ second ∧ second < 0xe000 then
        readText (Char.ofNat (0x10000 + (unit - 0xd800) * 0x400 + (second - 0xdc00)) :: acc) rest
      else readText (Char.ofNat unit :: acc) ('\\' :: 'u' :: e :: f :: g :: h :: rest)
    | cs => readText (Char.ofNat unit :: acc) cs
  | acc, '\\' :: c :: cs => readText (c :: acc) cs
  | acc, c :: cs => readText (c :: acc) cs
  | _, [] => none

/-- The power of ten after a number, if there is one. -/
def readExponent : List Char → Option Int × List Char
  | c :: cs =>
    if c == 'e' || c == 'E' then
      let (negative, cs) := match cs with
        | '-' :: cs => (true, cs)
        | '+' :: cs => (false, cs)
        | cs => (false, cs)
      let magnitude : Int := digitsValue (cs.takeWhile Char.isDigit)
      (some (if negative then -magnitude else magnitude), cs.dropWhile Char.isDigit)
    else (none, c :: cs)
  | [] => (none, [])

/-- A number without sign. One with neither point nor exponent is whole; a negative zero is not,
because only a floating-point number keeps its sign. -/
def readMagnitude (negative : Bool) (cs : List Char) : Option (Document Float × List Char) :=
  let whole := cs.takeWhile Char.isDigit
  let rest := cs.dropWhile Char.isDigit
  let (fraction, rest) := match rest with
    | '.' :: rest => (some (rest.takeWhile Char.isDigit), rest.dropWhile Char.isDigit)
    | rest => (none, rest)
  let (exponent, rest) := readExponent rest
  let mantissa := digitsValue (whole ++ fraction.getD [])
  if whole.isEmpty then none
  else if fraction.isNone && exponent.isNone && !(negative && mantissa == 0) then
    some (.integer (if negative then -(mantissa : Int) else mantissa), rest)
  else
    let scale : Int := exponent.getD 0 - (fraction.getD []).length
    let x := Float.ofScientific mantissa (scale < 0) scale.natAbs
    some (.real (if negative then -x else x), rest)

def readNumber : List Char → Option (Document Float × List Char)
  | '-' :: cs => readMagnitude true cs
  | cs => readMagnitude false cs

mutual

/-- Reads one tree of data from the front of a text. The budget bounds the trees, items and
fields read; every one of them takes up a character. -/
def readTree : Nat → List Char → Option (Document Float × List Char)
  | 0, _ => none
  | budget + 1, cs =>
    match skipBlanks cs with
    | '\x7b' :: cs =>
      match skipBlanks cs with
      | '\x7d' :: cs => some (.object [], cs)
      | cs => readFields budget [] cs
    | '[' :: cs =>
      match skipBlanks cs with
      | ']' :: cs => some (.list [], cs)
      | cs => readItems budget [] cs
    | '"' :: cs => do
      let (s, cs) ← readText [] cs
      return (.text s, cs)
    | 't' :: 'r' :: 'u' :: 'e' :: cs => some (.bool true, cs)
    | 'f' :: 'a' :: 'l' :: 's' :: 'e' :: cs => some (.bool false, cs)
    | 'n' :: 'u' :: 'l' :: 'l' :: cs => some (.null, cs)
    | cs => readNumber cs

def readItems : Nat → List (Document Float) → List Char → Option (Document Float × List Char)
  | 0, _, _ => none
  | budget + 1, acc, cs => do
    let (item, cs) ← readTree budget cs
    match skipBlanks cs with
    | ',' :: cs => readItems budget (item :: acc) cs
    | ']' :: cs => some (.list (item :: acc).reverse, cs)
    | _ => none

def readFields : Nat → List (String × Document Float) → List Char →
    Option (Document Float × List Char)
  | 0, _, _ => none
  | budget + 1, acc, cs =>
    match skipBlanks cs with
    | '"' :: cs => do
      let (name, cs) ← readText [] cs
      match skipBlanks cs with
      | ':' :: cs => do
        let (value, cs) ← readTree budget cs
        let acc := setField name value acc
        match skipBlanks cs with
        | ',' :: cs => readFields budget acc cs
        | '\x7d' :: cs => some (.object acc, cs)
        | _ => none
      | _ => none
    | _ => none

end

/-- The tree of data that a text stands for. -/
def parse (s : String) : Option (Document Float) := do
  let cs := s.toList
  let (d, rest) ← readTree (2 * cs.length + 1) cs
  if (skipBlanks rest).isEmpty then some d else none

/-- A floating-point number, among them the special values, which are written as texts. -/
def float? : Document Float → Option Float
  | .integer n => some (Float.ofInt n)
  | .real x => some x
  | .text "NaN" => some (0.0 / 0.0)
  | .text "inf" => some (1.0 / 0.0)
  | .text "-inf" => some (-1.0 / 0.0)
  | .text "-0" => some (-0.0)
  | _ => none

def quote (s : String) : String :=
  let escape (c : Char) : String :=
    if c == '"' then "\\\""
    else if c == '\\' then "\\\\"
    else if c == '\n' then "\\n"
    else if c.toNat < 32 then
      let hex := Nat.toDigits 16 c.toNat
      "\\u" ++ String.ofList (List.replicate (4 - hex.length) '0' ++ hex)
    else c.toString
  "\"" ++ String.join (s.toList.map escape) ++ "\""

/-- A number with the fewest digits that read back. Infinities, undefined values and negative
zero are written as texts. -/
def renderFloat (x : Float) : String :=
  if x.isNaN || x.isInf || (x == 0 && signBit x) then quote (floatText x)
  else floatScientific x

mutual

def render : Document Float → String
  | .null => "null"
  | .bool b => if b then "true" else "false"
  | .integer n => toString n
  | .real x => renderFloat x
  | .text s => quote s
  | .list items => "[" ++ ",".intercalate (renderItems items) ++ "]"
  | .object fields => "\x7b" ++ ",".intercalate (renderFields fields) ++ "\x7d"

def renderItems : List (Document Float) → List String
  | [] => []
  | d :: rest => render d :: renderItems rest

def renderFields : List (String × Document Float) → List String
  | [] => []
  | (name, d) :: rest => (quote name ++ ":" ++ render d) :: renderFields rest

end

end Document

end Autodiff
