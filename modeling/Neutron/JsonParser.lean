import Neutron.Utf8Bytes

/-!
# The JSON parser

`JsonParser` reads bytes and rebuilds a compact text. Here it is a function of the bytes from its position
on; a fuel bounds the nesting of its recursive calls and loops. What it accepts is described by the rules of
`Reads`, a grammar with longest runs of number characters, any bytes and any escapes in strings, and nothing
asked of the bytes after a value.
-/

namespace Neutron.JsonParser

abbrev Bytes := List UInt8

/-- What is read, and the bytes after it. -/
abbrev Parsed := Except String (List Char × Bytes)

def ascii (c : Char) : UInt8 := UInt8.ofNat c.toNat

/-- `u8::is_ascii_whitespace` -/
def isAsciiWhitespace (b : UInt8) : Bool := b == 32 || b == 9 || b == 10 || b == 12 || b == 13

def isAsciiDigit (b : UInt8) : Bool := 48 ≤ b && b ≤ 57

def skipWhitespace (bytes : Bytes) : Bytes := bytes.dropWhile isAsciiWhitespace

def expect (expected : Char) : Bytes → Except String Bytes
  | b :: rest => if b = ascii expected then .ok rest else .error ("Expected '" ++ String.singleton expected ++ "'")
  | [] => .error ("Expected '" ++ String.singleton expected ++ "'")

/-- What an escape other than `u` stands for. -/
def unescaped (b : UInt8) : Char :=
  if b = ascii 'b' then '\x08' else if b = ascii 'f' then '\x0c' else if b = ascii 'n' then '\n'
  else if b = ascii 'r' then '\r' else if b = ascii 't' then '\t' else byteChar b

/-- The loop of `parse_string`. -/
def stringLoop (result : List Char) : Bytes → Parsed
  | [] => .error "Unterminated string"
  | b :: rest =>
    if b = ascii '"' then .ok ('"' :: (result ++ ['"']), rest)
    else if b = ascii '\\' then
      match rest with
      | [] => .error "Unexpected end in string escape"
      | e :: rest' =>
        -- The four bytes after a `u` are not decoded.
        if e = ascii 'u' then stringLoop (result ++ ['?']) (rest'.drop 4)
        else stringLoop (result ++ [unescaped e]) rest'
    else stringLoop (result ++ [byteChar b]) rest
termination_by bytes => bytes.length
decreasing_by
  · simp only [List.length_cons, List.length_drop]; omega
  · simp only [List.length_cons]; omega
  · simp only [List.length_cons]; omega

def parseString (bytes : Bytes) : Parsed :=
  match expect '"' bytes with
  | .error e => .error e
  | .ok rest => stringLoop [] rest

/-- The loop of `parse_number`; a sign goes on only right after an exponent letter. -/
def numberLoop : Option UInt8 → Bytes → Bytes × Bytes
  | _, [] => ([], [])
  | previous, b :: rest =>
    if isAsciiDigit b || b == ascii '.' || b == ascii 'e' || b == ascii 'E' || b == ascii '+' || b == ascii '-' then
      if (b = ascii '+' ∨ b = ascii '-') ∧ previous ≠ some (ascii 'e') ∧ previous ≠ some (ascii 'E') then ([], b :: rest)
      else (b :: (numberLoop (some b) rest).1, (numberLoop (some b) rest).2)
    else ([], b :: rest)

/-- The digits and what follows them, after an optional sign. -/
def numberRun : Bytes → Bytes × Bytes
  | [] => ([], [])
  | b :: rest =>
    if b = ascii '-' then (b :: (numberLoop (some b) rest).1, (numberLoop (some b) rest).2)
    else numberLoop none (b :: rest)

def parseNumber (bytes : Bytes) : Parsed := .ok ((numberRun bytes).1.map byteChar, (numberRun bytes).2)

def parseBool (bytes : Bytes) : Parsed :=
  match bytes.dropPrefix? (utf8 ['t', 'r', 'u', 'e']) with
  | some rest => .ok (['t', 'r', 'u', 'e'], rest)
  | none =>
    match bytes.dropPrefix? (utf8 ['f', 'a', 'l', 's', 'e']) with
    | some rest => .ok (['f', 'a', 'l', 's', 'e'], rest)
    | none => .error "Expected boolean"

def parseNull (bytes : Bytes) : Parsed :=
  match bytes.dropPrefix? (utf8 ['n', 'u', 'l', 'l']) with
  | some rest => .ok (['n', 'u', 'l', 'l'], rest)
  | none => .error "Expected null"

mutual

def parseValue : ℕ → Bytes → Parsed
  | 0, _ => .error "out of fuel"
  | fuel + 1, bytes =>
    match skipWhitespace bytes with
    | [] => .error "Unexpected end of JSON"
    | b :: rest =>
      if b = ascii '"' then parseString (b :: rest)
      else if b = ascii '{' then
        match skipWhitespace rest with
        | [] => objectLoop fuel [] []
        | c :: rest' => if c = ascii '}' then .ok (['{', '}'], rest') else objectLoop fuel [] (c :: rest')
      else if b = ascii '[' then
        match skipWhitespace rest with
        | [] => arrayLoop fuel [] []
        | c :: rest' => if c = ascii ']' then .ok (['[', ']'], rest') else arrayLoop fuel [] (c :: rest')
      else if b = ascii 't' ∨ b = ascii 'f' then parseBool (b :: rest)
      else if b = ascii 'n' then parseNull (b :: rest)
      else if b = ascii '-' ∨ isAsciiDigit b then parseNumber (b :: rest)
      else .error ("Unexpected character: " ++ String.singleton (byteChar b))

/-- The loop of `parse_array`. -/
def arrayLoop : ℕ → List (List Char) → Bytes → Parsed
  | 0, _, _ => .error "out of fuel"
  | fuel + 1, elements, bytes =>
    match parseValue fuel bytes with
    | .error e => .error e
    | .ok (val, rest) =>
      let elements := elements ++ [val]
      match skipWhitespace rest with
      | [] => .error "Expected ',' or ']' in array"
      | b :: rest' =>
        if b = ascii ']' then .ok ('[' :: (List.intercalate [','] elements ++ [']']), rest')
        else if b = ascii ',' then arrayLoop fuel elements (skipWhitespace rest')
        else .error "Expected ',' or ']' in array"

/-- The loop of `parse_object`. -/
def objectLoop : ℕ → List (List Char) → Bytes → Parsed
  | 0, _, _ => .error "out of fuel"
  | fuel + 1, pairs, bytes =>
    match parseString bytes with
    | .error e => .error e
    | .ok (key, rest) =>
      match expect ':' (skipWhitespace rest) with
      | .error e => .error e
      | .ok rest' =>
        match parseValue fuel (skipWhitespace rest') with
        | .error e => .error e
        | .ok (val, rest'') =>
          let pairs := pairs ++ [key ++ ':' :: val]
          match skipWhitespace rest'' with
          | [] => .error "Expected ',' or '\x7d' in object"
          | b :: more =>
            if b = ascii '}' then .ok ('{' :: (List.intercalate [','] pairs ++ ['}']), more)
            else if b = ascii ',' then objectLoop fuel pairs (skipWhitespace more)
            else .error "Expected ',' or '\x7d' in object"

end

/-- `parser.parse_value()` of a new parser. -/
def parse (s : List Char) : Parsed := parseValue (2 * (utf8 s).length + 1) (utf8 s)

def ntscJsonParse (s : List Char) : Except String (List Char) :=
  match parse s with
  | .ok (result, _) => .ok result
  | .error e => .error ("json.parse: JSON parse error: " ++ e)

def ntscJsonIsValid (s : List Char) : Bool :=
  match parse s with
  | .ok _ => true
  | .error _ => false

end Neutron.JsonParser
