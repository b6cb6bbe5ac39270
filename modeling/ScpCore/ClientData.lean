import ScpCore.ExactRead

/-! The strict validator of the client data of an assertion. It walks the bytes with an explicit
stack of the open containers and remembers the two members of the top-level object that a verifier
reads. A loop is given a number of passes; running out of them is an outcome of its own. -/

namespace ScpCore.Kel.ClientData

abbrev Text := List Char

structure ClientDataMembers where
  clientDataType : Text
  challenge : Text
  deriving DecidableEq

inductive ClientDataError
  | byteOrderMark
  | invalidUtf8 (offset : ℕ)
  | unexpectedEnd
  | unexpectedByte (offset : ℕ) (byte : UInt8)
  | topLevelNotObject
  | trailingContent (offset : ℕ)
  | unescapedControl (offset : ℕ)
  | invalidEscape (offset : ℕ)
  | loneSurrogate (offset : ℕ)
  | invalidNumber (offset : ℕ)
  | duplicateMember (offset : ℕ)
  | missingType
  | typeNotString
  | missingChallenge
  | challengeNotString
  deriving DecidableEq

/-- Why a run has no result: it was refused, or its passes ran out. -/
inductive Stop
  | refused (err : ClientDataError)
  | running
  deriving DecidableEq

abbrev Run := Except Stop

def refuse {α : Type} (err : ClientDataError) : Run α := .error (.refused err)

inductive Container
  | object (names : List Text)
  | array
  deriving DecidableEq

/-- What the grammar admits next. -/
inductive Next
  | value | firstKeyOrClose | key | firstValueOrClose | afterValue
  deriving DecidableEq

inductive TopLevel
  | absent
  | string (value : Text)
  | notString
  deriving DecidableEq

/-- The state over one input. The bytes are those from the position on, and the innermost container
is the first of the stack. -/
structure Validator where
  rest : Bytes
  pos : ℕ
  stack : List Container
  topMember : Option Text
  clientDataType : TopLevel
  challenge : TopLevel
  deriving DecidableEq

/-- The byte of an ASCII character. -/
def ascii (c : Char) : UInt8 := c.toNat.toUInt8

def isWhitespace (byte : UInt8) : Bool :=
  byte == ascii ' ' || byte == ascii '\t' || byte == ascii '\n' || byte == ascii '\r'

def isDigit (byte : UInt8) : Bool := ascii '0' ≤ byte && byte ≤ ascii '9'

/-- `char::to_digit(16)` of a byte. -/
def toHexDigit (byte : UInt8) : Option ℕ :=
  if isDigit byte then some (byte.toNat-48)
  else if ascii 'a' ≤ byte ∧ byte ≤ ascii 'f' then some (byte.toNat-87)
  else if ascii 'A' ≤ byte ∧ byte ≤ ascii 'F' then some (byte.toNat-55)
  else none

/-- `char::from_u32`. -/
def charFromU32 (n : ℕ) : Option Char := if n.isValidChar then some (Char.ofNat n) else none

/-- The first character of UTF-8 bytes. -/
def firstChar (bytes : Bytes) : Option Char := bytes.toByteArray.utf8DecodeChar? 0

/-- `std::str::from_utf8`, or how far the bytes are valid. -/
def fromUtf8 (validUpTo : ℕ) : ℕ → Bytes → Except ℕ Text
  | _, [] => .ok []
  | 0, _ => .error validUpTo
  | passes+1, bytes =>
    match firstChar bytes with
    | some c => do
      let chars ← fromUtf8 (validUpTo+c.utf8Size) passes (bytes.drop c.utf8Size)
      return c :: chars
    | none => .error validUpTo

namespace Validator
variable (v : Validator)

def peek : Option UInt8 := v.rest.head?

/-- The position moves on by some bytes. -/
def advance (n : ℕ) : Validator := { v with
  rest := v.rest.drop n
  pos := v.pos+n }

def skipWhile (p : UInt8 → Bool) : Validator := v.advance (v.rest.takeWhile p).length

def skipWhitespace : Validator := v.skipWhile isWhitespace

def digits : Validator := v.skipWhile isDigit

/-- The error for the byte at the position. -/
def unexpected : ClientDataError :=
  match v.peek with
  | none => .unexpectedEnd
  | some byte => .unexpectedByte v.pos byte

def peekOrEnd : Run UInt8 :=
  match v.peek with
  | some byte => .ok byte
  | none => refuse .unexpectedEnd

def addHexDigit (offset unit : ℕ) (digit : UInt8) : Run ℕ :=
  match toHexDigit digit with
  | some value => .ok (unit*16+value)
  | none => refuse (.invalidEscape offset)

/-- Four hexadecimal digits. -/
def hex4 (offset : ℕ) : Run (ℕ × Validator) := do
  if v.rest.length < 4 then
    refuse .unexpectedEnd
  else
    let unit ← (v.rest.take 4).foldlM (addHexDigit offset) 0
    return (unit, v.advance 4)

def charOrRefuse (n : ℕ) (err : ClientDataError) : Run Char :=
  match charFromU32 n with
  | some c => .ok c
  | none => refuse err

/-- The digits of a unicode escape whose backslash is at the offset, and the low half where they
name a high surrogate. -/
def unicodeEscape (offset : ℕ) : Run (Char × Validator) := do
  let (unit, after) ← v.hex4 offset
  if 0xD800 ≤ unit ∧ unit ≤ 0xDBFF then
    if after.rest.take 2 ≠ [ascii '\\', ascii 'u'] then
      refuse (.loneSurrogate offset)
    else
      let (low, end_) ← (after.advance 2).hex4 after.pos
      if 0xDC00 ≤ low ∧ low ≤ 0xDFFF then
        let c ← charOrRefuse (0x10000+(unit-0xD800)*0x400+(low-0xDC00)) (.loneSurrogate offset)
        return (c, end_)
      else
        refuse (.loneSurrogate offset)
  else if 0xDC00 ≤ unit ∧ unit ≤ 0xDFFF then
    refuse (.loneSurrogate offset)
  else
    let c ← charOrRefuse unit (.invalidEscape offset)
    return (c, after)

/-- The escapes of one letter. -/
def simpleEscape (byte : UInt8) : Option Char :=
  if byte = ascii '"' then some '"'
  else if byte = ascii '\\' then some '\\'
  else if byte = ascii '/' then some '/'
  else if byte = ascii 'b' then some '\x08'
  else if byte = ascii 'f' then some '\x0c'
  else if byte = ascii 'n' then some '\n'
  else if byte = ascii 'r' then some '\r'
  else if byte = ascii 't' then some '\t'
  else none

/-- One escape from its backslash on. -/
def escape : Run (Char × Validator) :=
  match v.rest[1]? with
  | none => refuse .unexpectedEnd
  | some byte =>
    match simpleEscape byte with
    | some c => .ok (c, v.advance 2)
    | none =>
      if byte = ascii 'u' then (v.advance 2).unicodeEscape v.pos
      else refuse (.invalidEscape v.pos)

/-- The characters of a string up to its closing quote. -/
def stringLoop : ℕ → Text → Validator → Run (Text × Validator)
  | 0, _, _ => .error .running
  | passes+1, decoded, v => do
    let byte ← v.peekOrEnd
    if byte = ascii '"' then
      return (decoded, v.advance 1)
    else if byte = ascii '\\' then
      let (c, v) ← v.escape
      stringLoop passes (decoded ++ [c]) v
    else if byte ≤ 0x1F then
      refuse (.unescapedControl v.pos)
    else
      match firstChar v.rest with
      | none => refuse (.invalidUtf8 v.pos)
      | some c => stringLoop passes (decoded ++ [c]) (v.advance c.utf8Size)

/-- One string from its opening quote on. -/
def string (passes : ℕ) : Run (Text × Validator) := stringLoop passes [] (v.advance 1)

def startsDigit : Bool := v.peek.any isDigit

/-- A run of digits that must not be empty. -/
def someDigits (err : ClientDataError) : Run Validator :=
  if v.startsDigit then .ok v.digits else refuse err

def skipSign : Validator := if v.peek = some (ascii '-') then v.advance 1 else v

def intPart (err : ClientDataError) : Run Validator :=
  if v.peek = some (ascii '0') then .ok (v.advance 1) else v.someDigits err

def fracPart (err : ClientDataError) : Run Validator :=
  if v.peek = some (ascii '.') then (v.advance 1).someDigits err else .ok v

def skipExpSign : Validator :=
  if v.peek = some (ascii '+') ∨ v.peek = some (ascii '-') then v.advance 1 else v

def expPart (err : ClientDataError) : Run Validator :=
  if v.peek = some (ascii 'e') ∨ v.peek = some (ascii 'E') then
    (v.advance 1).skipExpSign.someDigits err
  else .ok v

/-- One number, checked against the grammar and never converted. -/
def number : Run Validator := do
  let w ← v.skipSign.intPart (.invalidNumber v.pos)
  let w ← w.fracPart (.invalidNumber v.pos)
  w.expPart (.invalidNumber v.pos)

/-- Reads the bytes of a literal. -/
def literal (bytes : Bytes) : Run (TopLevel × Next × Validator) :=
  if v.rest.length < bytes.length then refuse .unexpectedEnd
  else if v.rest.take bytes.length = bytes then
    .ok (.notString, .afterValue, v.advance bytes.length)
  else refuse v.unexpected

def push (container : Container) : Validator := { v with stack := container :: v.stack }

/-- The value that begins with the given byte, or the opening of a container. -/
def readValue (passes : ℕ) (byte : UInt8) : Run (TopLevel × Next × Validator) :=
  if byte = ascii '{' then .ok (.notString, .firstKeyOrClose, (v.advance 1).push (.object []))
  else if byte = ascii '[' then .ok (.notString, .firstValueOrClose, (v.advance 1).push .array)
  else if byte = ascii '"' then do
    let (value, v) ← v.string passes
    return (.string value, .afterValue, v)
  else if byte = ascii '-' ∨ isDigit byte = true then do
    let v ← v.number
    return (.notString, .afterValue, v)
  else if byte = ascii 't' then v.literal ("true".toList.map ascii)
  else if byte = ascii 'f' then v.literal ("false".toList.map ascii)
  else if byte = ascii 'n' then v.literal ("null".toList.map ascii)
  else refuse (.unexpectedByte v.pos byte)

/-- The value of a top-level member that the verifier reads is kept. -/
def record (member : Option Text) (read : TopLevel) : Validator :=
  if member = some "type".toList then { v with clientDataType := read }
  else if member = some "challenge".toList then { v with challenge := read }
  else v

/-- One value. Directly inside the top-level object it is that member's. -/
def value (passes : ℕ) : Run (Next × Validator) := do
  let member := if v.stack.length = 1 then v.topMember else none
  let v := if v.stack.length = 1 then { v with topMember := none } else v
  let byte ← v.peekOrEnd
  let (read, next, v) ← v.readValue passes byte
  return (next, v.record member read)

/-- The name is added to those of the innermost object. -/
def addName (offset : ℕ) (name : Text) : Run Validator :=
  match v.stack with
  | .object names :: outer =>
    if name ∈ names then refuse (.duplicateMember offset)
    else .ok { v with
      stack := .object (names ++ [name]) :: outer
      topMember := if v.stack.length = 1 then some name else v.topMember }
  | _ => refuse (.unexpectedByte offset (ascii '"'))

/-- One member name and its colon. -/
def key (passes : ℕ) : Run (Next × Validator) := do
  if v.peek ≠ some (ascii '"') then
    refuse v.unexpected
  else
    let (name, named) ← v.string passes
    let named ← named.addName v.pos name
    let named := named.skipWhitespace
    if named.peek ≠ some (ascii ':') then
      refuse named.unexpected
    else
      return (.value, named.advance 1)

/-- The close byte of the innermost container. -/
def close : Run (Next × Validator) :=
  match v.stack with
  | _ :: outer => .ok (.afterValue, { v.advance 1 with stack := outer })
  | [] => refuse .unexpectedEnd

/-- The loop goes on with what was found next. -/
def goOn (found : Run (Next × Validator)) : Run (Option Next × Validator) :=
  found.map (fun (next, v) => (some next, v))

/-- A comma or a close after a value, or the end once the top-level object has closed. -/
def afterValue : Run (Option Next × Validator) :=
  match v.stack, v.peek with
  | [], none => .ok (none, v)
  | [], some _ => refuse (.trailingContent v.pos)
  | _ :: _, none => refuse .unexpectedEnd
  | .object _ :: _, some byte =>
    if byte = ascii ',' then .ok (some .key, v.advance 1)
    else if byte = ascii '}' then goOn v.close
    else refuse v.unexpected
  | .array :: _, some byte =>
    if byte = ascii ',' then .ok (some .value, v.advance 1)
    else if byte = ascii ']' then goOn v.close
    else refuse v.unexpected

/-- The body of the loop, past the whitespace. -/
def turn (passes : ℕ) : Next → Run (Option Next × Validator)
  | .value => goOn (v.value passes)
  | .firstKeyOrClose => goOn (if v.peek = some (ascii '}') then v.close else v.key passes)
  | .key => goOn (v.key passes)
  | .firstValueOrClose => goOn (if v.peek = some (ascii ']') then v.close else v.value passes)
  | .afterValue => v.afterValue

/-- The loop, given the passes that it and the loops inside it may take. -/
def loop (passes : ℕ) : ℕ → Validator → Next → Run Validator
  | 0, _, _ => .error .running
  | left+1, v, next => do
    match ← v.skipWhitespace.turn passes next with
    | (some next, v) => loop passes left v next
    | (none, v) => return v

/-- The grammar over the whole input, which must begin an object. -/
def run (passes : ℕ) : Run Validator :=
  let v := v.skipWhitespace
  match v.peek with
  | none => refuse .unexpectedEnd
  | some byte => if byte = ascii '{' then loop passes passes v .value else refuse .topLevelNotObject

end Validator

def TopLevel.read (value : TopLevel) (missing notString : ClientDataError) : Run Text :=
  match value with
  | .absent => refuse missing
  | .notString => refuse notString
  | .string value => .ok value

def parse (passes : ℕ) (bytes : Bytes) : Run ClientDataMembers := do
  if bytes.take 3 = [0xEF, 0xBB, 0xBF] then
    refuse .byteOrderMark
  else
    match fromUtf8 0 bytes.length bytes with
    | .error offset => refuse (.invalidUtf8 offset)
    | .ok _ =>
      let v ← Validator.run ⟨bytes, 0, [], none, .absent, .absent⟩ passes
      let clientDataType ← v.clientDataType.read .missingType .typeNotString
      let challenge ← v.challenge.read .missingChallenge .challengeNotString
      return ⟨clientDataType, challenge⟩

end ScpCore.Kel.ClientData
