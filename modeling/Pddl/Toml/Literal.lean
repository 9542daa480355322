import Pddl.Number.Decimal
import Pddl.Toml.Scanner

namespace Pddl.Toml

open Scanner

def isSpace (c : Char) : Bool := c = ' ' || c = '\t'

/-- The characters that a comment or a string may hold as they are; no control character but the
tab. -/
def isPlain (c : Char) : Bool := c = '\t' || (0x20 ≤ c.toNat && c.toNat ≠ 0x7F)

def spaces : Scanner Unit := do
  let _ ← takeWhile isSpace

def newline : Scanner Unit := chars ['\n'] <|> chars ['\r', '\n']

def comment : Scanner Unit := do
  char '#'
  let _ ← takeWhile isPlain

def padding : Scanner Unit := do
  let _ ← many ((do let _ ← satisfy isSpace) <|> newline <|> comment)

def isHex (c : Char) : Bool :=
  c.isDigit || ('a' ≤ c && c ≤ 'f') || ('A' ≤ c && c ≤ 'F')

def hexValue (c : Char) : Nat :=
  if c.isDigit then c.toNat - '0'.toNat else c.toLower.toNat - 'a'.toNat + 10

def codePoint (n : Nat) : Scanner Char := do
  let digits ← times n (satisfy isHex)
  let code := digits.foldl (fun v d => v * 16 + hexValue d) 0
  check code.isValidChar
  return Char.ofNat code

def escape : Scanner Char := do
  char '\\'
  let c ← satisfy fun _ => true
  match c with
  | 'b' => return '\x08'
  | 't' => return '\t'
  | 'n' => return '\n'
  | 'f' => return '\x0c'
  | 'r' => return '\r'
  | '"' => return '"'
  | '\\' => return '\\'
  | 'u' => codePoint 4
  | 'U' => codePoint 8
  | _ => failure

def basicString : Scanner String := do
  char '"'
  let cs ← many (satisfy (fun c => isPlain c && c ≠ '"' && c ≠ '\\') <|> escape)
  char '"'
  return String.ofList cs

def literalString : Scanner String := do
  char '\''
  let cs ← takeWhile fun c => isPlain c && c ≠ '\''
  char '\''
  return String.ofList cs

/-- One or two quotes inside a string that three of them close. -/
def innerQuotes (quote : Char) : Scanner (List Char) := do
  let run ← takeWhile (· = quote)
  check (run.length = 1 || run.length = 2)
  return run

/-- The quotes that close a string of several lines; up to two more may belong to the string. -/
def closingQuotes (quote : Char) : Scanner (List Char) := do
  let run ← takeWhile (· = quote)
  check (3 ≤ run.length && run.length ≤ 5)
  return run.drop 3

def longString (quote : Char) (part : Scanner (List Char)) : Scanner String := do
  chars [quote, quote, quote]
  let _ ← optional newline
  let parts ← many (part <|> (do newline; return ['\n']) <|> innerQuotes quote)
  let last ← closingQuotes quote
  return String.ofList (parts.flatten ++ last)

/-- A backslash at the end of a line, which leaves out all blank space up to the next character. -/
def continuation : Scanner (List Char) := do
  char '\\'
  spaces
  newline
  let _ ← many ((do let _ ← satisfy isSpace) <|> newline)
  return []

def longBasicString : Scanner String :=
  longString '"' <|
    (do let c ← satisfy fun c => isPlain c && c ≠ '"' && c ≠ '\\'; return [c]) <|> continuation <|>
    (do let c ← escape; return [c])

def longLiteralString : Scanner String :=
  longString '\'' (do let c ← satisfy fun c => isPlain c && c ≠ '\''; return [c])

def string : Scanner String :=
  longBasicString <|> basicString <|> longLiteralString <|> literalString

def isBareKeyChar (c : Char) : Bool := c.isAlphanum || c = '-' || c = '_'

def simpleKey : Scanner String := do
  match ← peek with
  | some '"' => basicString
  | some '\'' => literalString
  | _ => do
    let cs ← takeWhile isBareKeyChar
    check (!cs.isEmpty)
    return String.ofList cs

/-- How deep values may be nested, and how many parts a key may have, counted from one. -/
def nestingLimit : Nat := 80

def key : Scanner (List String) := do
  let parts ← separated (char '.') (do spaces; let k ← simpleKey; spaces; return k)
  check (parts.length < nestingLimit)
  return parts

/-- One or more digits, with single underscores between them. -/
def grouped (isDigit : Char → Bool) : Scanner (List Char) := do
  let first ← satisfy isDigit
  let rest ← many (satisfy isDigit <|> (do char '_'; satisfy isDigit))
  return first :: rest

def sign : Scanner (List Char) :=
  (do char '+'; return ['+']) <|> (do char '-'; return ['-']) <|> pure []

/-- Digits without a zero in front, unless it is the only one. -/
def wholeDigits : Scanner (List Char) := do
  match ← peek with
  | some '0' => do
    char '0'
    return ['0']
  | _ => grouped Char.isDigit

def integerLimit : Nat := Nat.pow 2 63

/-- The digits of an integer in base `base`, which must fit in sixty-four bits with a sign. -/
def radixInteger (mark : Char) (base : Nat) (isDigit : Char → Bool) : Scanner Unit := do
  chars ['0', mark]
  let digits ← grouped isDigit
  check (digits.foldl (fun v d => v * base + hexValue d) 0 < integerLimit)

def decimalInteger : Scanner Unit := do
  let s ← sign
  let digits ← wholeDigits
  let n := Nat.ofDigitChars 10 digits 0
  check (n < integerLimit || (s = ['-'] && n = integerLimit))

def exponent : Scanner (List Char) := do
  let _ ← satisfy fun c => c = 'e' || c = 'E'
  let s ← sign
  let digits ← grouped Char.isDigit
  return 'e' :: s ++ digits

def fraction : Scanner (List Char) := do
  char '.'
  let digits ← grouped Char.isDigit
  return '.' :: digits

def float : Scanner Unit := do
  let s ← sign
  let whole ← wholeDigits
  let tail ← exponent <|> (do
    let f ← fraction
    let e ← exponent <|> pure []
    return f ++ e)
  check (Number.ofChars? (s ++ whole ++ tail) ≠ some (.infinite false))

def specialFloat : Scanner Unit := do
  let _ ← sign
  chars ['i', 'n', 'f'] <|> chars ['n', 'a', 'n']

def fixedNumber (n low high : Nat) : Scanner Nat := do
  let digits ← times n (satisfy Char.isDigit)
  let value := Nat.ofDigitChars 10 digits 0
  check (low ≤ value && value ≤ high)
  return value

def daysInMonth (year month : Nat) : Nat :=
  if month = 2 then
    if year % 4 = 0 && (year % 100 ≠ 0 || year % 400 = 0) then 29 else 28
  else if month = 4 || month = 6 || month = 9 || month = 11 then 30
  else 31

def date : Scanner Unit := do
  let year ← fixedNumber 4 0 9999
  char '-'
  let month ← fixedNumber 2 1 12
  char '-'
  let _ ← fixedNumber 2 1 (daysInMonth year month)

def hourMinute : Scanner Unit := do
  let _ ← fixedNumber 2 0 23
  char ':'
  let _ ← fixedNumber 2 0 59

def time : Scanner Unit := do
  hourMinute
  char ':'
  let _ ← fixedNumber 2 0 60
  let _ ← optional (do char '.'; let _ ← satisfy Char.isDigit; takeWhile Char.isDigit)

def timeOffset : Scanner Unit :=
  (do let _ ← satisfy fun c => c = 'Z' || c = 'z') <|>
  (do let _ ← satisfy fun c => c = '+' || c = '-'; hourMinute)

def dateTime : Scanner Unit :=
  (do
    date
    let _ ← optional (do
      let _ ← satisfy fun c => c = 'T' || c = 't' || c = ' '
      time
      optional timeOffset)) <|>
  time

def scalar : Scanner Unit :=
  dateTime <|> float <|> specialFloat <|> radixInteger 'x' 16 isHex <|>
    radixInteger 'o' 8 (fun c => '0' ≤ c && c ≤ '7') <|>
    radixInteger 'b' 2 (fun c => c = '0' || c = '1') <|> decimalInteger

end Pddl.Toml
