import LedgerTx.Fixed

/-! Reading JSON text from the front, for values whose type is known in advance. The first thing that is
wrong, in the order of the text, is what is reported. Values that nobody asked for are skipped; they may
nest as deeply as they like, and their strings need not pair surrogates. -/

namespace LedgerTx.Json

inductive Error where
  /-- The text is not JSON, or not of the type that is asked for. -/
  | malformed
  /-- A string is not the text of the value that it should be. -/
  | text (error : ParseError)
  deriving DecidableEq

/-- A reading of the unread characters, which also says what is unread afterwards. -/
abbrev TextReader := EStateM Error (List Char)

def isSpace (c : Char) : Bool := c == ' ' || c == '\t' || c == '\n' || c == '\r'

def afterSpace (cs : List Char) : List Char := cs.dropWhile isSpace

def skipSpace : TextReader Unit := modify afterSpace

/-- The next character that is not white space, which stays unread. -/
def peek : TextReader Char := do
  skipSpace
  match ← get with
  | [] => throw .malformed
  | c :: _ => return c

def expect (c : Char) : TextReader Unit := do
  skipSpace
  match ← get with
  | [] => throw .malformed
  | d :: rest => if d = c then set rest else throw .malformed

/-- Whether a comma follows, which promises more, or else the given closing mark. -/
def continues (close : Char) : TextReader Bool := do
  if (← peek) = ',' then
    expect ','
    return true
  else
    expect close
    return false

def hexDigit? (c : Char) : Option Nat :=
  if c.isDigit then some (c.toNat - '0'.toNat)
  else if 'a' ≤ c ∧ c ≤ 'f' then some (c.toNat - 'a'.toNat + 10)
  else if 'A' ≤ c ∧ c ≤ 'F' then some (c.toNat - 'A'.toNat + 10)
  else none

def hexUnit? (a b c d : Char) : Option Nat := do
  return 4096 * (← hexDigit? a) + 256 * (← hexDigit? b) + 16 * (← hexDigit? c) + (← hexDigit? d)

/-- The character that a letter after a backslash stands for. -/
def escaped? : Char → Option Char
  | '"' => some '"'
  | '\\' => some '\\'
  | '/' => some '/'
  | 'b' => some '\x08'
  | 'f' => some '\x0c'
  | 'n' => some '\n'
  | 'r' => some '\r'
  | 't' => some '\t'
  | _ => none

def isHighSurrogate (n : Nat) : Bool := 0xd800 ≤ n && n < 0xdc00

def isLowSurrogate (n : Nat) : Bool := 0xdc00 ≤ n && n < 0xe000

/-- The rest of a string up to its closing quote, and what comes after it. The characters before are
given in reverse, and `high` is a first half that waits for its second. -/
def stringFrom (high : Option Nat) (before : List Char) : List Char → Option (List Char × List Char)
  | [] => none
  | c :: rest =>
    if c = '\\' then
      match rest with
      | 'u' :: x :: y :: z :: w :: rest =>
        match hexUnit? x y z w, high with
        | none, _ => none
        | some n, some h =>
          if isLowSurrogate n then
            stringFrom none (Char.ofNat (0x10000 + 1024 * (h - 0xd800) + (n - 0xdc00)) :: before) rest
          else none
        | some n, none =>
          if isHighSurrogate n then stringFrom (some n) before rest
          else if isLowSurrogate n then none
          else stringFrom none (Char.ofNat n :: before) rest
      | e :: rest =>
        match escaped? e, high with
        | some d, none => stringFrom none (d :: before) rest
        | _, _ => none
      | [] => none
    else if high.isSome || c.toNat < 32 then none
    else if c = '"' then some (before.reverse, rest)
    else stringFrom none (c :: before) rest

def string : TextReader String := do
  expect '"'
  match stringFrom none [] (← get) with
  | some (cs, rest) =>
    set rest
    return String.ofList cs
  | none => throw .malformed

def bool : TextReader Bool := do
  skipSpace
  match ← get with
  | 't' :: 'r' :: 'u' :: 'e' :: rest =>
    set rest
    return true
  | 'f' :: 'a' :: 'l' :: 's' :: 'e' :: rest =>
    set rest
    return false
  | _ => throw .malformed

/-- Whether a number that has digits so far goes on with a fraction or an exponent. -/
def isFractional : List Char → Bool
  | '.' :: _ | 'e' :: _ | 'E' :: _ => true
  | _ => false

def decimal (ds : List Char) : Nat :=
  ds.foldl (fun n d => 10 * n + (d.toNat - '0'.toNat)) 0

/-- Whether digits are the shortest writing of a number from 0 to 255. -/
def isByteText (ds : List Char) : Bool :=
  match ds with
  | [] => false
  | ['0'] => true
  | d :: _ => d != '0' && decimal ds ≤ 255

/-- A whole number from 0 to 255, without sign, fraction, exponent or superfluous zeros. -/
def byte : TextReader UInt8 := do
  skipSpace
  let cs ← get
  let ds := cs.takeWhile Char.isDigit
  let rest := cs.dropWhile Char.isDigit
  if isByteText ds && !isFractional rest then
    set rest
    return UInt8.ofNat (decimal ds)
  else throw .malformed

/-- The rest of an array after as many items as given, which are in reverse; there are at most as many
items to come as the first number says. -/
def itemsFrom {α : Type} (item : TextReader α) : (most : Nat) → (before : List α) → TextReader (List α)
  | 0, _ => throw .malformed
  | most + 1, before => do
    let value ← item
    if ← continues ']' then itemsFrom item most (value :: before)
    else return (value :: before).reverse

def list {α : Type} (item : TextReader α) : TextReader (List α) := do
  expect '['
  if (← peek) = ']' then
    expect ']'
    return []
  else itemsFrom item (← get).length []

/-- What comes after the closing quote of a string. -/
def skipString : List Char → Option (List Char)
  | [] => none
  | c :: rest =>
    if c = '\\' then
      match rest with
      | 'u' :: x :: y :: z :: w :: rest =>
        if (hexUnit? x y z w).isSome then skipString rest else none
      | e :: rest => if (escaped? e).isSome then skipString rest else none
      | [] => none
    else if c.toNat < 32 then none
    else if c = '"' then some rest
    else skipString rest

def skipDigits : List Char → Option (List Char)
  | [] => none
  | c :: rest => if c.isDigit then some (rest.dropWhile Char.isDigit) else none

def skipExponent : List Char → Option (List Char)
  | 'e' :: '+' :: rest | 'E' :: '+' :: rest | 'e' :: '-' :: rest | 'E' :: '-' :: rest
  | 'e' :: rest | 'E' :: rest => skipDigits rest
  | rest => some rest

def skipFraction : List Char → Option (List Char)
  | '.' :: rest => skipDigits rest
  | rest => some rest

/-- What comes after the whole part of a number, in which a zero stands alone. -/
def skipWhole : List Char → Option (List Char)
  | '0' :: rest => if rest.head?.any Char.isDigit then none else some rest
  | rest => skipDigits rest

def skipScalar : List Char → Option (List Char)
  | 'n' :: 'u' :: 'l' :: 'l' :: rest => some rest
  | 't' :: 'r' :: 'u' :: 'e' :: rest => some rest
  | 'f' :: 'a' :: 'l' :: 's' :: 'e' :: rest => some rest
  | '"' :: rest => skipString rest
  | '-' :: rest => do skipExponent (← skipFraction (← skipWhole rest))
  | rest => do skipExponent (← skipFraction (← skipWhole rest))

def skipName (cs : List Char) : Option (List Char) :=
  match afterSpace cs with
  | '"' :: rest => do
    match afterSpace (← skipString rest) with
    | ':' :: rest => some rest
    | _ => none
  | _ => none

/-- What an open bracket was opened for. -/
inductive Bracket where
  | array
  | object

/-- What comes after the values that brackets are still open for, innermost first, where `expected` says
that a value comes next. The first number bounds the brackets, commas and values to come. -/
def skipFrom : (most : Nat) → (brackets : List Bracket) → (expected : Bool) → List Char →
    Option (List Char)
  | _, [], false, cs => some cs
  | 0, _, _, _ => none
  | most + 1, brackets, true, cs =>
    match afterSpace cs with
    | '[' :: rest =>
      match afterSpace rest with
      | ']' :: rest => skipFrom most brackets false rest
      | rest => skipFrom most (.array :: brackets) true rest
    | '\x7b' :: rest =>
      match afterSpace rest with
      | '\x7d' :: rest => skipFrom most brackets false rest
      | rest => (skipName rest).bind (skipFrom most (.object :: brackets) true)
    | rest => (skipScalar rest).bind (skipFrom most brackets false)
  | most + 1, bracket :: brackets, false, cs =>
    match bracket, afterSpace cs with
    | .array, ',' :: rest => skipFrom most (bracket :: brackets) true rest
    | .array, ']' :: rest => skipFrom most brackets false rest
    | .object, ',' :: rest => (skipName rest).bind (skipFrom most (bracket :: brackets) true)
    | .object, '\x7d' :: rest => skipFrom most brackets false rest
    | _, _ => none

def skipValue : TextReader Unit := do
  let cs ← get
  match skipFrom (cs.length + 1) [] true cs with
  | some rest => set rest
  | none => throw .malformed

end LedgerTx.Json
