import Marginalia.Text.Basic
import Marginalia.Toml.Value
/-!
# Scalars of a TOML document

The readers of this module take a text and return what they have read at its start
together with the rest, or nothing if no such thing stands there.
-/
namespace Marginalia

namespace Toml

/-- A character of comments and strings: any but the controls, of which the tab may
stand. -/
def isPlain (c : Char) : Bool := c == '\t' || (0x20 ≤ c.toNat && c.toNat != 0x7F)

def isSpace (c : Char) : Bool := c == ' ' || c == '\t'

def skipSpaces (t : Text) : Text := t.dropWhile isSpace

def skipLines : Text → Text
  | ' ' :: t => skipLines t
  | '\t' :: t => skipLines t
  | '\n' :: t => skipLines t
  | '\r' :: '\n' :: t => skipLines t
  | t => t

def afterNewline? : Text → Option Text
  | '\n' :: t => some t
  | '\r' :: '\n' :: t => some t
  | _ => none

/-! ## Strings -/

def hexDigit? (c : Char) : Option Nat :=
  if '0' ≤ c && c ≤ '9' then some (c.toNat - 48)
  else if 'a' ≤ c && c ≤ 'f' then some (c.toNat - 87)
  else if 'A' ≤ c && c ≤ 'F' then some (c.toNat - 55)
  else none

/-- The character whose code point is written in hexadecimal digits. -/
def codePoint? (digits : List Char) : Option Char := do
  let values ← digits.mapM hexDigit?
  let n := values.foldl (fun n d => 16 * n + d) 0
  if n.isValidChar then some (Char.ofNat n) else none

def shortEscape? : Char → Option Char
  | 'b' => some '\x08'
  | 'e' => some '\x1b'
  | 'f' => some '\x0c'
  | 'n' => some '\n'
  | 'r' => some '\r'
  | 't' => some '\t'
  | '"' => some '"'
  | '\\' => some '\\'
  | _ => none

/-- The character of the escape whose backslash has just been passed. -/
def escape? : Text → Option (Char × Text)
  | 'x' :: a :: b :: t => (codePoint? [a, b]).map (·, t)
  | 'u' :: a :: b :: c :: d :: t => (codePoint? [a, b, c, d]).map (·, t)
  | 'U' :: a :: b :: c :: d :: e :: f :: g :: h :: t =>
    (codePoint? [a, b, c, d, e, f, g, h]).map (·, t)
  | c :: t => (shortEscape? c).map (·, t)
  | [] => none

theorem length_of_escape? {t rest : Text} {c : Char} (h : escape? t = some (c, rest)) :
    rest.length < t.length := by
  unfold escape? at h
  split at h
  case h_5 => cases h
  all_goals
    obtain ⟨_, _, hr⟩ := Option.map_eq_some_iff.1 h
    cases hr
    simp only [List.length_cons]
    omega

/-- The rest of a string in double quotes, behind the characters `passed` in reverse. -/
def basicFrom? (passed : Text) (t : Text) : Option (String × Text) :=
  match t with
  | [] => none
  | '"' :: t => some (String.ofList passed.reverse, t)
  | '\\' :: t =>
    match h : escape? t with
    | none => none
    | some (c, rest) =>
      have := length_of_escape? h
      basicFrom? (c :: passed) rest
  | c :: t => if isPlain c then basicFrom? (c :: passed) t else none
termination_by t.length

def literalFrom? (passed : Text) : Text → Option (String × Text)
  | [] => none
  | '\'' :: t => some (String.ofList passed.reverse, t)
  | c :: t => if isPlain c then literalFrom? (c :: passed) t else none

theorem length_skipLines (t : Text) : (skipLines t).length ≤ t.length := by
  fun_induction skipLines t <;> simp_all <;> omega

theorem length_of_afterNewline? {t rest : Text} (h : afterNewline? t = some rest) :
    rest.length < t.length := by
  unfold afterNewline? at h
  split at h
  · cases h; exact Nat.lt_succ_self _
  · cases h; simp only [List.length_cons]; omega
  · cases h

/-- The rest of a string in three double quotes.  A backslash at the end of a line skips
to the next character that is no white space.  Up to two quotes may stand before the
closing ones. -/
def longBasicFrom? (passed : Text) (t : Text) : Option (String × Text) :=
  match t with
  | [] => none
  | '"' :: '"' :: '"' :: '"' :: '"' :: t => some (String.ofList ('"' :: '"' :: passed).reverse, t)
  | '"' :: '"' :: '"' :: '"' :: t => some (String.ofList ('"' :: passed).reverse, t)
  | '"' :: '"' :: '"' :: t => some (String.ofList passed.reverse, t)
  | '\\' :: t =>
    match h : escape? t with
    | some (c, rest) =>
      have := length_of_escape? h
      longBasicFrom? (c :: passed) rest
    | none =>
      match hn : afterNewline? (skipSpaces t) with
      | some rest =>
        have : (skipLines rest).length < t.length + 1 := by
          have := length_skipLines rest
          have := length_of_afterNewline? hn
          have := (List.dropWhile_sublist (l := t) isSpace).length_le
          unfold skipSpaces at *
          omega
        longBasicFrom? passed (skipLines rest)
      | none => none
  | '\r' :: '\n' :: t => longBasicFrom? ('\n' :: '\r' :: passed) t
  | c :: t => if isPlain c || c == '\n' then longBasicFrom? (c :: passed) t else none
termination_by t.length

def longLiteralFrom? (passed : Text) : Text → Option (String × Text)
  | [] => none
  | '\'' :: '\'' :: '\'' :: '\'' :: '\'' :: t =>
    some (String.ofList ('\'' :: '\'' :: passed).reverse, t)
  | '\'' :: '\'' :: '\'' :: '\'' :: t => some (String.ofList ('\'' :: passed).reverse, t)
  | '\'' :: '\'' :: '\'' :: t => some (String.ofList passed.reverse, t)
  | '\r' :: '\n' :: t => longLiteralFrom? ('\n' :: '\r' :: passed) t
  | c :: t => if isPlain c || c == '\n' then longLiteralFrom? (c :: passed) t else none

/-- A newline right behind the opening quotes of a long string does not belong to it. -/
def dropNewline (t : Text) : Text := (afterNewline? t).getD t

def quoted? : Text → Option (String × Text)
  | '"' :: '"' :: '"' :: t => longBasicFrom? [] (dropNewline t)
  | '"' :: t => basicFrom? [] t
  | '\'' :: '\'' :: '\'' :: t => longLiteralFrom? [] (dropNewline t)
  | '\'' :: t => literalFrom? [] t
  | _ => none

/-! ## Numbers -/

/-- Whether every underscore stands between two characters that `isDigit` allows. -/
def isSpaced (isDigit : Char → Bool) (t : Text) : Bool :=
  t.head? != some '_' && t.getLast? != some '_' &&
    (t.zip t.tail).all fun (a, b) => (a != '_' || isDigit b) && (b != '_' || isDigit a)

/-- The digits of a number, without the underscores that may stand between two digits. -/
def digits? (isDigit : Char → Bool) (t : Text) : Option Text :=
  if !t.isEmpty && t.all (fun c => isDigit c || c == '_') && isSpaced isDigit t then
    some (t.filter (· != '_'))
  else none

/-- The number that hexadecimal digits, or digits of a smaller base, write. -/
def ofDigits (base : Nat) (digits : Text) : Nat :=
  digits.foldl (fun n c => base * n + (hexDigit? c).getD 0) 0

def sign : Text → Bool × Text
  | '-' :: t => (true, t)
  | '+' :: t => (false, t)
  | t => (false, t)

def significant (digits : Text) : Text := digits.dropWhile (· == '0')

def isPadded (digits : Text) : Bool := digits.head? == some '0' && digits.length != 1

/-- The least integer, with 128 bits one of which is the sign. -/
def leastInteger : Int := -170141183460469231731687303715884105728

/-- The largest integer, with 128 bits and no sign. -/
def largestInteger : Int := 340282366920938463463374607431768211455

/-- The integer that digits write, which takes at most 128 bits and so at most 128 digits. -/
def integerOf? (base : Nat) (negative : Bool) (digits : Text) : Option Int :=
  let counting := significant digits
  if digits.isEmpty || 128 < counting.length then none
  else
    let n := Int.ofNat (ofDigits base counting)
    let n := if negative then -n else n
    if leastInteger ≤ n ∧ n ≤ largestInteger then some n else none

/-- An integer whose underscores have been found in place.  It has no value if it is not
made of digits. -/
def ofInteger (base : Nat) (isDigit : Char → Bool) (negative : Bool) (t : Text) : Toml :=
  let digits := t.filter (· != '_')
  match if digits.all isDigit then integerOf? base negative digits else none with
  | some n => .integer n
  | none => .valueless (String.ofList t)

/-- An integer in a base that its first two characters, already passed, have named.  There
may be no digits, and then there is no value. -/
def based? (base : Nat) (isDigit : Char → Bool) (t : Text) : Option Toml :=
  if t.all (fun c => isDigit c || c == '_') && isSpaced isDigit t then
    some (ofInteger base isDigit false t)
  else none

/-- Whether `digits` times ten to the power `exponent` is below the numbers that a binary
floating-point number of 64 bits rounds to infinity.  These begin at a whole number of 309
digits, so no more digits than these count. -/
def isFinite (digits : Text) (exponent : Int) : Bool :=
  let digits := significant digits
  let magnitude : Int := digits.length + exponent
  if digits.isEmpty || magnitude < 309 then true
  else if 309 < magnitude then false
  else
    let whole := digits.take 309
    ofDigits 10 (whole ++ List.replicate (309 - whole.length) '0') < Nat.pow 2 1024 - Nat.pow 2 970

/-- The exponent that digits write.  It takes no more digits once it has reached 65536. -/
def exponentOf (digits : Text) : Nat :=
  digits.foldl (fun n c => if n < 65536 then 10 * n + (c.toNat - 48) else n) 0

/-- A number with a point or an exponent, of which `t` is the part behind the sign. -/
def float? (token t : Text) : Option Toml := do
  let isPart (c : Char) : Bool := c.isDigit || c == '_'
  let whole ← digits? Char.isDigit (t.takeWhile isPart)
  let (fraction, t) ← match t.dropWhile isPart with
    | '.' :: t => (digits? Char.isDigit (t.takeWhile isPart)).map (·, t.dropWhile isPart)
    | t => some ([], t)
  let exponent : Int ← match t with
    | [] => some 0
    | e :: t =>
      let (negative, t) := sign t
      match if e == 'e' || e == 'E' then digits? Char.isDigit t else none with
      | some digits =>
        let n := Int.ofNat (exponentOf digits)
        some (if negative then -n else n)
      | none => none
  if isPadded whole then none
  else if isFinite (whole ++ fraction) (exponent - fraction.length) then
    some (.float (String.ofList token))
  else some (.valueless (String.ofList token))

/-- The whole of `token` as a number.  Behind an underscore a decimal integer may hold what
is no digit, and then it has no value. -/
def number? (token : Text) : Option Toml :=
  let isHex (c : Char) : Bool := (hexDigit? c).isSome
  match token with
  | '0' :: 'x' :: t => based? 16 isHex t
  | '0' :: 'o' :: t => based? 8 (fun c => '0' ≤ c && c ≤ '7') t
  | '0' :: 'b' :: t => based? 2 (fun c => c == '0' || c == '1') t
  | _ =>
    let (negative, t) := sign token
    let digits := t.takeWhile Char.isDigit
    let rest := t.dropWhile Char.isDigit
    if t == "inf".toList || t == "nan".toList then some (.float (String.ofList token))
    else if digits.isEmpty then none
    else if rest.any fun c => c == '.' || c == 'e' || c == 'E' then float? token t
    else if rest.isEmpty then
      if isPadded digits then none else some (ofInteger 10 Char.isDigit negative t)
    else if rest.head? == some '_' && digits.head? != some '0' && isSpaced isHex t then
      some (ofInteger 10 Char.isDigit negative t)
    else none

/-! ## Dates and times -/

def count? (count : Nat) (t : Text) : Option (Nat × Text) :=
  let digits := t.take count
  if digits.length = count ∧ digits.all Char.isDigit then some (ofDigits 10 digits, t.drop count)
  else none

def after? (c : Char) : Text → Option Text
  | x :: t => if x = c then some t else none
  | [] => none

def daysOf (year month : Nat) : Nat :=
  if month = 2 then
    if year % 4 = 0 ∧ (year % 100 ≠ 0 ∨ year % 400 = 0) then 29 else 28
  else if [4, 6, 9, 11].contains month then 30
  else 31

def padded (width n : Nat) : String :=
  let digits := toString n
  String.ofList (List.replicate (width - digits.length) '0') ++ digits

def date? (t : Text) : Option (String × Text) := do
  let (year, t) ← count? 4 t
  let (month, t) ← count? 2 (← after? '-' t)
  let (day, t) ← count? 2 (← after? '-' t)
  if 1 ≤ month ∧ month ≤ 12 ∧ 1 ≤ day ∧ day ≤ daysOf year month then
    some (s!"{padded 4 year}-{padded 2 month}-{padded 2 day}", t)
  else none

/-- The part of a time behind its seconds: billionths, without zeros at the end. -/
def fraction? : Text → Option (String × Text)
  | '.' :: t =>
    let digits := t.takeWhile Char.isDigit
    let shown := ((digits.take 9).reverse.dropWhile (· == '0')).reverse
    if digits.isEmpty then none
    else some ("." ++ String.ofList (if shown.isEmpty then ['0'] else shown), t.dropWhile Char.isDigit)
  | t => some ("", t)

def time? (t : Text) : Option (String × Text) := do
  let (hour, t) ← count? 2 t
  let (minute, t) ← count? 2 (← after? ':' t)
  if hour ≤ 23 ∧ minute ≤ 59 then
    let shown := s!"{padded 2 hour}:{padded 2 minute}"
    match t with
    | ':' :: t =>
      let (second, t) ← count? 2 t
      let (fraction, t) ← fraction? t
      if second ≤ 60 then some (s!"{shown}:{padded 2 second}{fraction}", t) else none
    | t => some (shown, t)
  else none

/-- A distance from universal time, if there is one.  No distance has a plus sign. -/
def offset? : Text → Option (String × Text)
  | 'Z' :: t => some ("Z", t)
  | 'z' :: t => some ("Z", t)
  | c :: t => do
    if c = '+' ∨ c = '-' then
      let (hour, t) ← count? 2 t
      let (minute, t) ← count? 2 (← after? ':' t)
      let shown := if hour = 0 ∧ minute = 0 then '+' else c
      if hour ≤ 23 ∧ minute ≤ 59 then some (s!"{shown}{padded 2 hour}:{padded 2 minute}", t) else none
    else some ("", c :: t)
  | [] => some ("", [])

def datetime? (token : Text) : Option String :=
  let finish (shown : String) : Text → Option String := fun t => if t.isEmpty then some shown else none
  match date? token with
  | some (date, t) =>
    match t with
    | [] => some date
    | c :: t => do
      if c = 'T' ∨ c = 't' ∨ c = ' ' then
        let (time, t) ← time? t
        let (offset, t) ← offset? t
        finish (date ++ "T" ++ time ++ offset) t
      else none
  | none => do
    let (time, t) ← time? token
    finish time t

/-- A character of an unquoted scalar: any but those that the rest of the grammar uses. -/
def isBare (c : Char) : Bool := !"=,[]\x7b\x7d# \t\r\n".toList.contains c

/-- The unquoted scalar that the text begins with.  A date and a time may have one space
between them. -/
def token (t : Text) : Text × Text :=
  let word := t.takeWhile isBare
  let rest := t.dropWhile isBare
  match (date? word).map (·.2), rest with
  | some [], ' ' :: c :: t =>
    if c.isDigit then (word ++ ' ' :: (c :: t).takeWhile isBare, (c :: t).dropWhile isBare)
    else (word, rest)
  | _, _ => (word, rest)

def bare? (t : Text) : Option (Toml × Text) :=
  let (token, rest) := token t
  let value : Option Toml :=
    if token == "true".toList then some (.boolean true)
    else if token == "false".toList then some (.boolean false)
    else number? token <|> (datetime? token).map .datetime
  value.map (·, rest)

end Toml

end Marginalia
