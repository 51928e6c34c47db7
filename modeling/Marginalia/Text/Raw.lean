/-!
# Raw texts

The names of files and the arguments of a command come as bytes.  They should be text in
UTF-8, but nothing holds them to it.  Where a text is needed, a raw text is taken for one
if it is one.  Where it is only shown to a reader, what stands between its characters is
shown as replacement characters.
-/
namespace Marginalia

/-- A text as it comes from outside, byte by byte. -/
abbrev RawText := List UInt8

namespace RawText

def ofString (s : String) : RawText := s.toUTF8.data.toList

instance : Coe String RawText := ⟨ofString⟩

/-- The text that the bytes are, if they are one. -/
def toString? (raw : RawText) : Option String := String.fromUTF8? raw.toByteArray

/-! ## Shown to a reader -/

/-- How many bytes a character has that begins with this one; none if it begins none. -/
def width (first : UInt8) : Nat :=
  if first < 0x80 then 1
  else if first < 0xC2 then 0
  else if first < 0xE0 then 2
  else if first < 0xF0 then 3
  else if first < 0xF5 then 4
  else 0

def isLater (b : UInt8) : Bool := 0x80 ≤ b && b < 0xC0

/-- Whether a character can go on with `second` behind `first`.  Behind four of the bytes
not all that could follow make a character. -/
def isSecond (first second : UInt8) : Bool :=
  isLater second &&
    if first = 0xE0 then 0xA0 ≤ second
    else if first = 0xED then second < 0xA0
    else if first = 0xF0 then 0x90 ≤ second
    else if first = 0xF4 then second < 0x90
    else true

/-- How many of the bytes in front are the beginning of a character, at least one. -/
def beginning : RawText → Nat
  | first :: second :: rest =>
    if 2 ≤ width first && isSecond first second then
      2 + ((rest.take (width first - 2)).takeWhile isLater).length
    else 1
  | _ => 1

/-- The characters behind the bytes to `skip`, with one replacement for each beginning of a
character that does not go on. -/
def shown : (skip : Nat) → RawText → List Char
  | _, [] => []
  | skip + 1, _ :: raw => shown skip raw
  | 0, b :: raw =>
    match ((b :: raw).take 4).toByteArray.utf8DecodeChar? 0 with
    | some c => c :: shown (c.utf8Size - 1) raw
    | none => '\uFFFD' :: shown (beginning (b :: raw) - 1) raw

def display (raw : RawText) : String := String.ofList (shown 0 raw)

end RawText

end Marginalia
