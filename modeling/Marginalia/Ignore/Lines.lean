import Marginalia.Text.Basic
/-!
# Lines of bytes

The files that say what to ignore are read line by line.  A line ends before a newline
and does not hold the carriage return that may stand there; what follows the last
newline is a line too, unless it is empty.
-/
namespace Marginalia

namespace IgnoreFile

/-- The pieces between newlines, at least one. -/
def pieces (bytes : List UInt8) : List (List UInt8) :=
  bytes.foldr (fun b pieces =>
    if b = '\n'.toUInt8 then [] :: pieces
    else match pieces with
      | [] => [[b]]
      | piece :: rest => (b :: piece) :: rest) [[]]

def withoutReturn (piece : List UInt8) : List UInt8 :=
  if piece.getLast? = some '\r'.toUInt8 then piece.dropLast else piece

/-- The lines of a file; nothing stands for a line that is no UTF-8. -/
def lines (content : ByteArray) : List (Option Text) :=
  let pieces := pieces content.toList
  let ended := pieces.dropLast.map withoutReturn
  let rest := (pieces.drop ended.length).filter fun piece => !piece.isEmpty
  (ended ++ rest).map fun piece => (String.fromUTF8? piece.toByteArray).map String.toList

end IgnoreFile

end Marginalia
