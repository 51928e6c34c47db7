/-!
# Identifiers of blocks

An identifier has 128 bits, of which six say that it was drawn at random; it is written
as groups of 8, 4, 4, 4 and 12 hexadecimal digits.
-/
namespace Marginalia

namespace Identifier

def digits (width n : Nat) : String :=
  String.ofList ((List.range width).reverse.map fun i => Nat.digitChar ((n >>> (4 * i)) % 16))

/-- The identifier that has the last 122 bits of a number besides its six fixed ones. -/
def ofNumber (n : Nat) : String :=
  "-".intercalate [
    digits 8 (n >>> 90),
    digits 4 (n >>> 74),
    digits 4 (0x4000 + (n >>> 62) % 0x1000),
    digits 4 (0x8000 + (n >>> 48) % 0x4000),
    digits 12 n]

def numberOfBytes (bytes : List UInt8) : Nat := bytes.foldl (fun n b => 256 * n + b.toNat) 0

end Identifier

end Marginalia
