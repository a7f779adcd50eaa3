import CilAudit.Text

/-!
# Base64

Three bytes become four characters of a 64-character alphabet; the last group is filled up
with `=`.
-/

set_option autoImplicit false

namespace CilAudit.Text

/-- The character for six bits. -/
def base64Char (n : Nat) : UInt8 :=
  if n < 26 then (0x41 + n).toUInt8
  else if n < 52 then (0x61 + (n - 26)).toUInt8
  else if n < 62 then (0x30 + (n - 52)).toUInt8
  else if n = 62 then 0x2B else 0x2F

def base64 : Text → Text
  | a :: b :: c :: rest =>
    let n := (a.toNat * 256 + b.toNat) * 256 + c.toNat
    base64Char (n >>> 18) :: base64Char ((n >>> 12) % 64) :: base64Char ((n >>> 6) % 64) ::
      base64Char (n % 64) :: base64 rest
  | [a, b] =>
    let n := (a.toNat * 256 + b.toNat) * 4
    [base64Char (n >>> 12), base64Char ((n >>> 6) % 64), base64Char (n % 64), 0x3D]
  | [a] => [base64Char (a.toNat / 4), base64Char (a.toNat % 4 * 16), 0x3D, 0x3D]
  | [] => []

end CilAudit.Text
