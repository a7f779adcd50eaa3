import CilAudit.Signal.Entropy
import CilAudit.Signal.Pattern

/-!
# Signal categories

What a string literal of a method body gives away: an address, key material, a command, … Each
category has its test; a literal is sorted into every category whose test it passes, always in
the one order of `Category.all`.
-/

set_option autoImplicit false

namespace CilAudit

inductive Severity where
  | high
  | medium
  | low
  deriving DecidableEq, Repr

namespace Severity

def name : Severity → Text
  | high => "high"
  | medium => "medium"
  | low => "low"

/-- The more severe of two. -/
def worse : Severity → Severity → Severity
  | high, _ | _, high => high
  | medium, _ | _, medium => medium
  | low, low => low

end Severity

inductive Category where
  | url
  | host
  | encryption
  | auth
  | net
  | file
  | registry
  | process
  | base64
  deriving DecidableEq, Repr

namespace Category

/-- Every category, in the order in which a literal's categories are given. -/
def all : List Category :=
  [url, host, encryption, auth, net, file, registry, process, base64]

def name : Category → Text
  | url => "url"
  | host => "host"
  | encryption => "encryption"
  | auth => "auth"
  | net => "net"
  | file => "file"
  | registry => "registry"
  | process => "process"
  | base64 => "base64"

def ofName? (t : Text) : Option Category := all.find? fun c => c.name = t

def severity : Category → Severity
  | encryption | auth | base64 | process => .high
  | url | host | registry => .medium
  | net | file => .low

end Category

namespace Severity

/-- The severity of a category by its name; what has no such name is low. -/
def ofCategory (name : Text) : Severity := ((Category.ofName? name).map Category.severity).getD low

/-- The worst severity among the named categories. -/
def ofCategories (names : List Text) : Severity :=
  (names.map ofCategory).foldl worse low

end Severity

namespace Signal

open Pattern

/-- Letters of ASCII, in a literal whose letter case has been folded away. -/
def isFoldedLetter (c : Char) : Bool := c.isLower

/-- One of the words with no letter on either side. -/
def apart (words : List String) : Pattern :=
  inOrder [either start (one (!isFoldedLetter ·)), anyWord words,
    either (one (!isFoldedLetter ·)) finish]

def urlScheme : Pattern := seq (anyWord ["https", "http", "wss", "ws", "ftp"]) (word "://")

/-- One to three digits. -/
def octet : Pattern :=
  let digit := one Char.isDigit
  seq digit (optional (seq digit (optional digit)))

def dottedQuad : Pattern :=
  let dot := word "."
  inOrder [boundary, octet, dot, octet, dot, octet, dot, octet, boundary]

/-- Names of ciphers and digests too short to be looked for inside words. -/
def shortCryptoWords : List String :=
  ["aes", "rsa", "dsa", "ecdsa", "ecdh", "hmac", "sha1", "sha256", "sha384", "sha512", "md5",
    "cbc", "ecb", "gcm", "pkcs", "xor", "rc2", "rc4", "des", "3des", "salt", "iv"]

/-- Looked for in the literal in lower case without separators. -/
def cryptoKeywords : List String :=
  ["encrypt", "decrypt", "cipher", "rijndael", "tripledes", "pbkdf", "rfc2898", "argon2",
    "bcrypt", "scrypt", "signature", "digest", "privatekey", "publickey", "hmacsha", "chacha",
    "blowfish", "twofish", "nonce", "saltvalue", "x509"]

def authWords : List String :=
  ["oauth", "jwt", "bearer", "credential", "passwd", "apikey", "api_key", "api-key",
    "authorization", "authenticate", "connectionstring", "password", "pwd", "token", "secret",
    "login"]

def netKeywords : List String :=
  ["socket", "connect", "dns", "proxy", "redirect", "tcpclient", "webclient", "httpclient"]

def httpMethods : List String := ["GET", "POST", "PUT", "DELETE", "PATCH", "HEAD", "OPTIONS"]

def fileExtensions : List String :=
  [".dll", ".exe", ".so", ".dylib", ".config", ".json", ".xml", ".yaml", ".yml", ".ini", ".db",
    ".sqlite", ".mdb", ".key", ".pem", ".cer", ".crt", ".pfx", ".p12", ".snk", ".ps1", ".bat",
    ".cmd", ".vbs", ".js", ".zip", ".gz"]

/-- A root key at the start, or a well-known branch of the software key anywhere. -/
def registryPath : Pattern :=
  either
    (inOrder [start,
      either (seq (word "hkey_") (run fun c => isFoldedLetter c || c = '_'))
        (anyWord ["hklm", "hkcu", "hkcr"]),
      either (word "\\") finish])
    (inOrder [word "software\\", anyWord ["microsoft", "wow6432node", "classes"], word "\\"])

def isSpace (c : Char) : Bool :=
  c = ' ' || c = '\t' || c = '\n' || c = '\r' || c.toNat = 0x0C

/-- A command interpreter or loader as a word of a command line. -/
def commandName : Pattern :=
  inOrder [either start (one fun c => c = '\\' || c = '/' || c = '"' || isSpace c),
    anyWord ["cmd", "powershell", "pwsh", "rundll32", "regsvr32", "schtasks", "mshta", "wscript",
      "cscript", "certutil"],
    optional (word ".exe"),
    either (one fun c => isSpace c || c = '"') finish]

/-- Is the pattern in the text, letter case aside? -/
def occursFolded (p : Pattern) (t : Text) : Bool := p.occursIn (t.chars.map Text.foldChar)

def containsAny (t : Text) (parts : List String) : Bool :=
  parts.any fun part => t.contains (Text.ofString part)

/-- Lower case, without underscores, hyphens, points and spaces. -/
def squash (t : Text) : Text :=
  t.lower.filter fun b => !(b = 0x5F || b = 0x2D || b = 0x2E || b = 0x20)

/-- A name with one of the extensions at the end of the literal, or before a space or comma. -/
def namesFile (t : Text) : Bool :=
  fileExtensions.any fun ext =>
    t.lower.endsWith ext || t.lower.contains (ext ++ " ") || t.lower.contains (ext ++ ",")

def isBase64Byte (b : UInt8) : Bool :=
  (0x41 ≤ b && b ≤ 0x5A) || (0x61 ≤ b && b ≤ 0x7A) || Text.isDigit b || b = 0x2B || b = 0x2F
    || b = 0x3D

/-- A lower-case letter directly before an upper-case one. -/
def hasHump : Text → Bool
  | a :: b :: rest =>
    (0x61 ≤ a && a ≤ 0x7A && 0x41 ≤ b && b ≤ 0x5A) || hasHump (b :: rest)
  | _ => false

/-- Words run together, such as a method's name: all letters, with a hump. -/
def isIdentifier (t : Text) : Bool :=
  t.all (fun b => !(b = 0x2B || b = 0x2F || b = 0x3D || Text.isDigit b)) && hasHump t

/-- Sixteen or more characters of the base-64 alphabet that look random and are no name. -/
def looksEncoded (t : Text) : Bool :=
  16 ≤ t.trim.length && t.trim.all isBase64Byte && t.entropyAbove 7 2 && !isIdentifier t.trim

/-- The test of a category. -/
def belongs (t : Text) : Category → Bool
  | .url => occursFolded urlScheme t
  | .host => dottedQuad.occursIn t.chars
  | .encryption => containsAny (squash t) cryptoKeywords || occursFolded (apart shortCryptoWords) t
  | .auth => occursFolded (apart authWords) t
  | .net => httpMethods.any (fun m => t = Text.ofString m) || containsAny t.lower netKeywords
  | .file => namesFile t
  | .registry => occursFolded registryPath t
  | .process => occursFolded commandName t
  | .base64 => looksEncoded t

/-- The categories of a literal. One of fewer than two bytes has none. -/
def classify (t : Text) : List Category :=
  if t.length < 2 then [] else Category.all.filter (belongs t)

end Signal

end CilAudit
