import DbBackup.Storage.Sidecar

/-!
Owns the codecs of the backup pipeline: the compression and encryption types of
`internal/compress` and `internal/encrypt` with their names, endings and magic
bytes, `Detect`, and the contract the development uses of the libraries behind
them (`Codecs`).

A `Codecs` value stands for the libraries with the random choices and keys of
one run fixed. Does not own the choice of a codec at restore time.
-/

set_option linter.all false

namespace DbBackup.Pipeline

open Lib.GoString

abbrev Bytes := List UInt8

def ascii (text : String) : Bytes :=
  text.toList.map fun c => UInt8.ofNat c.toNat

/-! ### Compression -/

inductive Compression where
  | none
  | gzip
  | bzip2
  | xzip
  | zstd
deriving DecidableEq

namespace Compression

def text : Compression → String
  | .none => "none"
  | .gzip => "gz"
  | .bzip2 => "bz"
  | .xzip => "xz"
  | .zstd => "zstd"

def extension : Compression → String
  | .bzip2 => ".bz2"
  | .gzip => ".gz"
  | .xzip => ".xz"
  | .zstd => ".zst"
  | .none => ""

def fromExtension (ext : String) : Compression :=
  let lower := toLower ext
  if lower = ".bz" ∨ lower = ".bz2" then .bzip2
  else if lower = ".gz" then .gzip
  else if lower = ".xz" then .xzip
  else if lower = ".zst" ∨ lower = ".zstd" then .zstd
  else .none

def parse (name : String) : Compression :=
  let lower := toLower name
  if lower = "bz" ∨ lower = "bzip" ∨ lower = "bzip2" then .bzip2
  else if lower = "gz" ∨ lower = "gzip" then .gzip
  else if lower = "xz" ∨ lower = "xzip" then .xzip
  else if lower = "zst" ∨ lower = "zstd" then .zstd
  else .none

def magic : Compression → Bytes
  | .gzip => [0x1f, 0x8b]
  | .bzip2 => ascii "BZh"
  | .xzip => [0xfd, 0x37, 0x7a, 0x58, 0x5a, 0x00]
  | .zstd => [0x28, 0xb5, 0x2f, 0xfd]
  | .none => []

theorem parse_text (ct : Compression) : parse ct.text = ct := by
  cases ct <;> decide

end Compression

/-! ### Encryption -/

inductive Encryption where
  | none
  | age
  | openPGP
  | openSSL
deriving DecidableEq

def Encryption.text : Encryption → String
  | .none => ""
  | .age => "age"
  | .openPGP => "gpg"
  | .openSSL => "openssl"

structure EncryptorSpec where
  type : Encryption
  aliases : List String := []
  extension : String
  magic : List String

/-- What the three backends register. The source keeps a map and ranges over it
in no fixed order; no two entries share a name, an alias or a first magic
character, so the order does not show. -/
def encryptors : List EncryptorSpec :=
  [{ type := .age, extension := ".age", magic := ["age-encryption.org/v1"] },
    { type := .openPGP, aliases := ["pgp", "openpgp"], extension := ".gpg",
      magic := ["-----BEGIN PGP"] },
    { type := .openSSL, aliases := ["aes-256-cbc", "aes256"], extension := ".enc",
      magic := ["Salted__"] }]

def lookupEncryptor (name : String) : Option EncryptorSpec :=
  if name = "" then none
  else
    let lower := toLower name
    encryptors.find? fun spec => spec.type.text = lower || spec.aliases.contains lower

def recognizesAlias (name canonical : String) (aliases : List String) : Bool :=
  let lower := toLower (trimSpace name)
  lower = canonical || aliases.contains lower

namespace Encryption

def parse (name : String) : Encryption :=
  match lookupEncryptor name with
  | .some spec => spec.type
  | .none =>
    if recognizesAlias name "gpg" ["pgp", "openpgp"] then .openPGP
    else if recognizesAlias name "openssl" ["aes-256-cbc", "aes256"] then .openSSL
    else .none

def extension (t : Encryption) : String :=
  match lookupEncryptor t.text with
  | .some spec => spec.extension
  | .none =>
    match t with
    | .openPGP => ".gpg"
    | .openSSL => ".enc"
    | _ => ""

theorem parse_text (t : Encryption) : parse t.text = t := by
  cases t <;> decide

end Encryption

def hasHighBit (bytes : Bytes) : Bool :=
  match bytes with
  | first :: _ => first &&& 0x80 ≠ 0
  | [] => false

def detect (bytes : Bytes) : Encryption :=
  let head := bytes.take 64
  match encryptors.find? fun spec => spec.magic.any fun m => (ascii m).isPrefixOf head with
  | some spec => spec.type
  | none =>
    if (ascii "-----BEGIN PGP").isPrefixOf head then .openPGP
    else if (ascii "Salted__").isPrefixOf head then .openSSL
    else if hasHighBit head then .openPGP
    else .none

/-- The first bytes are those of an encrypted file, or of a binary packet. -/
def LooksEncrypted (bytes : Bytes) : Prop :=
  ascii "age-encryption.org/v1" <+: bytes ∨ ascii "-----BEGIN PGP" <+: bytes ∨
    ascii "Salted__" <+: bytes ∨ hasHighBit bytes = true

instance (bytes : Bytes) : Decidable (LooksEncrypted bytes) :=
  inferInstanceAs (Decidable (_ ∨ _))

theorem detect_eq_none_iff (bytes : Bytes) :
    detect bytes = .none ↔ ¬ LooksEncrypted bytes := by
  have inHead : ∀ magic : Bytes, magic.length ≤ 64 →
      (magic.isPrefixOf (bytes.take 64) = true ↔ magic <+: bytes) := by
    intro magic short
    rw [List.isPrefixOf_iff_prefix, List.prefix_take_iff]
    exact and_iff_left short
  have sameHighBit : hasHighBit (bytes.take 64) = hasHighBit bytes := by
    cases bytes <;> rfl
  have age := inHead (ascii "age-encryption.org/v1") (by decide)
  have pgp := inHead (ascii "-----BEGIN PGP") (by decide)
  have salted := inHead (ascii "Salted__") (by decide)
  unfold LooksEncrypted detect
  rw [← age, ← pgp, ← salted, ← sameHighBit]
  simp only [encryptors, List.find?_cons, List.find?_nil, List.any_cons, List.any_nil,
    Bool.or_false]
  cases (ascii "age-encryption.org/v1").isPrefixOf (bytes.take 64) <;>
    cases (ascii "-----BEGIN PGP").isPrefixOf (bytes.take 64) <;>
      cases (ascii "Salted__").isPrefixOf (bytes.take 64) <;>
        cases hasHighBit (bytes.take 64) <;> simp

/-- Of the compressed formats only xz is taken for an encrypted file. -/
theorem looksEncrypted_of_magic {ct : Compression} {bytes : Bytes} (compressed : ct ≠ .none)
    (magic : ct.magic <+: bytes) : LooksEncrypted bytes ↔ ct = .xzip := by
  obtain ⟨rest, rfl⟩ := magic
  cases ct <;> simp_all [LooksEncrypted, Compression.magic, ascii, hasHighBit] <;> decide

/-! ### The libraries -/

/-- The codec libraries, for one run. `encrypt` is the encryption with the run's
recipients or passphrase; `decrypt` gets identities and a passphrase. The zstd
writer alone writes nothing for an empty dump. -/
structure Codecs where
  compress : Compression → Bytes → Bytes
  decompress : Compression → Bytes → Except String Bytes
  encrypt : Encryption → Bytes → Bytes
  decrypt : Encryption → List String → String → Bytes → Except String Bytes
  decompress_compress : ∀ ct bytes, decompress ct (compress ct bytes) = .ok bytes
  magic_compress : ∀ ct bytes,
    ct.magic <+: compress ct bytes ∨ (ct = .zstd ∧ bytes = [] ∧ compress ct bytes = [])
  magic_of_decompress : ∀ ct bytes out, decompress ct bytes = .ok out →
    bytes = [] ∨ ct.magic <+: bytes
  salted_encrypt : ∀ bytes, ascii "Salted__" <+: encrypt .openSSL bytes
  length_encrypt : ∀ bytes, bytes.length < (encrypt .openSSL bytes).length

namespace Codecs

variable (codecs : Codecs)

/-- The writer of `compress.New`. -/
def compressWith : Compression → Bytes → Bytes
  | .none, bytes => bytes
  | ct, bytes => codecs.compress ct bytes

def decompressWith : Compression → Bytes → Except String Bytes
  | .none, bytes => .ok bytes
  | ct, bytes => codecs.decompress ct bytes

/-- The writer of `encrypt.New`. -/
def encryptWith : Encryption → Bytes → Bytes
  | .none, bytes => bytes
  | t, bytes => codecs.encrypt t bytes

def decryptAgePassphrase (bytes : Bytes) (pass : String) : Except String Bytes :=
  if pass = "" then .error "age: no passphrase provided" else codecs.decrypt .age [] pass bytes

def decryptAge (bytes : Bytes) (ids : List String) : Except String Bytes :=
  if ids = [] then .error "age: no identities provided" else codecs.decrypt .age ids "" bytes

def decryptOpenPGP (bytes : Bytes) (ids : List String) (pass : String) : Except String Bytes :=
  if pass = "" ∧ ids = [] then .error "openpgp: no identity or passphrase provided"
  else codecs.decrypt .openPGP ids pass bytes

def decryptOpenSSL (bytes : Bytes) (pass : String) : Except String Bytes :=
  if pass = "" then .error "openssl: passphrase required"
  else if (ascii "Salted__").isPrefixOf bytes then codecs.decrypt .openSSL [] pass bytes
  else .error "openssl: not an openssl enc backup (missing \"Salted__\" header)"

theorem decompressWith_compressWith (ct : Compression) (bytes : Bytes) :
    codecs.decompressWith ct (codecs.compressWith ct bytes) = .ok bytes := by
  cases ct with
  | none => rfl
  | _ => exact codecs.decompress_compress _ bytes

/-- A file that starts as an OpenSSL file does is no compressed file. -/
theorem decompressWith_salted {ct : Compression} {bytes out : Bytes} (compressed : ct ≠ .none)
    (salted : ascii "Salted__" <+: bytes) : codecs.decompressWith ct bytes ≠ .ok out := by
  intro decoded
  have read : codecs.decompress ct bytes = .ok out := by
    cases ct with
    | none => exact absurd rfl compressed
    | _ => exact decoded
  obtain ⟨rest, rfl⟩ := salted
  rcases codecs.magic_of_decompress ct _ out read with empty | magic
  · exact absurd empty (by simp [ascii])
  · cases ct <;> simp_all [Compression.magic, ascii]

end Codecs

end DbBackup.Pipeline
