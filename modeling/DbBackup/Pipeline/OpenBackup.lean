import DbBackup.Pipeline.Codec

/-!
Owns the two ends of the backup pipeline: the bytes, the file name and the
encryption metadata a run leaves behind (`Run` in
`internal/scheduler/runner/runner.go`), and how a restore reads them back
(`cmdRestore` and `OpenBackup` in `internal/retention/unpack.go`).

Contract: with the right passphrase the restore gives the dump back, except
where the choice of the decryptor goes wrong. That choice looks at the sidecar,
then at the file ending, then at the first bytes; an unencrypted xz file and a
plain dump with such first bytes are taken for encrypted files, and the ending
`.enc` names no encryption type.
-/

set_option linter.all false

namespace DbBackup.Pipeline

open Lib.GoString Storage

/-! ### What a run leaves behind -/

def uploaded (codecs : Codecs) (ct : Compression) (enc : Encryption) (dump : Bytes) : Bytes :=
  codecs.encryptWith enc (codecs.compressWith ct dump)

/-- `stem` is the expanded name template. -/
def runFilename (stem dbType : String) (ct : Compression) (enc : Encryption)
    (taken : String → Bool) : String :=
  uniqueBackupName
    (stem ++ (formatExtension dbType ++ ct.extension ++
      (if enc = .none then "" else enc.extension))) taken

def runSidecar (enc : Encryption) : Sidecar :=
  if enc = .none then {} else { encryption := some { type := enc.text } }

/-! ### What a restore reads -/

structure DecryptOpts where
  encryptionType : String := "auto"
  agePass : String := ""
  gpgPass : String := ""
  openSSLPass : String := ""
  identity : String := ""
  fallbackPass : String := ""
  fallbackID : String := ""
deriving DecidableEq

/-- `config.ResolveSecret`: `file://` and `env://` references are looked up,
every other text stands for itself. -/
structure Secrets where
  resolve : String → String
  resolve_empty : resolve "" = ""

def firstNonEmpty (first second : String) : String :=
  if first ≠ "" then first else second

def passFor (opts : DecryptOpts) : Encryption → String
  | .age => firstNonEmpty opts.agePass opts.fallbackPass
  | .openPGP => firstNonEmpty opts.gpgPass opts.fallbackPass
  | .openSSL => firstNonEmpty opts.openSSLPass opts.fallbackPass
  | .none => ""

/-- `encMeta` of `cmdRestore`, from the sidecar or from the name alone. -/
def restoreMeta (sidecar : Option Sidecar) (opts : DecryptOpts) (name : String) :
    Option EncryptionMeta :=
  match sidecar.bind Sidecar.encryption with
  | some encMeta => some encMeta
  | none =>
    let ext := filepathExt name
    if ext = ".age" ∨ ext = ".gpg" ∨ ext = ".enc" then some { type := trimPrefix ext "." }
    else if opts.gpgPass ≠ "" then some { type := "gpg" }
    else if opts.openSSLPass ≠ "" then some { type := "openssl" }
    else none

def resolveType (bytes : Bytes) (encMeta : Option EncryptionMeta) (opts : DecryptOpts) :
    Except String Encryption :=
  if opts.encryptionType ≠ "" ∧ toLower opts.encryptionType ≠ "auto" then
    if Encryption.parse opts.encryptionType = .none then
      .error ("unknown encryption type \"" ++ opts.encryptionType ++ "\" (auto|age|gpg|openssl)")
    else .ok (Encryption.parse opts.encryptionType)
  else
    match encMeta with
    | some encMeta => if encMeta.type ≠ "" then .ok (Encryption.parse encMeta.type) else .ok (detect bytes)
    | none => .ok (detect bytes)

def restoreIdentities (secrets : Secrets) (opts : DecryptOpts) : List String :=
  let id := secrets.resolve (firstNonEmpty opts.identity opts.fallbackID)
  if id = "" then [] else [id]

/-- The `switch` of `OpenBackup`. -/
def decryptWith (codecs : Codecs) (secrets : Secrets) (opts : DecryptOpts) (t : Encryption)
    (bytes : Bytes) : Except String Bytes :=
  let pass := secrets.resolve (passFor opts t)
  let ids := restoreIdentities secrets opts
  match t with
  | .none => .ok bytes
  | .age =>
    if pass ≠ "" then codecs.decryptAgePassphrase bytes pass else codecs.decryptAge bytes ids
  | .openPGP => codecs.decryptOpenPGP bytes ids pass
  | .openSSL =>
    if pass = "" then
      .error "openssl-encrypted backup requires --openssl-passphrase or restore.passphrase"
    else codecs.decryptOpenSSL bytes pass

def decryptedName (name : String) : String :=
  [".age", ".gpg", ".enc"].foldl trimSuffix name

def compressionOf (name compressType : String) : Compression :=
  Compression.parse
    (if compressType = "" then (Compression.fromExtension (filepathExt (decryptedName name))).text
    else compressType)

def openBackup (codecs : Codecs) (secrets : Secrets) (bytes : Bytes)
    (encMeta : Option EncryptionMeta) (opts : DecryptOpts) (name compressType : String) :
    Except String Bytes := do
  let t ← resolveType bytes encMeta opts
  let plain ← decryptWith codecs secrets opts t bytes
  codecs.decompressWith (compressionOf name compressType) plain

/-! ### File names -/

def formats : List String := [".couch", ".influx", ".mongo", ".redis", ".sql"]

theorem mem_formats (dbType : String) : formatExtension dbType ∈ formats :=
  formatExtension_mem dbType

variable {fmt : String}

theorem hasSuffix_packaged (isFormat : fmt ∈ formats) (start : String)
    (ct : Compression) {ending : String} (isEnding : ending ∈ [".age", ".gpg", ".enc"]) :
    hasSuffix (start ++ (fmt ++ ct.extension)) ending = false := by
  have each : ∀ fmt ∈ formats, ∀ ending ∈ [".age", ".gpg", ".enc"],
      ending.toList.length ≤ (fmt ++ ct.extension).toList.length ∧
        hasSuffix (fmt ++ ct.extension) ending = false := by
    cases ct <;> decide
  obtain ⟨fits, absent⟩ := each fmt isFormat ending isEnding
  rw [hasSuffix_append_eq start _ ending fits, absent]

/-- What is left of a run's name without its encryption ending. -/
theorem decryptedName_append (isFormat : fmt ∈ formats) (start : String)
    (ct : Compression) (enc : Encryption) :
    decryptedName (start ++ (fmt ++ ct.extension ++ (if enc = .none then "" else enc.extension))) =
      start ++ (fmt ++ ct.extension) := by
  have noAge := trimSuffix_of_not_hasSuffix
    (hasSuffix_packaged isFormat start ct (show ".age" ∈ [".age", ".gpg", ".enc"] by decide))
  have noGpg := trimSuffix_of_not_hasSuffix
    (hasSuffix_packaged isFormat start ct (show ".gpg" ∈ [".age", ".gpg", ".enc"] by decide))
  have noEnc := trimSuffix_of_not_hasSuffix
    (hasSuffix_packaged isFormat start ct (show ".enc" ∈ [".age", ".gpg", ".enc"] by decide))
  have kept : ∀ first second : String, second.toList.length = 4 → first.toList.length = 4 →
      hasSuffix first second = false → ∀ text : String,
      trimSuffix (text ++ first) second = text ++ first := by
    intro first second secondLength firstLength absent text
    apply trimSuffix_of_not_hasSuffix
    rw [hasSuffix_append_eq text first second (by omega), absent]
  have ageExt : Encryption.age.extension = ".age" := by decide
  have gpgExt : Encryption.openPGP.extension = ".gpg" := by decide
  have encExt : Encryption.openSSL.extension = ".enc" := by decide
  unfold decryptedName
  simp only [List.foldl_cons, List.foldl_nil]
  cases enc with
  | none => simp only [↓reduceIte, String.append_empty, noAge, noGpg, noEnc]
  | age =>
    simp only [reduceCtorEq, ↓reduceIte, ageExt]
    rw [← String.append_assoc, trimSuffix_append, noGpg, noEnc]
  | openPGP =>
    simp only [reduceCtorEq, ↓reduceIte, gpgExt]
    rw [← String.append_assoc, kept ".gpg" ".age" (by decide) (by decide) (by decide),
      trimSuffix_append, noEnc]
  | openSSL =>
    simp only [reduceCtorEq, ↓reduceIte, encExt]
    rw [← String.append_assoc, kept ".enc" ".age" (by decide) (by decide) (by decide),
      kept ".enc" ".gpg" (by decide) (by decide) (by decide), trimSuffix_append]

/-- An ending of one dot and a word is found as the extension. -/
def IsExtension (ending : String) : Prop :=
  ending = String.ofList ('.' :: ending.toList.tail) ∧
    ∀ c ∈ ending.toList.tail, c ≠ '.' ∧ c ≠ '/'

-- The bounded quantifier is decided along the list, not over all characters.
instance (ending : String) : Decidable (IsExtension ending) :=
  @instDecidableAnd _ _ (decEq _ _)
    (List.decidableBAll (fun c => c ≠ '.' ∧ c ≠ '/') ending.toList.tail)

theorem filepathExt_of_isExtension (start : String) {ending : String}
    (isExtension : IsExtension ending) : filepathExt (start ++ ending) = ending := by
  have found := filepathExt_append start ending.toList.tail isExtension.2
  rwa [← isExtension.1] at found

theorem filepathExt_packaged (isFormat : fmt ∈ formats) (start : String) (ct : Compression) :
    filepathExt (start ++ (fmt ++ ct.extension)) = if ct = .none then fmt else ct.extension := by
  have formatDotted : ∀ fmt ∈ formats, IsExtension fmt := by decide
  have compressionDotted : ct ≠ .none → IsExtension ct.extension := by
    cases ct <;> decide
  by_cases plain : ct = .none
  · rw [if_pos plain, plain]
    show filepathExt (start ++ (fmt ++ "")) = fmt
    rw [String.append_empty]
    exact filepathExt_of_isExtension start (formatDotted fmt isFormat)
  · rw [if_neg plain, ← String.append_assoc]
    exact filepathExt_of_isExtension _ (compressionDotted plain)

/-- The names of runs, whatever collision renaming did to them. -/
theorem runFilename_eq (stem dbType : String) (ct : Compression) (enc : Encryption)
    (taken : String → Bool) :
    ∃ start, runFilename stem dbType ct enc taken =
      start ++ (formatExtension dbType ++ ct.extension ++
        (if enc = .none then "" else enc.extension)) := by
  unfold runFilename
  apply uniqueBackupName_append
  have dotted : ∀ fmt ∈ formats, ∃ word, fmt.toList = '.' :: word := by
    intro fmt isFormat
    simp only [formats, List.mem_cons, List.not_mem_nil, or_false] at isFormat
    rcases isFormat with rfl | rfl | rfl | rfl | rfl <;> exact ⟨_, rfl⟩
  obtain ⟨word, shape⟩ := dotted _ (mem_formats dbType)
  simp [shape]

section Run

variable (stem dbType : String) (ct : Compression) (enc : Encryption) (taken : String → Bool)

/-- The compression of a run can be read off its file name. -/
theorem compressionOf_runFilename :
    compressionOf (runFilename stem dbType ct enc taken) "" = ct := by
  obtain ⟨start, name⟩ := runFilename_eq stem dbType ct enc taken
  have isFormat := mem_formats dbType
  have noCompression : ∀ fmt ∈ formats, Compression.fromExtension fmt = .none := by decide
  unfold compressionOf
  rw [if_pos rfl, name, decryptedName_append isFormat, filepathExt_packaged isFormat,
    Compression.parse_text]
  by_cases plain : ct = .none
  · rw [if_pos plain, noCompression _ isFormat, plain]
  · rw [if_neg plain]
    cases ct <;> first | exact absurd rfl plain | decide

/-- So can the ending of its encryption, if any. -/
theorem filepathExt_runFilename :
    (enc ≠ .none → filepathExt (runFilename stem dbType ct enc taken) = enc.extension) ∧
      (enc = .none → filepathExt (runFilename stem dbType ct enc taken) ∉
        [".age", ".gpg", ".enc"]) := by
  obtain ⟨start, name⟩ := runFilename_eq stem dbType ct enc taken
  have isFormat := mem_formats dbType
  refine ⟨fun encrypted => ?_, fun plain => ?_⟩
  · have dotted : enc ≠ .none → IsExtension enc.extension := by
      cases enc <;> decide
    rw [name, if_neg encrypted, ← String.append_assoc]
    exact filepathExt_of_isExtension _ (dotted encrypted)
  · have formatPlain : ∀ fmt ∈ formats, fmt ∉ [".age", ".gpg", ".enc"] := by decide
    rw [name, if_pos plain, String.append_empty, filepathExt_packaged isFormat]
    by_cases uncompressed : ct = .none
    · rw [if_pos uncompressed]
      exact formatPlain _ isFormat
    · rw [if_neg uncompressed]
      cases ct <;> decide

/-! ### The decryptor a restore picks -/

variable {opts : DecryptOpts}

def AutoType (opts : DecryptOpts) : Prop :=
  opts.encryptionType = "" ∨ toLower opts.encryptionType = "auto"

theorem resolveType_some (auto : AutoType opts) (bytes : Bytes) {type : String}
    (named : type ≠ "") :
    resolveType bytes (some { type := type }) opts = .ok (Encryption.parse type) := by
  rcases auto with empty | isAuto
  · simp [resolveType, empty, named]
  · simp [resolveType, isAuto, named]

theorem resolveType_none (auto : AutoType opts) (bytes : Bytes) :
    resolveType bytes none opts = .ok (detect bytes) := by
  rcases auto with empty | isAuto
  · simp [resolveType, empty]
  · simp [resolveType, isAuto]

def pickedMeta (opts : DecryptOpts) (sidecarPresent : Bool) : Option EncryptionMeta :=
  restoreMeta (if sidecarPresent then some (runSidecar enc) else none) opts
    (runFilename stem dbType ct enc taken)

/-- An encrypted run is opened by its own decryptor, except that without the
sidecar an OpenSSL file is opened by none. -/
theorem resolveType_encrypted (auto : AutoType opts) (bytes : Bytes) (encrypted : enc ≠ .none)
    (sidecarPresent : Bool) :
    resolveType bytes (pickedMeta stem dbType ct enc taken opts sidecarPresent) opts =
      .ok (if enc = .openSSL ∧ sidecarPresent = false then .none else enc) := by
  unfold pickedMeta
  cases sidecarPresent with
  | true =>
    have fromSidecar : restoreMeta (some (runSidecar enc)) opts
        (runFilename stem dbType ct enc taken) = some { type := enc.text } := by
      simp [restoreMeta, runSidecar, encrypted]
    have named : enc.text ≠ "" := by cases enc <;> first | exact absurd rfl encrypted | decide
    simp only [↓reduceIte, fromSidecar]
    rw [resolveType_some auto bytes named, Encryption.parse_text]
    simp
  | false =>
    have ext := (filepathExt_runFilename stem dbType ct enc taken).1 encrypted
    have endings : enc ≠ .none → enc.extension = ".age" ∨ enc.extension = ".gpg" ∨
        enc.extension = ".enc" := by cases enc <;> decide
    have fromName : restoreMeta none opts (runFilename stem dbType ct enc taken) =
        some { type := trimPrefix enc.extension "." } := by
      simp only [restoreMeta, Option.bind_none, ext]
      rw [if_pos (endings encrypted)]
    have named : enc ≠ .none → trimPrefix enc.extension "." ≠ "" := by cases enc <;> decide
    have parsed : enc ≠ .none → Encryption.parse (trimPrefix enc.extension ".") =
        if enc = .openSSL then .none else enc := by cases enc <;> decide
    simp only [Bool.false_eq_true, ↓reduceIte, fromName, and_true]
    rw [resolveType_some auto bytes (named encrypted), parsed encrypted]

/-! ### Credentials -/

def NoCredentials (opts : DecryptOpts) : Prop :=
  opts.agePass = "" ∧ opts.gpgPass = "" ∧ opts.openSSLPass = "" ∧ opts.identity = "" ∧
    opts.fallbackPass = "" ∧ opts.fallbackID = ""

/-- The right passphrase or identity is one that the type's decryptor accepts;
an unencrypted file needs none. -/
def RightCredentials (codecs : Codecs) (secrets : Secrets) (enc : Encryption)
    (opts : DecryptOpts) : Prop :=
  AutoType opts ∧
    (enc = .none → NoCredentials opts) ∧
    (enc ≠ .none → ∀ bytes,
      decryptWith codecs secrets opts enc (codecs.encrypt enc bytes) = .ok bytes)

instance (opts : DecryptOpts) : Decidable (NoCredentials opts) :=
  inferInstanceAs (Decidable (_ ∧ _))

theorem resolveType_plain (auto : AutoType opts) (none : NoCredentials opts) (bytes : Bytes)
    (plain : enc = .none) (sidecarPresent : Bool) :
    resolveType bytes (pickedMeta stem dbType ct enc taken opts sidecarPresent) opts =
      .ok (detect bytes) := by
  have noMeta : pickedMeta stem dbType ct enc taken opts sidecarPresent = Option.none := by
    have ext := (filepathExt_runFilename stem dbType ct enc taken).2 plain
    simp only [List.mem_cons, List.not_mem_nil, or_false] at ext
    have noEncryption : (if sidecarPresent then some (runSidecar enc) else Option.none).bind
        Sidecar.encryption = Option.none := by
      cases sidecarPresent <;> simp [runSidecar, plain]
    unfold pickedMeta restoreMeta
    rw [noEncryption]
    simp [ext, none.2.1, none.2.2.1]
  rw [noMeta, resolveType_none auto]

variable (codecs : Codecs)

/-- Without credentials every decryptor refuses. -/
theorem decryptWith_noCredentials (secrets : Secrets)
    (none : NoCredentials opts) {t : Encryption} (encrypted : t ≠ .none) (bytes out : Bytes) :
    decryptWith codecs secrets opts t bytes ≠ .ok out := by
  obtain ⟨noAge, noGpg, noOpenSSL, noIdentity, noPass, noID⟩ := none
  have noIds : restoreIdentities secrets opts = [] := by
    simp [restoreIdentities, firstNonEmpty, noIdentity, noID, secrets.resolve_empty]
  cases t with
  | none => exact absurd rfl encrypted
  | age =>
    simp [decryptWith, passFor, firstNonEmpty, noAge, noPass, noIds, secrets.resolve_empty,
      Codecs.decryptAge]
  | openPGP =>
    simp [decryptWith, passFor, firstNonEmpty, noGpg, noPass, noIds, secrets.resolve_empty,
      Codecs.decryptOpenPGP]
  | openSSL =>
    simp [decryptWith, passFor, firstNonEmpty, noOpenSSL, noPass, secrets.resolve_empty]

/-! ### The round trip -/

/-- What a restore makes of the file a run uploaded. -/
def restored (codecs : Codecs) (secrets : Secrets) (opts : DecryptOpts) (sidecarPresent : Bool)
    (dump : Bytes) : Except String Bytes :=
  openBackup codecs secrets (uploaded codecs ct enc dump)
    (pickedMeta stem dbType ct enc taken opts sidecarPresent) opts
    (runFilename stem dbType ct enc taken) ""

theorem restored_eq (secrets : Secrets) {sidecarPresent : Bool} {dump : Bytes} {t : Encryption}
    (picked : resolveType (uploaded codecs ct enc dump)
      (pickedMeta stem dbType ct enc taken opts sidecarPresent) opts = .ok t) :
    restored stem dbType ct enc taken codecs secrets opts sidecarPresent dump =
      (decryptWith codecs secrets opts t (uploaded codecs ct enc dump)).bind
        (codecs.decompressWith ct) := by
  unfold restored openBackup
  rw [picked, compressionOf_runFilename]
  rfl

theorem encryptWith_of_ne_none {codecs : Codecs} {enc : Encryption} (encrypted : enc ≠ .none)
    (bytes : Bytes) : codecs.encryptWith enc bytes = codecs.encrypt enc bytes := by
  cases enc <;> first | exact absurd rfl encrypted | rfl

theorem restored_encrypted {codecs : Codecs} {secrets : Secrets}
    (right : RightCredentials codecs secrets enc opts) (encrypted : enc ≠ .none)
    {sidecarPresent : Bool} (picks : ¬ (enc = .openSSL ∧ sidecarPresent = false)) (dump : Bytes) :
    restored stem dbType ct enc taken codecs secrets opts sidecarPresent dump = .ok dump := by
  have picked := resolveType_encrypted stem dbType ct enc taken right.1
    (uploaded codecs ct enc dump) encrypted sidecarPresent
  rw [if_neg picks] at picked
  rw [restored_eq stem dbType ct enc taken codecs secrets picked]
  unfold uploaded
  rw [encryptWith_of_ne_none encrypted, right.2.2 encrypted]
  exact codecs.decompressWith_compressWith ct dump

/-- The ciphertext goes to the decompressor as it is. -/
theorem restored_openSSL_without_sidecar {codecs : Codecs} {secrets : Secrets}
    (auto : AutoType opts) (dump : Bytes) :
    restored stem dbType ct .openSSL taken codecs secrets opts false dump ≠ .ok dump := by
  have picked := resolveType_encrypted stem dbType ct .openSSL taken auto
    (uploaded codecs ct .openSSL dump) (by decide) false
  rw [if_pos ⟨rfl, rfl⟩] at picked
  rw [restored_eq stem dbType ct .openSSL taken codecs secrets picked]
  show codecs.decompressWith ct (codecs.encrypt .openSSL (codecs.compressWith ct dump)) ≠ .ok dump
  by_cases uncompressed : ct = .none
  · rw [uncompressed]
    intro same
    have longer := codecs.length_encrypt dump
    have sameBytes : codecs.encrypt .openSSL dump = dump := Except.ok.inj same
    rw [sameBytes] at longer
    exact Nat.lt_irrefl _ longer
  · exact codecs.decompressWith_salted uncompressed (codecs.salted_encrypt _)

theorem looksEncrypted_compressWith (ct : Compression) (dump : Bytes) :
    LooksEncrypted (codecs.compressWith ct dump) ↔
      ct = .xzip ∨ (ct = .none ∧ LooksEncrypted dump) := by
  by_cases uncompressed : ct = .none
  · rw [uncompressed]
    simp [Codecs.compressWith]
  · have isCompressed : codecs.compressWith ct dump = codecs.compress ct dump := by
      cases ct <;> first | exact absurd rfl uncompressed | rfl
    simp only [uncompressed, false_and, or_false, isCompressed]
    rcases codecs.magic_compress ct dump with magic | ⟨isZstd, _, empty⟩
    · exact looksEncrypted_of_magic uncompressed magic
    · rw [empty, isZstd]
      simp [LooksEncrypted, ascii, hasHighBit]

theorem restored_plain_iff {codecs : Codecs} {secrets : Secrets}
    (right : RightCredentials codecs secrets .none opts) (sidecarPresent : Bool) (dump : Bytes) :
    restored stem dbType ct .none taken codecs secrets opts sidecarPresent dump = .ok dump ↔
      ct ≠ .xzip ∧ (ct = .none → ¬ LooksEncrypted dump) := by
  have none := right.2.1 rfl
  have picked := resolveType_plain stem dbType ct .none taken right.1 none
    (uploaded codecs ct .none dump) rfl sidecarPresent
  rw [restored_eq stem dbType ct .none taken codecs secrets picked]
  have looks := looksEncrypted_compressWith codecs ct dump
  have detects := detect_eq_none_iff (codecs.compressWith ct dump)
  show (decryptWith codecs secrets opts (detect (codecs.compressWith ct dump))
    (codecs.compressWith ct dump)).bind (codecs.decompressWith ct) = .ok dump ↔ _
  by_cases plain : LooksEncrypted (codecs.compressWith ct dump)
  · have taken : detect (codecs.compressWith ct dump) ≠ .none := fun isNone =>
      detects.mp isNone plain
    have refused : (decryptWith codecs secrets opts (detect (codecs.compressWith ct dump))
        (codecs.compressWith ct dump)).bind (codecs.decompressWith ct) ≠ .ok dump := by
      intro opened
      cases result : decryptWith codecs secrets opts (detect (codecs.compressWith ct dump))
          (codecs.compressWith ct dump) with
      | error message => rw [result] at opened; exact absurd opened (by simp [Except.bind])
      | ok out => exact decryptWith_noCredentials codecs secrets none taken _ out result
    simp only [refused, false_iff]
    rintro ⟨notXz, plainDump⟩
    rcases looks.mp plain with isXz | ⟨uncompressed, looksDump⟩
    · exact notXz isXz
    · exact plainDump uncompressed looksDump
  · rw [detects.mpr plain]
    have opened : codecs.decompressWith ct (codecs.compressWith ct dump) = .ok dump :=
      codecs.decompressWith_compressWith ct dump
    simp only [decryptWith, Except.bind, opened, true_iff]
    exact ⟨fun isXz => plain (looks.mpr (.inl isXz)),
      fun uncompressed looksDump => plain (looks.mpr (.inr ⟨uncompressed, looksDump⟩))⟩

/-- **When a restore gives the dump back**, for every dump, codec pair, name and
presence of the sidecar. -/
theorem restored_iff (codecs : Codecs) (secrets : Secrets) (opts : DecryptOpts)
    (sidecarPresent : Bool) (dump : Bytes) (right : RightCredentials codecs secrets enc opts) :
    restored stem dbType ct enc taken codecs secrets opts sidecarPresent dump = .ok dump ↔
      (enc = .none → ct ≠ .xzip ∧ (ct = .none → ¬ LooksEncrypted dump)) ∧
        (enc = .openSSL → sidecarPresent = true) := by
  by_cases plain : enc = .none
  · subst plain
    rw [restored_plain_iff stem dbType ct taken right]
    simp
  · by_cases mispicked : enc = .openSSL ∧ sidecarPresent = false
    · obtain ⟨rfl, rfl⟩ := mispicked
      have lost := @restored_openSSL_without_sidecar stem dbType ct taken opts codecs secrets
        right.1 dump
      simp [lost]
    · have kept := restored_encrypted stem dbType ct enc taken right plain mispicked dump
      simp only [kept, plain, false_implies, true_and, true_iff]
      intro isOpenSSL
      by_contra absent
      exact mispicked ⟨isOpenSSL, by simpa using absent⟩

end Run

/-! ### A small instance -/

def sampleHeader : Encryption → Bytes
  | .none => []
  | .age => ascii "age-encryption.org/v1"
  | .openPGP => [0xc3]
  | .openSSL => ascii "Salted__"

def cutHeader (header bytes : Bytes) : Except String Bytes :=
  if header.isPrefixOf bytes then .ok (bytes.drop header.length) else .error "bad header"

theorem cutHeader_append (header bytes : Bytes) : cutHeader header (header ++ bytes) = .ok bytes := by
  have isPrefix : header.isPrefixOf (header ++ bytes) = true :=
    List.isPrefixOf_iff_prefix.mpr (List.prefix_append _ _)
  simp [cutHeader, isPrefix]

/-- Codecs that only put their magic bytes in front. -/
def sampleCodecs : Codecs where
  compress ct bytes := ct.magic ++ bytes
  decompress ct bytes := cutHeader ct.magic bytes
  encrypt t bytes := sampleHeader t ++ bytes
  decrypt t _ _ bytes := cutHeader (sampleHeader t) bytes
  decompress_compress ct bytes := cutHeader_append ct.magic bytes
  magic_compress ct bytes := .inl (List.prefix_append _ _)
  magic_of_decompress ct bytes out read := by
    unfold cutHeader at read
    split at read
    · rename_i isPrefix
      exact .inr (List.isPrefixOf_iff_prefix.mp isPrefix)
    · exact absurd read (by simp)
  salted_encrypt bytes := List.prefix_append _ _
  length_encrypt bytes := by
    simp only [sampleHeader, ascii, List.length_append, List.length_map]
    have header : "Salted__".toList.length = 8 := by decide
    omega

def plainSecrets : Secrets where
  resolve text := text
  resolve_empty := rfl

/-- An xz backup without encryption is handed to the OpenPGP decryptor. -/
theorem restored_xz_fails :
    restored "mysql-app-db-full-20240101-000000" "mysql" .xzip .none (fun _ => false) sampleCodecs
        plainSecrets {} true (ascii "SELECT 1;") =
      .error "openpgp: no identity or passphrase provided" := by
  rfl

theorem restored_plain_sample :
    restored "mysql-app-db-full-20240101-000000" "mysql" .none .none (fun _ => false) sampleCodecs
      plainSecrets {} false (ascii "SELECT 1;") = .ok (ascii "SELECT 1;") := by
  refine (restored_iff _ _ _ _ _ sampleCodecs plainSecrets {} false (ascii "SELECT 1;") ?_).mpr ?_
  · exact ⟨.inr (by decide), fun _ => by decide, fun encrypted => absurd rfl encrypted⟩
  · exact ⟨fun _ => ⟨by decide, fun _ => by decide⟩, fun isOpenSSL => absurd isOpenSSL (by decide)⟩

end DbBackup.Pipeline
