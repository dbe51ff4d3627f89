import Mathlib
import DbBackup.Storage.Backends

/-!
Owns the URLs of the S3 client and the canonical URI that is signed for them.

A request goes to the parse of its URL, and the signature takes the escaped path of that parse,
which for a valid path is the text of the URL. Contract: `consistent_iff`. That text is the AWS
encoding of the path, and lists and objects have one root, exactly when an endpoint is configured
whose own path is in AWS encoding and the key has no character that `url.PathEscape` keeps and AWS
encodes.

Does not own the query, the headers and the hashes of the signature.
-/

set_option linter.all false

namespace DbBackup.Storage.S3Urls

open Lib.Percent Lib.SlashPath Storage.Backends

/-! ### Go's URLs -/

def unreserved (c : Char) : Bool := c.isAlphanum || "-._~".toList.contains c

/-- The characters `URL.EscapedPath` keeps when it encodes a path. -/
def keptInPath (c : Char) : Bool := unreserved c || "$&+,/:;=@".toList.contains c

/-- Whether `URL.EscapedPath` takes a path as it was written. -/
def validEncoded (text : List Char) : Bool :=
  text.all fun c => "!$&'()*+,;=:@[]%".toList.contains c || keptInPath c

/-- The path in the text of a URL: behind `scheme://authority`, before the query and fragment. -/
def writtenPath (url : List Char) : List Char :=
  let hierarchical := (url.takeWhile (· ≠ '#')).takeWhile (· ≠ '?')
  ((hierarchical.dropWhile (· ≠ ':')).drop 3).dropWhile (· ≠ '/')

/-- `URL.Path`, or `none` where the URL does not parse. -/
def urlPath (url : List Char) : Option (List UInt8) := unescape (writtenPath url)

/-- `URL.RawPath`: the written path where it is not the default encoding. -/
def rawPath (written : List Char) (path : List UInt8) : List Char :=
  if written = escapeBytes keptInPath path then [] else written

def escapedPath (url : List Char) (path : List UInt8) : List Char :=
  let raw := rawPath (writtenPath url) path
  if raw ≠ [] ∧ validEncoded raw ∧ unescape raw = some path then raw
  else if path = bytes ['*'] then "%2A".toList
  else escapeBytes keptInPath path

/-! ### The client -/

/-- A bucket's name has letters, digits, dots, hyphens and underscores. -/
structure Bucket where
  name : List Char
  notEmpty : name ≠ []
  letters : name.all fun c => c.isAlphanum || ".-_".toList.contains c

/-- What `normalizeEndpoint` lets through of the URLs: a scheme, a host, and a path that is written
as the path of a URL. -/
structure Endpoint where
  scheme : List Char
  authority : List Char
  base : List Char
  schemePlain : scheme.all fun c => !":#?".toList.contains c
  authorityPlain : authority.all fun c => !"/#?".toList.contains c
  baseRooted : base = [] ∨ base.head? = some '/'
  baseValid : validEncoded base
  baseReads : (unescape base).isSome

structure Client where
  bucket : Bucket
  region : List Char
  endpoint : Option Endpoint
  /-- The `path` option. -/
  path : List Char

def Endpoint.text (endpoint : Endpoint) : List Char :=
  endpoint.scheme ++ "://".toList ++ endpoint.authority ++ endpoint.base

namespace Client

variable (client : Client)

def key (filePath : List Char) : List Char :=
  s3Key (trimSlashes (cutStart slash client.path)) filePath

def escapePath (text : List Char) : List Char :=
  slash.intercalate ((text.splitOn '/').map (escape keptInSegment))

def host : List Char :=
  match client.endpoint with
  | some endpoint => endpoint.authority
  | none => client.bucket.name ++ ".s3.".toList ++ client.region ++ ".amazonaws.com".toList

def requestURL (key : List Char) : List Char :=
  let pathPart := slash ++ escapePath key
  match client.endpoint with
  | some endpoint => endpoint.text ++ slash ++ client.bucket.name ++ pathPart
  | none => "https://".toList ++ client.host ++ pathPart

def keptByAws (c : Char) : Bool := unreserved c || c = '/'

def awsEncode (word : List UInt8) : List Char := escapeBytes keptByAws word

def awsEncodeQuery (text : List Char) : List Char := escape unreserved text

def listQuery (search continuation : List Char) : List Char :=
  let query := awsEncodeQuery "list-type".toList ++ "=2&".toList ++
    awsEncodeQuery "prefix".toList ++ "=".toList ++ awsEncodeQuery search
  if continuation ≠ [] then
    query ++ "&".toList ++ awsEncodeQuery "continuation-token".toList ++ "=".toList ++
      awsEncodeQuery continuation
  else query

def listURL (search continuation : List Char) : List Char :=
  let u := match client.endpoint with
    | some endpoint => endpoint.text ++ slash ++ client.bucket.name
    | none => "https://".toList ++ client.host ++ slash ++ client.bucket.name
  u ++ "?".toList ++ listQuery search continuation

/-- The path line of the canonical request that `sign` hashes; `none` where no request is made. -/
def canonicalURI (url : List Char) : Option (List Char) := (urlPath url).map (escapedPath url)

/-! ### Consistency -/

/-- The signed path is the AWS encoding of the path the request is sent to. -/
def SignsPath (filePath : List Char) : Prop :=
  ∀ path, urlPath (client.requestURL (client.key filePath)) = some path →
    canonicalURI (client.requestURL (client.key filePath)) = some (awsEncode path)

/-- One text is the root of the bucket for the object and for every list. -/
def SameRoot (filePath : List Char) : Prop :=
  ∀ search continuation, ∃ root,
    client.requestURL (client.key filePath) =
        root ++ slash ++ escapePath (client.key filePath) ∧
      client.listURL search continuation = root ++ "?".toList ++ listQuery search continuation

def Consistent (filePath : List Char) : Prop :=
  client.SignsPath filePath ∧ client.SameRoot filePath

/-! ### The path of a request -/

/-- The characters of a key that its URL keeps. -/
def keptInKey (c : Char) : Bool := c = '/' || keptInSegment c

theorem escape_segment {segment : List Char} (noSlash : '/' ∉ segment) :
    escape keptInSegment segment = escape keptInKey segment := by
  rw [escape_eq_iff (by decide) (by decide)]
  intro c member
  have plain : c ≠ '/' := fun same => noSlash (same ▸ member)
  simp [keptInKey, plain]

theorem intercalate_escape {segments : List (List Char)}
    (noSlash : ∀ segment ∈ segments, '/' ∉ segment) :
    slash.intercalate (segments.map (escape keptInSegment)) =
      escape keptInKey (slash.intercalate segments) := by
  induction segments with
  | nil => rfl
  | cons segment rest ih =>
    have here := escape_segment (noSlash segment List.mem_cons_self)
    have later := ih (List.forall_mem_cons.mp noSlash).2
    cases rest with
    | nil => simpa using here
    | cons next more =>
      have kept : escape keptInKey slash = slash := by decide
      simp only [List.map_cons, List.intercalate_cons_cons] at later ⊢
      rw [later, here, escape_append, escape_append, kept]

theorem escapePath_eq (text : List Char) : escapePath text = escape keptInKey text := by
  rw [escapePath, intercalate_escape, slash, List.intercalate_splitOn]
  intro segment member isSlash
  have notSep := (Lib.Delimited.mem_splitOnP member '/' isSlash).1
  simp at notSep

/-- No part of the request behind the host starts a query or a fragment. -/
def plain (c : Char) : Bool := c ≠ '#' && c ≠ '?'

theorem plain_of_validEncoded {text : List Char} (valid : validEncoded text = true) :
    text.all plain = true := by
  rw [validEncoded, List.all_eq_true] at valid
  rw [List.all_eq_true]
  intro c member
  have allowed := valid c member
  by_contra notPlain
  have isMark : c = '#' ∨ c = '?' := by
    simp only [plain, Bool.and_eq_true, decide_eq_true_eq, not_and_or, not_not] at notPlain
    exact notPlain
  rcases isMark with rfl | rfl <;> exact absurd allowed (by decide)

theorem validEncoded_append (first second : List Char) :
    validEncoded (first ++ second) = (validEncoded first && validEncoded second) := by
  simp [validEncoded]

/-- A character that is a letter or a digit, or one of some that have the property. -/
theorem of_alphanum_or {p : Char → Bool} {c : Char} {marks : List Char}
    (alphanum : c.isAlphanum = true → p c = true) (all : marks.all p = true)
    (allowed : (c.isAlphanum || marks.contains c) = true) : p c = true := by
  rcases Bool.or_eq_true_iff.mp allowed with letter | mark
  · exact alphanum letter
  · exact List.all_eq_true.mp all c (List.contains_iff_mem.mp mark)

theorem keptInPath_of_alphanum {c : Char} (alphanum : c.isAlphanum = true) :
    keptInPath c = true := by
  simp [keptInPath, unreserved, alphanum]

theorem keptInPath_of_keptInKey {c : Char} (kept : keptInKey c = true) : keptInPath c = true := by
  rcases Bool.or_eq_true_iff.mp kept with isSlash | inSegment
  · rw [decide_eq_true_eq] at isSlash
    rw [isSlash]
    decide
  · exact of_alphanum_or keptInPath_of_alphanum (by decide) inSegment

theorem validEncoded_escape (text : List Char) : validEncoded (escape keptInKey text) = true := by
  rw [validEncoded, List.all_eq_true]
  intro c member
  rcases mem_escape member with ⟨_, kept⟩ | code
  · rw [keptInPath_of_keptInKey kept, Bool.or_true]
  · have digits : ("%0123456789ABCDEF".toList.all fun c =>
        "!$&'()*+,;=:@[]%".toList.contains c || keptInPath c) = true := by decide
    exact List.all_eq_true.mp digits c code

theorem validEncoded_bucket (bucket : Bucket) : validEncoded bucket.name = true := by
  rw [validEncoded, List.all_eq_true]
  intro c member
  have kept : keptInPath c = true := of_alphanum_or keptInPath_of_alphanum (by decide)
    (List.all_eq_true.mp bucket.letters c member)
  rw [kept, Bool.or_true]

/-- What a request is sent to behind the path of the endpoint. -/
def objectPath (filePath : List Char) : List Char :=
  slash ++ client.bucket.name ++ slash ++ escape keptInKey (client.key filePath)

theorem takeWhile_plain {text : List Char} (plain : text.all plain = true) :
    (text.takeWhile (· ≠ '#')).takeWhile (· ≠ '?') = text := by
  rw [List.all_eq_true] at plain
  have noHash : text.takeWhile (· ≠ '#') = text := by
    rw [List.takeWhile_eq_self_iff]
    intro c member
    have := plain c member
    simp [Client.plain] at this ⊢
    exact this.1
  rw [noHash, List.takeWhile_eq_self_iff]
  intro c member
  have := plain c member
  simp [Client.plain] at this ⊢
  exact this.2

theorem validEncoded_objectPath (filePath : List Char) :
    validEncoded (client.objectPath filePath) = true := by
  have isSlash : validEncoded slash = true := by decide
  rw [objectPath, validEncoded_append, validEncoded_append, validEncoded_append, isSlash,
    validEncoded_bucket, validEncoded_escape]
  rfl

theorem dropWhile_of_all {p : Char → Bool} {text : List Char} (all : text.all p = true)
    (rest : List Char) : (text ++ rest).dropWhile p = rest.dropWhile p := by
  rw [List.dropWhile_append, if_pos]
  rw [List.isEmpty_iff, List.dropWhile_eq_nil_iff]
  exact List.all_eq_true.mp all

theorem ne_of_not_contains {marks text : List Char}
    (noMarks : (text.all fun c => !marks.contains c) = true) {mark : Char}
    (isMark : marks.contains mark = true) : text.all (fun c => decide (c ≠ mark)) = true := by
  rw [List.all_eq_true] at noMarks ⊢
  intro c member
  rw [decide_eq_true_eq]
  rintro rfl
  have notMark := noMarks c member
  rw [isMark] at notMark
  cases notMark

theorem plain_of_not_contains {marks text : List Char}
    (noMarks : (text.all fun c => !marks.contains c) = true) (hash : marks.contains '#' = true)
    (question : marks.contains '?' = true) : text.all plain = true := by
  have noHash := List.all_eq_true.mp (ne_of_not_contains noMarks hash)
  have noQuestion := List.all_eq_true.mp (ne_of_not_contains noMarks question)
  rw [List.all_eq_true]
  intro c member
  rw [plain, noHash c member, noQuestion c member]
  rfl

variable {endpoint : Endpoint}

theorem writtenPath_requestURL (isEndpoint : client.endpoint = some endpoint)
    (filePath : List Char) :
    writtenPath (client.requestURL (client.key filePath)) =
      endpoint.base ++ client.objectPath filePath := by
  have url : client.requestURL (client.key filePath) =
      endpoint.scheme ++ ("://".toList ++ (endpoint.authority ++
        (endpoint.base ++ client.objectPath filePath))) := by
    simp only [requestURL, isEndpoint, Endpoint.text, escapePath_eq, objectPath, List.append_assoc]
  have allPlain : (client.requestURL (client.key filePath)).all plain = true := by
    rw [url, List.all_append, List.all_append, List.all_append, List.all_append,
      plain_of_not_contains endpoint.schemePlain (by decide) (by decide),
      plain_of_not_contains endpoint.authorityPlain (by decide) (by decide),
      plain_of_validEncoded endpoint.baseValid,
      plain_of_validEncoded (client.validEncoded_objectPath filePath)]
    decide
  have rooted : (endpoint.base ++ client.objectPath filePath).head? = some '/' := by
    rcases endpoint.baseRooted with empty | rooted
    · rw [empty]
      rfl
    · rw [List.head?_append, rooted]
      rfl
  rw [writtenPath, takeWhile_plain allPlain, url,
    dropWhile_of_all (ne_of_not_contains endpoint.schemePlain (by decide))]
  change (endpoint.authority ++ (endpoint.base ++ client.objectPath filePath)).dropWhile _ = _
  rw [dropWhile_of_all (ne_of_not_contains endpoint.authorityPlain (by decide))]
  cases shape : endpoint.base ++ client.objectPath filePath with
  | nil => rfl
  | cons first rest =>
    rw [shape] at rooted
    cases rooted
    rfl

/-! ### The signed path -/

/-- A valid path is signed as it is written. -/
theorem escapedPath_of_valid {url : List Char} {path : List UInt8}
    (reads : urlPath url = some path) (valid : validEncoded (writtenPath url) = true) :
    escapedPath url path = writtenPath url := by
  unfold escapedPath rawPath
  dsimp only
  by_cases default : writtenPath url = escapeBytes keptInPath path
  · rw [if_pos default, if_neg (by simp)]
    by_cases star : path = bytes ['*']
    · have coded : escapeBytes keptInPath (bytes ['*']) = "%2A".toList := by decide
      rw [if_pos star, default, star, coded]
    · rw [if_neg star, default]
  · rw [if_neg default]
    by_cases empty : writtenPath url = []
    · have noPath : path = [] := by
        rw [urlPath, empty] at reads
        cases reads
        rfl
      rw [noPath, empty] at default
      exact absurd rfl default
    · rw [if_pos ⟨empty, valid, reads⟩]

theorem lt_of_alphanum {c : Char} (alphanum : c.isAlphanum = true) : c.toNat < 128 := by
  simp only [Char.isAlphanum, Char.isAlpha, Char.isUpper, Char.isLower, Char.isDigit,
    Bool.or_eq_true, Bool.and_eq_true, decide_eq_true_eq, ge_iff_le, UInt32.le_iff_toNat_le]
    at alphanum
  unfold Char.toNat
  have values : 'Z'.val.toNat = 90 ∧ 'z'.val.toNat = 122 ∧ '9'.val.toNat = 57 := by decide
  omega

theorem keepsAscii_keptByAws : KeepsAscii keptByAws := by
  intro c kept
  have small : decide (c.toNat < 128) = true := by
    rcases Bool.or_eq_true_iff.mp kept with plain | isSlash
    · exact of_alphanum_or (p := fun c => decide (c.toNat < 128))
        (fun alphanum => decide_eq_true (lt_of_alphanum alphanum)) (by decide) plain
    · rw [decide_eq_true_eq] at isSlash
      rw [isSlash]
      decide
  exact of_decide_eq_true small

theorem keptByAws_eq_iff (c : Char) : keptByAws c = keptInKey c ↔ c ∉ "$&+:=@".toList := by
  constructor
  · intro same mark
    have differs : ("$&+:=@".toList.all fun c => keptByAws c != keptInKey c) = true := by decide
    have notSame := List.all_eq_true.mp differs c mark
    rw [same] at notSame
    simp at notSame
  · intro noMark
    rw [Bool.eq_iff_iff]
    simp at noMark
    simp [keptByAws, keptInKey, unreserved, keptInSegment]
    tauto

theorem escape_of_kept {keep : Char → Bool} {text : List Char} (kept : text.all keep = true) :
    escape keep text = text := by
  induction text with
  | nil => rfl
  | cons c text ih =>
    rw [List.all_cons, Bool.and_eq_true] at kept
    have step : escape keep (c :: text) = escapeChar keep c ++ escape keep text := rfl
    rw [step, ih kept.2, escapeChar, if_pos kept.1, List.singleton_append]

/-- What stands between the path of the endpoint and the key. -/
def bucketPart : List Char := slash ++ client.bucket.name ++ slash

theorem bucketPart_kept : client.bucketPart.all keptByAws = true := by
  have name : client.bucket.name.all keptByAws = true := by
    rw [List.all_eq_true]
    intro c member
    exact of_alphanum_or (fun alphanum => by simp [keptByAws, unreserved, alphanum]) (by decide)
      (List.all_eq_true.mp client.bucket.letters c member)
  have isSlash : slash.all keptByAws = true := by decide
  rw [bucketPart, List.all_append, List.all_append, name, isSlash]
  rfl

theorem unescape_bucketPart : unescape client.bucketPart = some (bytes client.bucketPart) := by
  have reads := @unescape_escape keptByAws (by decide) client.bucketPart
  rw [escape_of_kept client.bucketPart_kept] at reads
  exact reads

theorem urlPath_requestURL (isEndpoint : client.endpoint = some endpoint)
    {basePath : List UInt8} (baseReads : unescape endpoint.base = some basePath)
    (filePath : List Char) :
    urlPath (client.requestURL (client.key filePath)) =
      some (basePath ++ (bytes client.bucketPart ++ bytes (client.key filePath))) := by
  rw [urlPath, client.writtenPath_requestURL isEndpoint, unescape_append baseReads]
  change (unescape (client.bucketPart ++ escape keptInKey (client.key filePath))).map _ = _
  rw [unescape_append client.unescape_bucketPart, unescape_escape (by decide)]
  rfl

theorem signsPath_iff (isEndpoint : client.endpoint = some endpoint)
    {basePath : List UInt8} (baseReads : unescape endpoint.base = some basePath)
    (filePath : List Char) :
    client.SignsPath filePath ↔ awsEncode basePath = endpoint.base ∧
      ∀ c ∈ client.key filePath, c ∉ "$&+:=@".toList := by
  have reads := client.urlPath_requestURL isEndpoint baseReads filePath
  have written := client.writtenPath_requestURL isEndpoint filePath
  have valid : validEncoded (writtenPath (client.requestURL (client.key filePath))) = true := by
    rw [written, validEncoded_append, endpoint.baseValid, validEncoded_objectPath]
    rfl
  have noPercent : keptByAws '%' = false := by decide
  have signed : client.SignsPath filePath ↔
      awsEncode (basePath ++ (bytes client.bucketPart ++ bytes (client.key filePath))) =
        endpoint.base ++ (client.bucketPart ++ escape keptInKey (client.key filePath)) := by
    unfold SignsPath canonicalURI
    rw [reads]
    simp only [Option.some.injEq, forall_eq', Option.map_some]
    rw [escapedPath_of_valid reads valid, written]
    exact eq_comm
  have bucketKept : awsEncode (bytes client.bucketPart) = client.bucketPart :=
    (escapeBytes_bytes keepsAscii_keptByAws _).trans (escape_of_kept client.bucketPart_kept)
  have keyKept : awsEncode (bytes (client.key filePath)) =
      escape keptInKey (client.key filePath) ↔
        ∀ c ∈ client.key filePath, c ∉ "$&+:=@".toList := by
    unfold awsEncode
    rw [escapeBytes_bytes keepsAscii_keptByAws, escape_eq_iff noPercent (by decide)]
    exact forall₂_congr fun c _ => keptByAws_eq_iff c
  rw [signed]
  unfold awsEncode at bucketKept keyKept ⊢
  rw [escapeBytes_append_eq_iff keepsAscii_keptByAws noPercent baseReads,
    escapeBytes_append_eq_iff keepsAscii_keptByAws noPercent client.unescape_bucketPart, keyKept]
  exact and_congr_right fun _ => and_iff_right bucketKept

/-! ### The root -/

theorem sameRoot_iff (filePath : List Char) :
    client.SameRoot filePath ↔ client.endpoint.isSome = true := by
  cases isEndpoint : client.endpoint with
  | some endpoint =>
    refine ⟨fun _ => rfl, fun _ search continuation => ?_⟩
    refine ⟨endpoint.text ++ slash ++ client.bucket.name, ?_, ?_⟩
    · simp only [requestURL, isEndpoint, List.append_assoc]
    · simp only [listURL, isEndpoint]
  | none =>
    refine ⟨fun same => ?_, fun isSome => by cases isSome⟩
    obtain ⟨root, object, listed⟩ := same [] []
    simp only [requestURL, listURL, isEndpoint] at object listed
    have objectRoot : "https://".toList ++ client.host = root := by
      rw [List.append_assoc root] at object
      exact List.append_cancel_right object
    have listRoot : "https://".toList ++ client.host ++ slash ++ client.bucket.name = root :=
      List.append_cancel_right (List.append_cancel_right listed)
    rw [← objectRoot, List.append_assoc] at listRoot
    have nothing := List.append_right_eq_self.mp listRoot
    cases nothing

/-- Signed and addressed alike exactly with an endpoint whose path is in AWS encoding, for a key
without the characters that only `url.PathEscape` keeps. -/
theorem consistent_iff (filePath : List Char) : client.Consistent filePath ↔
      ∃ endpoint, client.endpoint = some endpoint ∧
        (∀ basePath, unescape endpoint.base = some basePath →
          awsEncode basePath = endpoint.base) ∧
        ∀ c ∈ client.key filePath, c ∉ "$&+:=@".toList := by
  unfold Consistent
  rw [sameRoot_iff, Option.isSome_iff_exists]
  constructor
  · rintro ⟨signs, endpoint, isEndpoint⟩
    obtain ⟨basePath, baseReads⟩ := Option.isSome_iff_exists.mp endpoint.baseReads
    obtain ⟨base, key⟩ := (client.signsPath_iff isEndpoint baseReads filePath).mp signs
    refine ⟨endpoint, isEndpoint, ?_, key⟩
    intro own reads
    rw [baseReads] at reads
    cases reads
    exact base
  · rintro ⟨endpoint, isEndpoint, base, key⟩
    obtain ⟨basePath, baseReads⟩ := Option.isSome_iff_exists.mp endpoint.baseReads
    exact ⟨(client.signsPath_iff isEndpoint baseReads filePath).mpr ⟨base basePath baseReads, key⟩,
      endpoint, isEndpoint⟩

/-- The default AWS endpoint. -/
def defaultClient : Client where
  bucket := ⟨"backups".toList, by decide, by decide⟩
  region := "eu-west-1".toList
  endpoint := none
  path := []

theorem defaultClient_not_consistent : ¬ defaultClient.Consistent "db.sql".toList := by
  intro consistent
  have same := (defaultClient.sameRoot_iff _).mp consistent.2
  cases same

end Client

end DbBackup.Storage.S3Urls
