import DbBackup.Lib.Percent
import DbBackup.Lib.SlashPath

/-!
Owns how the remote storages name their objects: the prefix of a list request,
the paths `List` returns, and the objects `Download` and `Delete` ask for
(`internal/storage/s3.go`, `internal/storage/webdav.go`,
`supported/storage/backend/azure.go`, `supported/storage/backend/gcs.go`).

Names and texts are lists of characters. A bucket answers a list request page by
page with the keys that start with the prefix; a WebDAV server answers with the
collection and its direct members.

Does not own transport: retries, signatures and the sizes and times of entries.
-/

set_option linter.all false

namespace DbBackup.Storage.Backends

open Lib.Percent Lib.SlashPath

/-! ### Object stores -/

/-- A backend of an object store at its configured path: the prefix `List("")`
asks for, the names it leaves out, the path it returns for a name, and the name
a path stands for. `keep` are the characters of a name that its URL keeps. -/
structure KeyScheme where
  search : List Char
  leavesOut : List Char → Bool
  entryPath : List Char → List Char
  objectName : List Char → List Char
  keep : Char → Bool
  noPercent : keep '%' = false

def slash : List Char := ['/']

def withSlash (text : List Char) : List Char :=
  if text ≠ [] ∧ text.getLast? ≠ some '/' then text ++ slash else text

/-- The characters `url.PathEscape` keeps. -/
def keptInSegment (c : Char) : Bool :=
  c.isAlphanum || "-_.~$&+:=@".toList.contains c

def s3Key (folder filePath : List Char) : List Char :=
  cutStart slash (folder ++ slash ++ cutStart slash filePath)

def s3 (path : List Char) : KeyScheme :=
  let folder := trimSlashes (cutStart slash path)
  let search := withSlash (s3Key folder [])
  { search := search
    leavesOut := fun key => key = search
    entryPath := fun key => cutStart (folder ++ slash) key
    objectName := s3Key folder
    keep := fun c => c = '/' || keptInSegment c
    noPercent := by decide }

def blobName (folder filePath : List Char) : List Char :=
  trimSlashes (trimSlashes folder ++ slash ++ cutStart slash filePath)

def azure (path : List Char) : KeyScheme :=
  let folder := cutStart slash path
  let search := cutStart slash (trimSlashes (folder ++ slash ++ cutStart slash []))
  { search := search
    leavesOut := fun name => name = search
    entryPath := fun name => cutStart (folder ++ slash) name
    objectName := blobName folder
    keep := keptInSegment
    noPercent := by decide }

def gcsObjectName (folder filePath : List Char) : List Char :=
  join folder (cutStart slash filePath)

def gcs (path : List Char) : KeyScheme :=
  let folder := cutStart slash path
  let search := withSlash (gcsObjectName folder [])
  { search := search
    leavesOut := fun name => name = search || cutStart search name = []
    entryPath := fun name => cutStart (folder ++ slash) name
    objectName := gcsObjectName folder
    keep := keptInSegment
    noPercent := by decide }

/-- What a list request is answered with. -/
structure ObjectStore where
  objects : List (List Char)
  solid : ∀ name ∈ objects, Solid name
  pages : List Char → List (List (List Char))
  answers : ∀ search, (pages search).flatten = objects.filter search.isPrefixOf

/-- The objects of `List("")`, each with the path it is returned under. -/
def KeyScheme.listed (scheme : KeyScheme) (store : ObjectStore) :
    List (List Char × List Char) :=
  (store.pages scheme.search).flatMap fun page =>
    (page.filter fun name => !scheme.leavesOut name).map fun name => (name, scheme.entryPath name)

/-- The URL of `Download` and `Delete`, after the address of the bucket. -/
def KeyScheme.objectURL (scheme : KeyScheme) (path : List Char) : List Char :=
  escape scheme.keep (scheme.objectName path)

/-! ### WebDAV -/

/-- How a server writes the hrefs of a response. -/
inductive HrefForm where
  | absolutePath
  | fullURL
deriving DecidableEq

inductive Resource where
  | collection (name : List Char)
  | object (name : List Char)
deriving DecidableEq

/-- The direct members of a collection, whose name is empty at the root. -/
def memberOf (collection name : List Char) : Option Resource :=
  let start := if collection = [] then [] else collection ++ slash
  if start.isPrefixOf name then
    let rest := name.drop start.length
    if '/' ∈ rest then some (.collection (start ++ rest.takeWhile (· ≠ '/')))
    else some (.object name)
  else none

def Resource.isObject : Resource → Bool
  | .object _ => true
  | .collection _ => false

/-- The characters `url.Parse` refuses. -/
def isControl (c : Char) : Bool := c.toNat < 32 || c.toNat = 127

/-- A server at `https://host`, with the objects below the path `root`. The names
of the objects and the address have no dot segments, and the address no query. -/
structure DavServer where
  origin : List Char
  root : List Char
  form : HrefForm
  keep : Char → Bool
  objects : List (List Char)
  members : List Char → List Resource
  named : ∀ name ∈ objects, OfNames name
  absolute : origin ≠ [] ∧ origin.head? ≠ some '/' ∧ origin.getLast? ≠ some '/'
  rooted : root = [] ∨ (root.head? = some '/' ∧ root.getLast? ≠ some '/')
  plain : ∀ c ∈ origin ++ root, c ≠ '%' ∧ c ≠ '?' ∧ c ≠ '#'
  dotless : ∀ segment ∈ (origin ++ root).splitOn '/', segment = [] ∨ IsName segment
  keeps : keep '/' = true ∧ keep '%' = false ∧ keep '?' = false ∧ keep '#' = false
  noControls : ∀ c, isControl c = true → keep c = false
  objectsListed : ∀ collection, (members collection).filter Resource.isObject =
    (objects.filter fun name => memberOf collection name = some (.object name)).map .object
  collectionsListed : ∀ collection sub, .collection sub ∈ members collection ↔
    ∃ name ∈ objects, memberOf collection name = some (.collection sub)

namespace DavServer

def baseURL (server : DavServer) : List Char := server.origin ++ server.root

def hrefBase (server : DavServer) : List Char :=
  match server.form with
  | .absolutePath => server.root
  | .fullURL => server.baseURL

def href (server : DavServer) : Resource → List Char
  | .collection name =>
    if name = [] then server.hrefBase ++ slash
    else server.hrefBase ++ slash ++ escape server.keep name ++ slash
  | .object name => server.hrefBase ++ slash ++ escape server.keep name

def folder (path : List Char) : List Char := trimSlashes (cutStart slash path)

def trimRight (text : List Char) : List Char := text.rdropWhile (· = '/')

/-- The path `List("")` returns for a resource of the answer, if it is not passed
over. -/
def entry (server : DavServer) (path : List Char) (item : Resource) : Option (List Char) :=
  let url := server.baseURL ++ slash ++ join (folder path) [] ++ slash
  let baseURL := server.baseURL ++ slash ++ folder path ++ slash
  if trimRight (server.href item) = trimRight url then none
  else
    let rel := cutStart slash (cutStart baseURL (server.href item))
    if rel = [] then none else some rel

def listed (server : DavServer) (path : List Char) (response : List Resource) :
    List (Resource × List Char) :=
  response.filterMap fun item => (server.entry path item).map fun rel => (item, rel)

/-- `davPath`, after the address of the server. -/
def davPath (path filePath : List Char) : List Char := join (folder path) filePath

/-- The resource a request is for: the path of its URL, decoded, if that is the
root or has names for segments. -/
def Requests (text name : List Char) : Prop :=
  (∀ c ∈ text, isControl c = false) ∧
    unescape (text.takeWhile fun c => c ≠ '?' ∧ c ≠ '#') = some (bytes name) ∧
    (name = [] ∨ OfNames name)

def response (server : DavServer) (collection : List Char) : List Resource :=
  .collection collection :: server.members collection

end DavServer

end DbBackup.Storage.Backends
