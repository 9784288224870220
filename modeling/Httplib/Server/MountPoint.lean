import Httplib.Lib.Paths
import Httplib.Server.RouterTree

/-!
# Static mount points

`mount_point_entry` (`lib/server/mount_point_entry.cpp`): the handler that serves files below a
directory, with its check of the path, and its registration under a wildcard
(`router.inl:89`). The file system is a parameter; paths are POSIX paths.
-/

namespace Httplib

/-- `mount_point_entry::dir_format_type` (`mount_point_entry.hpp:17`). -/
inductive DirFormatType where
  | json
  | html
  deriving DecidableEq

/-- `mount_point_entry` (`mount_point_entry.hpp:11`). -/
structure MountPointEntry where
  mountPoint : Bytes
  baseDir : Bytes
  enabledDir : Bool := true
  dirType : DirFormatType := .json
  defaultDocName : List Bytes := [bytes "index.html", bytes "index.htm"]

/-- What the handler asks the file system, and `format_dir_to_json` and `format_dir_to_html`, which
may set an error. -/
structure FileSystem (Json : Type) where
  pathExists : Bytes → Bool
  isRegularFile : Bytes → Bool
  isDirectory : Bytes → Bool
  entry : Bytes → FileEntry
  formatDirToJson : Bytes → Json × Bool
  formatDirToHtml : Bytes → Bytes → Bytes × Bool

/-- `fs::path::has_filename`. -/
def hasFilename (path : Bytes) : Bool := path ≠ [] && !endsWith path (bytes "/")

/-- `fs::path::operator/`: an absolute right side replaces the left one. -/
def pathAppend (base rest : Bytes) : Bytes :=
  if startsWith rest (bytes "/") then rest
  else if hasFilename base then base ++ bytes "/" ++ rest
  else base ++ rest

/-- The loop that skips slashes (`mount_point_entry.cpp:15`). -/
def skipSlash (path : Bytes) : Bytes := path.dropWhile (· = 47)

/-- The loop that reads a component (`mount_point_entry.cpp:22`): the component and what is behind it;
none at a NUL or a backslash. -/
def readComponent : Bytes → Option (Bytes × Bytes)
  | [] => some ([], [])
  | c :: path =>
    if c = 47 then some ([], c :: path)
    else if c = 0 then none
    else if c = 92 then none
    else (readComponent path).map fun r => (c :: r.1, r.2)

/-- The loop of `is_valid_path` over the components (`mount_point_entry.cpp:19`). Every turn reads a
component, so a turn for every byte and one more never runs out. -/
def isValidPathLoop : Nat → Nat → Bytes → Bool
  | 0, _, _ => true
  | turns + 1, level, path =>
    if path = [] then true
    else match readComponent path with
      | none => false
      | some (component, rest) =>
        if component = bytes "." then isValidPathLoop turns level (skipSlash rest)
        else if component = bytes ".." then
          if level = 0 then false else isValidPathLoop turns (level - 1) (skipSlash rest)
        else isValidPathLoop turns (level + 1) (skipSlash rest)

/-- `detail::is_valid_path` (`mount_point_entry.cpp:9`). -/
def isValidPath (path : Bytes) : Bool := isValidPathLoop (path.length + 1) 0 (skipSlash path)

namespace MountPointEntry

variable {Json StreamHandler : Type}

/-- The default document of a directory, if there is one (`mount_point_entry.cpp:89`). -/
def findDoc (entry : MountPointEntry) (fs : FileSystem Json) (path : Bytes) : Bytes :=
  match entry.defaultDocName.find? fun docName => fs.isRegularFile (pathAppend path docName) with
  | some docName => pathAppend path docName
  | none => path

/-- What `operator()` answers for a directory (`mount_point_entry.cpp:107`). -/
def listDir (entry : MountPointEntry) (host : Host) (fs : FileSystem Json) (path : Bytes)
    (req : Request) (res : Response Json StreamHandler) : Response Json StreamHandler :=
  if entry.enabledDir then
    let (res, failed) :=
      match entry.dirType with
      | .json =>
        let (doc, failed) := fs.formatDirToJson path
        (res.setJsonContent doc 200, failed)
      | .html =>
        let (body, failed) := fs.formatDirToHtml req.path path
        (res.setStringContent body (bytes "text/html; charset=utf-8") 200, failed)
    if failed then res.setErrorContent host 500 else res
  else res.setErrorContent host 403

/-- What `operator()` answers for a path below the directory (`mount_point_entry.cpp:83`). -/
def serve (entry : MountPointEntry) (host : Host) (fs : FileSystem Json) (boundary path : Bytes)
    (req : Request) (res : Response Json StreamHandler) :
    Except HttpRanges.ParseError (Response Json StreamHandler) :=
  if fs.pathExists path = false then .ok (res.setErrorContent host 404)
  else
    let path := if hasFilename path then path else entry.findDoc fs path
    if hasFilename path then
      if fs.isRegularFile path then res.setFileContent host (fs.entry path) boundary req.fields
      else .ok (res.setErrorContent host 404)
    else if fs.isDirectory path then .ok (entry.listDir host fs path req res)
    else .ok (res.setErrorContent host 403)

/-- `mount_point_entry::operator()` (`mount_point_entry.cpp:72`); none if `path_param` throws. -/
def handle (entry : MountPointEntry) (host : Host) (fs : FileSystem Json) (boundary : Bytes)
    (req : Request) (res : Response Json StreamHandler) :
    Option (Except HttpRanges.ParseError (Response Json StreamHandler)) :=
  (req.pathParams.find? (bytes "*")).map fun relativePath =>
    if isValidPath relativePath = false then .ok (res.setErrorContent host 400)
    else entry.serve host fs boundary (pathAppend entry.baseDir relativePath) req res

/-- The key of a mount point (`router.inl:102`). -/
def key (entry : MountPointEntry) : Bytes :=
  (if endsWith entry.mountPoint (bytes "/") then entry.mountPoint
    else entry.mountPoint ++ bytes "/") ++ bytes "*"

end MountPointEntry

/-- The handlers of an application: those of its mount points, and others. -/
inductive AppHandler (Handler : Type) where
  | mount (entry : MountPointEntry)
  | other (handler : Handler)

/-- A call that sets up the routes of an application. -/
inductive Setup (Handler Ws : Type) where
  | route (path : Bytes) (target : Target Handler Ws)
  | mountPoint (entry : MountPointEntry)

/-- The registrations a call makes; `set_static_mount_point` (`router.inl:99`) makes one for each of
GET and HEAD. -/
def Setup.registrations {Handler Ws : Type} :
    Setup Handler Ws → List (Registration (AppHandler Handler) Ws)
  | .route path (.http method handler) => [⟨path, .http method (.other handler)⟩]
  | .route path (.ws entry) => [⟨path, .ws entry⟩]
  | .mountPoint entry =>
    [⟨entry.key, .http .get (.mount entry)⟩, ⟨entry.key, .http .head (.mount entry)⟩]

end Httplib
