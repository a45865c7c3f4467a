import Introspect.Mapping.Location
import Introspect.Text.Utf8
/-!
# Files

What a run can see of the file system: files with their bytes, and directories, each under its components from the
working directory or from the root.  A path is walked piece by piece, as the system does it, so a slash behind the name
of a file is refused although it does not change the location.
-/
namespace Introspect

inductive FileFailure where
  | notFound
  | alreadyExists
  | notDirectory
  | isDirectory
  | nameTooLong
  | holdsNul
  | notText
  deriving DecidableEq, Repr

def FileFailure.message : FileFailure → String
  | .notFound => "No such file or directory (os error 2)"
  | .alreadyExists => "File exists (os error 17)"
  | .notDirectory => "Not a directory (os error 20)"
  | .isDirectory => "Is a directory (os error 21)"
  | .nameTooLong => "File name too long (os error 36)"
  | .holdsNul => "file name contained an unexpected NUL byte"
  | .notText => "stream did not contain valid UTF-8"

inductive Node where
  | file (bytes : Array UInt8)
  | directory
  deriving DecidableEq, Repr

structure Storage where
  nodes : List (List Component × Node) := []
  deriving Repr

namespace Storage

/-- The most bytes that a name between slashes and a whole path may have. -/
def maxName : Nat := 255
def maxPath : Nat := 4095

/-- Where every walk may stand: the root, the working directory and what lies above it. -/
def isAnchor (place : List Component) : Bool := place = [.root] || place.all (· = .up)

def node? (s : Storage) (place : List Component) : Option Node :=
  if isAnchor place then some .directory else (s.nodes.find? (·.1 = place)).map Prod.snd

/-- One level up; above the working directory the levels are unknown, and the root is above itself. -/
def parent (place : List Component) : List Component :=
  match place.getLast? with
  | some (.name _) => place.dropLast
  | some .root => place
  | _ => place ++ [.up]

/-- Walk the pieces of a path; every place that is walked through is a directory. -/
def walk (s : Storage) : List Component → List (List Char) → Except FileFailure (List Component)
  | place, [] => .ok place
  | place, piece :: rest =>
    match s.node? place with
    | none => .error .notFound
    | some (.file _) => .error .notDirectory
    | some .directory =>
      if maxName < Text.byteLength piece then .error .nameTooLong
      else match Component.ofPiece? piece with
        | some (.name n) => s.walk (place ++ [.name n]) rest
        | some _ => s.walk (parent place) rest
        | none => s.walk place rest

def resolve (s : Storage) (path : String) : Except FileFailure (List Component) :=
  let cs := path.toList
  if cs.contains (Char.ofNat 0) then .error .holdsNul
  else if cs.isEmpty then .error .notFound
  else if maxPath < Text.byteLength cs then .error .nameTooLong
  else match cs with
    | '/' :: rest => s.walk [.root] (Text.splitOn1 '/' rest)
    | _ => s.walk [] (Text.splitOn1 '/' cs)

def read (s : Storage) (path : String) : Except FileFailure (Array UInt8) := do
  match s.node? (← s.resolve path) with
  | some (.file bytes) => .ok bytes
  | some .directory => .error .isDirectory
  | none => .error .notFound

/-! ## Making and removing -/

def put (s : Storage) (place : List Component) (n : Node) : Storage :=
  ⟨(place, n) :: s.nodes.filter (·.1 ≠ place)⟩

/-- Walk down the components and make the directories that are missing. -/
def makeWay (s : Storage) : List Component → List Component → Except FileFailure Storage
  | _, [] => .ok s
  | place, c :: rest =>
    let next := if c = .up then parent place else place ++ [c]
    match s.node? next with
    | none => (s.put next .directory).makeWay next rest
    | some .directory => s.makeWay next rest
    | some (.file _) => .error (if rest.isEmpty then .alreadyExists else .notDirectory)

def steps (path : String) : List Component := (Location.mk path).components.filter (· ≠ .here)

def createDirectories (s : Storage) (path : String) : Except FileFailure Storage :=
  if path.toList.contains (Char.ofNat 0) then .error .holdsNul else s.makeWay [] (steps path)

def write (s : Storage) (path : String) (bytes : Array UInt8) : Storage :=
  let place := steps path
  ((s.makeWay [] place.dropLast).toOption.getD s).put place (.file bytes)

def remove (s : Storage) (path : String) : Storage :=
  ⟨s.nodes.filter (·.1 ≠ steps path)⟩

end Storage
end Introspect
