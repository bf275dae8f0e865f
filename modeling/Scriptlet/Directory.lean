import Scriptlet.Table
import Scriptlet.Text.Utf8

/-!
A directory of script files, and how a path is looked up in it.
-/

namespace Scriptlet

inductive ReadFailure where
  | missing
  | isDirectory
  | notDirectory
  | notText
  deriving DecidableEq, Repr

def ReadFailure.text : ReadFailure → String
  | .missing => "No such file or directory (os error 2)"
  | .isDirectory => "Is a directory (os error 21)"
  | .notDirectory => "Not a directory (os error 20)"
  | .notText => "stream did not contain valid UTF-8"

structure Directory where
  files : Table (List UInt8) := {}
  folders : List String := []
  deriving DecidableEq, Repr

namespace Directory

inductive Entry where
  | folder
  | file (bytes : List UInt8)
  | nothing
  deriving DecidableEq, Repr

/-- A folder also stands wherever a file lies below. -/
def entry (d : Directory) (place : List String) : Entry :=
  let name := "/".intercalate place
  if place = [] then .folder
  else match d.files.get? name with
    | some bytes => .file bytes
    | none =>
      if d.folders.contains name || d.files.entries.any (·.1.startsWith (name ++ "/")) then .folder
      else .nothing

/-- Follow path components from a place. Only a folder can be passed through, and nothing is known
outside the directory. -/
def follow (d : Directory) : List String → List String → Except ReadFailure Entry
  | place, [] => .ok (d.entry place)
  | place, component :: path =>
    match d.entry place with
    | .nothing => .error .missing
    | .file _ => .error .notDirectory
    | .folder =>
      if component = "" || component = "." then follow d place path
      else if component = ".." then
        match place.reverse with
        | [] =>
          if path.all (fun c => c = "" || c = "." || c = "..") then .ok .folder
          else .error .missing
        | _ :: outer => follow d outer.reverse path
      else follow d (place ++ [component]) path

def read (d : Directory) (path : String) : Except ReadFailure String := do
  if path = "" then throw .missing
  let components := path.splitOn "/"
  if path.startsWith "/" then
    if components.all (fun c => c = "" || c = "." || c = "..") then throw .isDirectory
    else throw .missing
  match ← d.follow [] components with
  | .folder => throw .isDirectory
  | .nothing => throw .missing
  | .file bytes =>
    match Utf8.decode? bytes with
    | some text => return text
    | none => throw .notText

end Directory

end Scriptlet
