import FilterLang.Text.Basic

/-!
A directory of files, as far as a program sees it that looks files up, reads them, writes them and
makes directories for them. A path is followed part by part, and whatever stands before a separator
must be a directory.
-/
namespace FilterLang

inductive FileFailure where
  | missing
  | occupied
  | notDirectory
  | isDirectory
  | nameTooLong
  | notText
  | other (reason : Text)
  deriving DecidableEq, Repr

namespace FileFailure

def message : FileFailure → Text
  | missing => "No such file or directory (os error 2)".toList
  | occupied => "File exists (os error 17)".toList
  | notDirectory => "Not a directory (os error 20)".toList
  | isDirectory => "Is a directory (os error 21)".toList
  | nameTooLong => "File name too long (os error 36)".toList
  | notText => "stream did not contain valid UTF-8".toList
  | other reason => reason

end FileFailure

/-- A directory, a file with text, or a file whose bytes are no text. -/
inductive Node where
  | directory
  | text (content : Text)
  | bytes
  deriving DecidableEq, Repr

abbrev Path := List Text

/-- Where a path leads: below the directory, or to a directory around it, in which no file is
known. -/
inductive Place where
  | inside (path : Path)
  | outside
  deriving DecidableEq, Repr

namespace Place

def maxName : Nat := 255

def parent : Place → Place
  | inside [] | outside => outside
  | inside (name :: path) => inside (name :: path).dropLast

def child (place : Place) (name : Text) : Except FileFailure Path :=
  if maxName < Text.utf8Size name then .error .nameTooLong
  else match place with
    | inside path => .ok (path ++ [name])
    | outside => .error .missing

end Place

/-- What a directory holds, by path. The directory itself has the empty path. -/
structure Directory where
  nodes : List (Path × Node)
  deriving DecidableEq, Repr

namespace Directory

def empty : Directory := ⟨[]⟩

def node? (d : Directory) : Path → Option Node
  | [] => some .directory
  | path => (d.nodes.find? (fun n => n.1 = path)).map Prod.snd

def set (d : Directory) (path : Path) (n : Node) : Directory :=
  ⟨(path, n) :: d.nodes.filter (fun m => m.1 ≠ path)⟩

def nodeAt? (d : Directory) : Place → Option Node
  | .inside path => d.node? path
  | .outside => some .directory

/-- Succeeds if a path can go on from a place. -/
def enter (d : Directory) (place : Place) : Except FileFailure Unit :=
  match d.nodeAt? place with
  | none => .error .missing
  | some .directory => .ok ()
  | some _ => .error .notDirectory

def isDots (part : Text) : Bool := part = ['.'] || part = ['.', '.']

def step (d : Directory) (place : Place) (part : Text) : Except FileFailure Place := do
  d.enter place
  if part = [] ∨ part = ['.'] then return place
  else if part = ['.', '.'] then return place.parent
  else return .inside (← place.child part)

def maxPath : Nat := 4095

def checkLength (parts : List Text) : Except FileFailure Unit :=
  if maxPath < Text.utf8Size (List.intercalate ['/'] parts) then .error .nameTooLong else .ok ()

def follow (d : Directory) (place : Place) (parts : List Text) : Except FileFailure Place := do
  checkLength parts
  parts.foldlM d.step place

/-- The place in which the last part of a path is looked for. It must be a directory. -/
def around (d : Directory) (place : Place) (parts : List Text) : Except FileFailure Place := do
  checkLength parts
  let outer ← parts.dropLast.foldlM d.step place
  d.enter outer
  return outer

/-- What follows the name of the directory in a path. More separators may stand before the name. -/
def behind? (name : Text) : Text → Option Text
  | [] => none
  | c :: path =>
    let rest := (c :: path).drop name.length
    if name.isPrefixOf (c :: path) ∧ (rest = [] ∨ rest.head? = some '/') then some rest
    else if c = '/' then behind? name path
    else none

/-- Where a path starts, and its parts. Of the paths from the top of the whole file system those
below this directory are known, which is called `name`. -/
def start (name path : Text) : Place × List Text :=
  match behind? name path with
  | some rest => (.inside [], rest.splitOn '/')
  | none => (if path.head? = some '/' then .outside else .inside [], path.splitOn '/')

def locate (d : Directory) (name path : Text) : Except FileFailure Place :=
  if path.isEmpty then .error .missing
  else d.follow (start name path).1 (start name path).2

def look (d : Directory) (name path : Text) : Except FileFailure Node := do
  match d.nodeAt? (← d.locate name path) with
  | some n => return n
  | none => .error .missing

def read (d : Directory) (name path : Text) : Except FileFailure Text :=
  (d.look name path).bind fun
    | .text content => .ok content
    | .bytes => .error .notText
    | .directory => .error .isDirectory

/-- Makes a directory where nothing is yet. No part of its path is empty. -/
def make (d : Directory) (place : Place) (parts : List Text) : Except FileFailure Directory := do
  let outer ← d.around place parts
  match parts.getLast?.filter (!isDots ·) with
  | none => .error .occupied
  | some name =>
    let path ← outer.child name
    if (d.node? path).isSome then .error .occupied else return d.set path .directory

def ensure (d : Directory) (place : Place) (parts : List Text) : Except FileFailure Directory :=
  match d.make place parts with
  | .error .occupied =>
    if (d.follow place parts).toOption.bind d.nodeAt? = some .directory then .ok d
    else .error .occupied
  | made => made

/-- Makes a directory, and before it those around it if they are missing. Its path is given from the
innermost part outwards. What has been made stays, even if the directory itself cannot be made. -/
def ensureAll (d : Directory) (place : Place) : List Text → Directory × Except FileFailure Unit
  | [] => (d, .ok ())
  | name :: outer =>
    match d.ensure place (name :: outer).reverse with
    | .ok d => (d, .ok ())
    | .error .missing =>
      match d.ensureAll place outer with
      | (d, .error f) => (d, .error f)
      | (d, .ok ()) =>
        match d.ensure place (name :: outer).reverse with
        | .ok d => (d, .ok ())
        | .error f => (d, .error f)
    | .error f => (d, .error f)

/-- Writes a file. A path that ends in dots or in a separator can only mean a directory. -/
def write (d : Directory) (place : Place) (parts : List Text) (content : Text) :
    Except FileFailure Directory := do
  checkLength parts
  let names := parts.filter (· ≠ [])
  let outer ← d.around place names
  match names.getLast?.filter fun name => !isDots name && parts.getLast? ≠ some [] with
  | none => .error .isDirectory
  | some name =>
    let path ← outer.child name
    if d.node? path = some .directory then .error .isDirectory
    else return d.set path (.text content)

end Directory
end FilterLang
