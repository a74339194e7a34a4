import FlowGraph.Table

/-!
Files in folders. A path is followed step by step from the working folder, and every step but the last
has to lead into a folder that is there; a step may stay or go up. Writing makes the folders on the way,
and they stay even if the file cannot be written in the end.
-/
namespace FlowGraph

structure Files where
  /-- The texts by place. A place is the steps that lead to it, the last one first. -/
  texts : Table (List String) String := {}
  folders : List (List String) := []
  deriving Repr

namespace Files

def isAbsolute (path : String) : Bool := path.startsWith "/"

def cut (cs : List Char) : List (List Char) :=
  cs.foldr (fun c parts => if c == '/' then [] :: parts else (c :: parts.headD []) :: parts.tail) [[]]

/-- The steps of a path. Between two slashes that follow each other there is an empty one. -/
def steps (path : String) : List String := (cut path.toList).map String.ofList

def isIdle (step : String) : Bool := step == "" || step == "."

def upward : String := ".."

/-- A path without the steps that do not move. -/
def normal (path : String) : String :=
  let body := String.intercalate "/" ((steps path).filter fun s => !isIdle s)
  if isAbsolute path then
    (if path.startsWith "//" && !path.startsWith "///" then "//" else "/") ++ body
  else if body.isEmpty then "." else body

/-- The longest path and the longest name, in bytes. -/
def pathLimit : Nat := 4095
def nameLimit : Nat := 255

def root : String := "/"

def start (path : String) : List String := if isAbsolute path then [root] else []

/-- The folder above a place. Above the working folder there are more, above the root there is none. -/
def above : List String → List String
  | [] => [upward]
  | s :: rest => if s = upward then s :: s :: rest else if s = root then s :: rest else rest

def isFolder (f : Files) (place : List String) : Bool :=
  place.all (· = upward) || place == [root] || f.folders.contains place

/-- Where one step leads from a folder. -/
def enter (f : Files) (place : List String) (step : String) : Option (List String) :=
  if isIdle step then some place
  else if step = upward then some (above place)
  else if f.isFolder (step :: place) then some (step :: place)
  else none

/-- The same, making a folder where there is nothing. -/
def enterNew (f : Files) (place : List String) (step : String) : Files × Option (List String) :=
  match f.enter place step with
  | some next => (f, some next)
  | none =>
    if f.texts.has (step :: place) || nameLimit < step.utf8ByteSize then (f, none)
    else ({ f with folders := (step :: place) :: f.folders }, some (step :: place))

/-- Follows steps and makes the folders that are missing. -/
def makeFolders (f : Files) (place : List String) : List String → Files × Option (List String)
  | [] => (f, some place)
  | s :: rest => match f.enterNew place s with
    | (f, some next) => f.makeFolders next rest
    | (f, none) => (f, none)

/-- Whether the last step of a path can name a file. -/
def namesFile (step : String) : Bool := !isIdle step && step ≠ upward && step.utf8ByteSize ≤ nameLimit

def split (path : String) : List String × String :=
  let all := steps path
  (all.dropLast, all.getLastD "")

def read? (f : Files) (path : String) : Option String :=
  let (steps, name) := split path
  if path.utf8ByteSize ≤ pathLimit && namesFile name then
    (steps.foldlM f.enter (start path)).bind fun place => f.texts.get? (name :: place)
  else none

def withNewlines (text : String) : String := (text.replace "\r\n" "\n").replace "\r" "\n"

def shown? (f : Files) (path : String) : Option String := (f.read? path).map withNewlines

/-- The place of a file at a path, if one can be there, and the files with the folders on the way to it. -/
def prepare (f : Files) (path : String) : Files × Option (List String) :=
  let (steps, name) := split path
  if pathLimit < path.utf8ByteSize then (f, none)
  else match f.makeFolders (start path) steps with
    | (f, none) => (f, none)
    | (f, some place) => (f, if namesFile name && !f.isFolder (name :: place) then some (name :: place) else none)

/-- Puts a text at a path, if a file can be there. -/
def put (f : Files) (path text : String) : Files :=
  match f.prepare path with
  | (f, some place) => { f with texts := f.texts.set place text }
  | (f, none) => f

/-- Whether a file can be written. Nothing is written from the root on. -/
def canWrite (f : Files) (path : String) : Bool := !isAbsolute path && (f.prepare path).2.isSome

def write (f : Files) (path text : String) : Files := if isAbsolute path then f else f.put path text

def ofList (files : List (String × String)) : Files :=
  files.foldl (fun f file => f.put file.1 file.2) {}

end Files

end FlowGraph
