import FlowGraph.Files
import FlowGraph.Json.Reader
import FlowGraph.Json.Writer
import FlowGraph.Settings.Basic
import FlowGraph.Toml

/-!
Settings kept in a file. A file that cannot be read or that breaks a rule leaves the defaults; every
accepted change is saved and announced.
-/
namespace FlowGraph

/-- Settings together with the file that keeps them. -/
structure Keeper where
  path : String := "scriptgraph.json"
  settings : Settings := {}
  deriving Repr

namespace Keeper

def tomlEnding : String := ".toml"

/-- The settings in a text, by the kind of file; none if they cannot be read or break a rule. A document
that is nested too deep is a fault of its own. -/
def parse (path text : String) : Except Fault (Option Settings) := do
  let v ← if path.endsWith tomlEnding then pure (Toml.read text) else Json.read text
  return v.bind fun v => (Settings.check v).toOption

/-- The settings in a file, or the defaults. -/
def load (files : Files) (path : String) : Except Fault Keeper := do
  let found ← match files.read? path with
    | some text => parse path text
    | none => pure none
  return { path := path, settings := found.getD {} }

/-- Where settings are saved: always in a document file. -/
def savePath (path : String) : String :=
  if path.endsWith tomlEnding then (path.dropEnd tomlEnding.length).toString ++ ".json" else path

/-- How settings are laid out in a file. -/
def layout : Json.Style := .spaces 4

/-- What is written of settings before their first number. No other value among them can lack a text. -/
def opening : String :=
  "\x7b" ++ layout.lineBreak 1 ++ Json.text "runtime" ++ ": \x7b" ++ layout.lineBreak 2 ++ Json.text "max_steps" ++ ": "

/-- Saves the settings. Where no file can be written this is passed over; a number without a text stops it in the
middle of the file, and so does a path that no file can have before anything is written. -/
def save (k : Keeper) (files : Files) : Files × Except Fault Unit :=
  let path := savePath k.path
  if path.toList.contains (Char.ofNat 0) then (files, .error .nullInPath)
  else match Json.render layout k.settings.toValue with
    | .ok text => (files.write path text, .ok ())
    | .error f => (files.write path opening, if files.canWrite path then .error f else .ok ())

/-- A setting that was changed, with its new value. -/
structure Change where
  sectionName : String
  key : String
  value : Value
  deriving Repr

/-- A keeper at work: the files around it, and the changes that it has told. -/
structure Desk where
  keeper : Keeper
  files : Files
  told : List Change := []
  deriving Repr

/-- A computation at a desk. What it changed before a failure stays changed. -/
abbrev Updating := ExceptT Fault (StateM Desk)

namespace Desk

def runOn {α : Type} (x : Updating α) (d : Desk) : Except Fault α × Desk := x.run.run d

def save : Updating Unit := do
  let d ← get
  let (files, result) := d.keeper.save d.files
  set { d with files := files }
  ExceptT.mk (pure result)

/-- Takes over settings that were accepted, saves them, and then tells what was changed. -/
def settle (s : Settings) (sectionName key : String) : Updating Change := do
  modify fun d => { d with keeper := { d.keeper with settings := s } }
  save
  let change : Change := ⟨sectionName, key, (s.value? sectionName key).getD .none⟩
  modify fun d => { d with told := d.told ++ [change] }
  return change

/-- Changes a setting. Its rule is asked before anything is changed. -/
def update (sectionName key : String) (v : Value) : Updating Change := do
  let s ← ExceptT.mk (pure ((← get).keeper.settings.update sectionName key v))
  settle s sectionName key

end Desk

/-- What a change of a setting comes to: a refusal, or the new settings and files, and how the rest went. -/
def update (k : Keeper) (files : Files) (sectionName key : String) (v : Value) :
    Except Fault (Keeper × Files × Except Fault Change) := do
  let s ← k.settings.update sectionName key v
  let (result, d) := Desk.runOn (Desk.settle s sectionName key) { keeper := k, files := files }
  return (d.keeper, d.files, result)

end Keeper

end FlowGraph
