import ContractFlow.Data.Sha256
import ContractFlow.Plugin.Manifest
import ContractFlow.Plugin.Module

/-!
This module finds plugins, loads them and registers their policies.
-/

namespace ContractFlow

structure Plugin where
  manifest : Manifest
  place : FilePlace
  checksum : String
  classes : List PolicyClass := []
  modules : List String := []
  errors : List String := []
  isEnabled : Bool := true
deriving Inhabited

inductive LoadFault where
  | directoryMissing
  | nameTooLong
  | moduleIsDirectory
  | severe (fault : YamlFault)
deriving DecidableEq, Inhabited

namespace Plugin

def addModule (p : Plugin) (name label : String) (items : List ModuleItem) : Plugin :=
  match policiesOf items with
  | .ok classes => { p with modules := p.modules ++ [name], classes := p.classes ++ classes }
  | .error message => { p with errors := p.errors ++ [label ++ ": " ++ message] }

end Plugin

namespace FileTree

variable (t : FileTree)

def bytes? (p : FilePlace) : Option (List UInt8) :=
  match t.find? p with
  | some (.file text _) => some text.toUTF8.toList
  | _ => none

def itemsAt (p : FilePlace) : List ModuleItem :=
  match t.find? p with
  | some (.file _ items) => items
  | _ => []

def checksum (p : FilePlace) : Except LoadFault String :=
  match ((t.below p).filter FilePlace.isModule).mapM t.bytes? with
  | some contents => .ok (Sha256.hexDigest contents.flatten)
  | none => .error .moduleIsDirectory

def entryModule? (p : FilePlace) : Option FilePlace :=
  ["__init__.py", "main.py"].map (fun name => p ++ [name]) |>.find? t.isFile

def policyModules (m : Manifest) (p : FilePlace) : List FilePlace :=
  if m.providesPolicies then
    (t.children (p ++ ["configurations"])).filter fun q =>
      FilePlace.isModule q && !(FilePlace.name q).startsWith "_"
  else []

def loadPlugin (m : Manifest) (p : FilePlace) : Except LoadFault Plugin := do
  if t.isTooLong p then throw .nameTooLong
  if !t.isDirectory p then throw .directoryMissing
  let checksum ← t.checksum p
  let plugin : Plugin := { manifest := m, place := p, checksum := checksum }
  let head := Manifest.modulePrefix m.name
  let plugin := (t.entryModule? p).elim plugin fun q =>
    plugin.addModule head "entry module" (t.itemsAt q)
  return (t.policyModules m p).foldl
    (fun plugin q => plugin.addModule (head ++ "_" ++ FilePlace.stem q) (FilePlace.name q) (t.itemsAt q))
    plugin

end FileTree

structure PluginHost where
  files : FileTree
  root : FilePlace
  plugins : List Plugin := []
  registry : Registry := {}
deriving Inhabited

namespace PluginHost

variable (h : PluginHost)

def manifestIn (p : FilePlace) : Except LoadFault (Option Manifest) :=
  match (Manifest.fileIn? h.files p).map (Manifest.ofFile h.files) with
  | none => .ok none
  | some (.ok m) => .ok (some m)
  | some (.error (.notYaml fault)) => if fault.isSevere then .error (.severe fault) else .ok none
  | some (.error _) => .ok none

def discover : Except LoadFault (List Manifest) :=
  if h.files.isTooLong h.root then .error .nameTooLong
  else if h.files.isDirectory h.root then (h.files.subdirectories h.root).filterMapM h.manifestIn
  else .ok []

def put (p : Plugin) : List Plugin → List Plugin
  | [] => [p]
  | q :: rest => if q.manifest.name == p.manifest.name then p :: rest else q :: put p rest

def load (m : Manifest) : Except LoadFault PluginHost := do
  let p ← h.files.loadPlugin m (m.place.getD (FilePlace.resolve h.root m.name))
  return { h with plugins := put p h.plugins }

def loadAll : Except LoadFault (Nat × PluginHost) := do
  return (← h.discover).foldl
    (fun (n, h) m => match h.load m with
      | .ok h => (n + 1, h)
      | .error _ => (n, h))
    (0, h)

def classes : List PolicyClass :=
  (h.plugins.filter (·.isEnabled)).flatMap (·.classes)

def registerAll (r : Registry) (count : Nat) :
    List PolicyClass → Except RegistryFault Nat × Registry
  | [] => (.ok count, r)
  | c :: rest =>
    if !c.name.holds then registerAll r count rest
    else
      match r.register c with
      | .ok r => registerAll r (count + 1) rest
      | .error e => (.error e, r)

def register : Except RegistryFault Nat × PluginHost :=
  let (outcome, r) := registerAll h.registry 0 h.classes
  (outcome, { h with registry := r })

def isLoaded (name : String) : Bool :=
  h.plugins.any (·.manifest.name == name)

def unload (name : String) : PluginHost :=
  { h with plugins := h.plugins.filter fun p => p.manifest.name != name }

def setEnabled (name : String) (enabled : Bool) : PluginHost :=
  let change (p : Plugin) : Plugin :=
    if p.manifest.name == name then { p with isEnabled := enabled } else p
  { h with plugins := h.plugins.map change }

end PluginHost

end ContractFlow
