import Replica.Doc.Basic
import Replica.Namespace.File

/-!
Reading namespace files and their parts from documents.
-/

namespace Replica

namespace Reader

variable {σ α : Type} (rules : ScalarRules σ)

def direction : Reader σ Direction := fun levels doc =>
  match choice rules levels doc with
  | some "both" => some .both
  | some "send" => some .send
  | some "recv" => some .recv
  | _ => none

def field (typeKey : String) (type : Reader σ α) : Reader σ (Field α) := fun levels doc => do
  let record ← fields rules ["name", typeKey] levels doc
  return ⟨← record.required "name" (text rules), ← record.required typeKey type⟩

def parameter (type : Reader σ α) : Reader σ (Field α) := fun levels doc => do
  let record ← fields rules ["name", "type"] levels doc
  return ⟨← record.optional "name" "" (text rules), ← record.required "type" type⟩

def signature (type : Reader σ α) : Reader σ (Signature α) := fun levels doc => do
  let record ← fields rules ["params", "results", "variadic"] levels doc
  let params ← record.optional "params" [] (list rules (parameter rules type))
  let results ← record.optional "results" [] (list rules (parameter rules type))
  return ⟨params, results, ← record.optional "variadic" false (flag rules)⟩

def method (type : Reader σ α) : Reader σ (Method α) := fun levels doc => do
  let record ← fields rules ["name", "signature"] levels doc
  let name ← record.required "name" (text rules)
  return ⟨name, ← record.optional "signature" {} (signature rules type)⟩

def interface (type : Reader σ α) : Reader σ (Interface α) := fun levels doc => do
  let record ← fields rules ["embedded", "methods"] levels doc
  let embedded ← record.optional "embedded" [] (list rules type)
  return ⟨embedded, ← record.optional "methods" [] (list rules (method rules type))⟩

def reference (type : Reader σ α) : Reader σ (QualName × List α) := fun levels doc => do
  let record ← fields rules ["package", "name", "args"] levels doc
  let package ← record.required "package" (text rules)
  let name ← record.required "name" (text rules)
  return (⟨package, name⟩, ← record.optional "args" [] (list rules type))

def taggedTy (type : Reader σ Ty) (tag : String) : Reader σ Ty := fun levels doc =>
  match tag with
  | "basic" => (text rules levels doc).map .basic
  | "type-param" => (text rules levels doc).map .param
  | "named" => (reference rules type levels doc).map fun (base, args) => .named base args
  | "pointer" => (type levels doc).map .pointer
  | "slice" => (type levels doc).map .slice
  | "map" => do
    let record ← fields rules ["key", "value"] levels doc
    return .map (← record.required "key" type) (← record.required "value" type)
  | "array" => do
    let record ← fields rules ["len", "element"] levels doc
    return .array (← record.required "len" (word rules)) (← record.required "element" type)
  | "chan" => do
    let record ← fields rules ["dir", "element"] levels doc
    let towards ← record.optional "dir" .both (direction rules)
    return .chan towards (← record.required "element" type)
  | "struct" => do
    let record ← fields rules ["fields"] levels doc
    return .struct (← record.optional "fields" [] (list rules (field rules "type" type)))
  | "interface" => (interface rules type levels doc).map .interface
  | "signature" => (signature rules type levels doc).map .func
  | _ => none

def tyWithin : (depth : Nat) → Reader σ Ty
  | depth + 1, levels + 1, doc => do
    let (tag, body) ← tagged doc
    taggedTy rules (tyWithin depth) tag levels body
  | _, _, _ => none

/-- A type opens a level at least, so there are at most as many of them inside each other as there
are levels. -/
def ty : Reader σ Ty := fun levels doc => tyWithin rules levels levels doc

def declaredTy : Reader σ Ty := ty { rules with isUnit := fun _ => false }

def typeDecl : Reader σ TypeDecl := fun levels doc => do
  let record ← fields rules ["name", "type-params", "underlying"] levels doc
  let name ← record.required "name" (text rules)
  let params ← record.optional "type-params" []
    (list rules (field rules "constraint" (declaredTy rules)))
  return ⟨name, params, ← record.required "underlying" (declaredTy rules)⟩

def package : Reader σ Package := fun levels doc => do
  let record ← fields rules ["path", "name", "types"] levels doc
  let path ← record.required "path" (text rules)
  let name ← record.optional "name" none (optionalText rules)
  return ⟨path, name, ← record.optional "types" [] (list rules (typeDecl rules))⟩

def metadata : Reader σ Metadata := fun levels doc => do
  let record ← fields rules ["module", "package", "dependencies", "imports"] levels doc
  let module ← record.required "module" (text rules)
  let package ← record.optional "package" none (optionalText rules)
  let dependencies ← record.optional "dependencies" [] (list rules (text rules))
  return ⟨module, package, dependencies, ← record.optional "imports" [] (list rules (text rules))⟩

def namespaceFile : Reader σ NamespaceFile := fun levels doc => do
  let record ← fields rules ["namespace", "packages"] levels doc
  let header ← record.required "namespace" (metadata rules)
  return ⟨header, ← record.optional "packages" [] (list rules (package rules))⟩

end Reader

end Replica
