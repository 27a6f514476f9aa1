import Replica.Doc.Json
import Replica.Namespace.File

/-!
Namespace files and their parts as JSON. Every field is written, apart from type arguments, type
parameters and parameter names when they are empty, and package names that are not given.
-/

namespace Replica.Json

def tagged (tag : String) (body : Json) : Json :=
  .object [(tag, body)]

def ofReference (base : QualName) (args : List Json) : Json :=
  .object ([("package", text base.package), ("name", text base.name)] ++ nonempty "args" args)

def ofSignature (params results : List Json) (variadic : Bool) : Json :=
  .object [("params", .list params), ("results", .list results), ("variadic", flag variadic)]

def ofParameter (name : String) (type : Json) : Json :=
  .object ((if name = "" then [] else [("name", text name)]) ++ [("type", type)])

def ofField (name : String) (type : Json) : Json :=
  .object [("name", text name), ("type", type)]

def ofMethod (name : String) (signature : Json) : Json :=
  .object [("name", text name), ("signature", signature)]

def ofDirection : Direction → Json
  | .both => text "both"
  | .send => text "send"
  | .recv => text "recv"

mutual

def ofTy : Ty → Json
  | .basic name => tagged "basic" (text name)
  | .param name => tagged "type-param" (text name)
  | .named base args => tagged "named" (ofReference base (ofTys args))
  | .pointer elem => tagged "pointer" (ofTy elem)
  | .slice elem => tagged "slice" (ofTy elem)
  | .map key value => tagged "map" (.object [("key", ofTy key), ("value", ofTy value)])
  | .array len elem =>
    tagged "array" (.object [("len", natural len.toNat), ("element", ofTy elem)])
  | .chan direction elem =>
    tagged "chan" (.object [("dir", ofDirection direction), ("element", ofTy elem)])
  | .struct members => tagged "struct" (.object [("fields", .list (ofTyFields members))])
  | .interface shape => tagged "interface" (ofTyInterface shape)
  | .func signature => tagged "signature" (ofTySignature signature)

def ofTys : List Ty → List Json
  | [] => []
  | t :: ts => ofTy t :: ofTys ts

def ofTyFields : List (Field Ty) → List Json
  | [] => []
  | ⟨name, type⟩ :: members => ofField name (ofTy type) :: ofTyFields members

def ofTyParams : List (Field Ty) → List Json
  | [] => []
  | ⟨name, type⟩ :: params => ofParameter name (ofTy type) :: ofTyParams params

def ofTySignature : Signature Ty → Json
  | ⟨params, results, variadic⟩ => ofSignature (ofTyParams params) (ofTyParams results) variadic

def ofTyMethods : List (Method Ty) → List Json
  | [] => []
  | ⟨name, signature⟩ :: methods => ofMethod name (ofTySignature signature) :: ofTyMethods methods

def ofTyInterface : Interface Ty → Json
  | ⟨embedded, methods⟩ =>
    .object [("embedded", .list (ofTys embedded)), ("methods", .list (ofTyMethods methods))]

end

def ofConstraint (param : Field Ty) : Json :=
  .object [("name", text param.name), ("constraint", ofTy param.type)]

def ofTypeDecl (decl : TypeDecl) : Json :=
  .object ([("name", text decl.name)] ++ nonempty "type-params" (decl.params.map ofConstraint)
    ++ [("underlying", ofTy decl.underlying)])

def ofPackage (p : Package) : Json :=
  .object ([("path", text p.path)] ++ optional "name" (p.name.map text)
    ++ [("types", .list (p.types.map ofTypeDecl))])

def ofMetadata (m : Metadata) : Json :=
  .object [("module", text m.module), ("package", (m.package.map text).getD null),
    ("dependencies", texts m.dependencies), ("imports", texts m.imports)]

def ofNamespaceFile (file : NamespaceFile) : Json :=
  .object [("namespace", ofMetadata file.metadata),
    ("packages", .list (file.packages.map ofPackage))]

end Replica.Json
