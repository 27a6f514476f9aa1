import Replica.Expr.Basic
import Replica.Namespace.Writing

/-!
Trees as JSON, with the keys in a fixed order. Type parameters are left out when there are none.
-/

namespace Replica.Json

mutual

def ofExpr : Expr → Json
  | .ident name => tagged "ident" (text name)
  | .qualified q => tagged "qualified" (ofReference q [])
  | .applied base args =>
    tagged "instance" (.object [("base", ofExpr base), ("args", .list (ofExprs args))])
  | .pointer elem => tagged "pointer" (ofExpr elem)
  | .map key value => tagged "map" (.object [("key", ofExpr key), ("value", ofExpr value)])
  | .array len elem =>
    tagged "array" (.object [("len", natural len.toNat), ("element", ofExpr elem)])
  | .slice elem => tagged "slice" (ofExpr elem)
  | .struct members => tagged "struct" (.object [("fields", .list (ofMembers members))])
  | .func signature => tagged "func" (ofExprSignature signature)
  | .interface elements => tagged "interface" (.object [("elements", .list (ofElements elements))])

def ofExprs : List Expr → List Json
  | [] => []
  | e :: es => ofExpr e :: ofExprs es

def ofMembers : List (Member Expr) → List Json
  | [] => []
  | ⟨name, type, position⟩ :: members =>
    .object [("name", text name), ("type", ofExpr type), ("position", natural position)]
      :: ofMembers members

def ofExprParams : List (Field Expr) → List Json
  | [] => []
  | ⟨name, type⟩ :: params => ofParameter name (ofExpr type) :: ofExprParams params

def ofExprSignature : Signature Expr → Json
  | ⟨params, results, variadic⟩ => ofSignature (ofExprParams params) (ofExprParams results) variadic

def ofElements : List (Element Expr) → List Json
  | [] => []
  | .embedded type :: elements => tagged "embedded" (ofExpr type) :: ofElements elements
  | .method name signature :: elements =>
    tagged "method" (ofMethod name (ofExprSignature signature)) :: ofElements elements

end

def ofImportGroup : ImportGroup → Json
  | .firstParty => text "first-party"
  | .dependency => text "dependency"

def ofImport (entry : Import) : Json :=
  .object [("path", text entry.path), ("alias", text entry.localName),
    ("explicit", flag entry.explicit), ("group", ofImportGroup entry.group)]

def ofBody : Body → Json
  | .struct members => tagged "struct" (.object [("fields", .list (ofMembers members))])
  | .interface elements => tagged "interface" (.object [("elements", .list (ofElements elements))])
  | .defined type => tagged "defined" (ofExpr type)

def paramsEntry (params : List (Field Expr)) : List (String × Json) :=
  nonempty "type-params" <| params.map fun param =>
    .object [("name", text param.name), ("constraint", ofExpr param.type)]

def ofDecl (decl : Decl) : Json :=
  .object ([("name", text decl.name), ("origin", ofReference decl.origin [])]
    ++ paramsEntry decl.params ++ [("body", ofBody decl.body)])

def ofConversion (c : Conversion) : Json :=
  .object ([("name", text c.name)] ++ paramsEntry c.params
    ++ [("source", ofExpr c.source), ("target", ofExpr c.target)])

def ofStub (stub : Stub) : Json :=
  .object [("receiver", text stub.receiver), ("pointer-receiver", flag stub.pointerReceiver),
    ("method", text stub.method), ("signature", ofExprSignature stub.signature)]

def ofTree (tree : Tree) : Json :=
  .object [("imports", .list (tree.imports.map ofImport)),
    ("decls", .list (tree.decls.map ofDecl)),
    ("conversions", .list (tree.conversions.map ofConversion)),
    ("stubs", .list (tree.stubs.map ofStub))]

end Replica.Json
