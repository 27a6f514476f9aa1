import Replica.Expr.Layout

/-!
The Go file for a tree: a header, the import block, then declarations, conversions and stubs, each
after a blank line.
-/

namespace Replica

structure FileOptions where
  package : String := "mirror"
  generateLine : Option String := none

namespace Tree

/-- The name a package is imported under. A package that is not imported goes by its default name;
of several imports of one path the last counts. -/
def aliasOf (tree : Tree) (path : String) : String :=
  match tree.imports.reverse.find? (·.path == path) with
  | some entry => entry.localName
  | none => defaultPackageName path

end Tree

def Import.spec (entry : Import) : String :=
  (if entry.explicit then entry.localName ++ " " else "") ++ "\"" ++ entry.path ++ "\""

def importLines : List Import → String
  | [] => ""
  | [entry] => "\t" ++ entry.spec ++ "\n"
  | entry :: next :: rest =>
    "\t" ++ entry.spec ++ "\n" ++ (if entry.group = next.group then "" else "\n")
      ++ importLines (next :: rest)

def importText : List Import → String
  | [] => ""
  | [only] => "\nimport " ++ only.spec ++ "\n"
  | entries => "\nimport (\n" ++ importLines entries ++ ")\n"

def paramsText (aliases : String → String) : List (Field Expr) → String
  | [] => ""
  | params =>
    let texts := params.map fun param => param.name ++ " " ++ param.type.layout aliases 0
    "[" ++ ", ".intercalate texts ++ "]"

def Body.layout (aliases : String → String) : Body → String
  | .struct members => (Expr.struct members).layout aliases 0
  | .interface elements => (Expr.interface elements).layout aliases 0
  | .defined type => type.layout aliases 0

def Decl.layout (aliases : String → String) (decl : Decl) : String :=
  "type " ++ decl.name ++ paramsText aliases decl.params ++ " " ++ decl.body.layout aliases ++ "\n"

def Conversion.layout (aliases : String → String) (c : Conversion) : String :=
  let target := c.target.layout aliases 0
  "func " ++ c.name ++ paramsText aliases c.params ++ "(x " ++ c.source.layout aliases 0 ++ ") "
    ++ target ++ " \x7b\n\treturn (" ++ target ++ ")(" ++ aliases "unsafe" ++ ".Pointer(x))\n\x7d\n"

def Stub.layout (aliases : String → String) (stub : Stub) : String :=
  "func (" ++ (if stub.pointerReceiver then "*" else "") ++ stub.receiver ++ ") " ++ stub.method
    ++ Expr.signatureLayout aliases 0 stub.signature ++ " "
    ++ (if stub.signature.results.isEmpty then "\x7b\x7d" else "\x7b\n\treturn\n\x7d") ++ "\n"

def Tree.blocks (aliases : String → String) (tree : Tree) : List String :=
  tree.decls.map (·.layout aliases) ++ tree.conversions.map (·.layout aliases)
    ++ tree.stubs.map (·.layout aliases)

def Tree.sourceText (tree : Tree) (options : FileOptions) : String :=
  let generate := match options.generateLine with
    | some line => "//go:generate " ++ line ++ "\n\n"
    | none => ""
  "// Code generated by mirror-gen. DO NOT EDIT.\n\n" ++ generate
    ++ "package " ++ options.package ++ "\n" ++ importText tree.imports
    ++ String.join ((tree.blocks tree.aliasOf).map ("\n" ++ ·))

end Replica
