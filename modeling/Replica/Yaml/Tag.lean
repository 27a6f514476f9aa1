import Replica.Yaml.Quoted

/-!
Tags and directives as they are written.

A tag is a handle and a suffix, and the handle stands for a prefix that a directive may define.
Some characters are written as percent escapes of their bytes.
-/

namespace Replica.Yaml

def isWordChar (c : Char) : Bool :=
  c.isAlphanum || c == '_' || c == '-'

def isUriChar (wide : Bool) (c : Char) : Bool :=
  isWordChar c
    || [';', '/', '?', ':', '@', '&', '=', '+', '$', '.', '!', '~', '*', '\'', '(', ')'].contains c
    || (wide && (c == ',' || c == '[' || c == ']'))

def octet? : List Char → Option (Nat × List Char)
  | '%' :: a :: b :: rest => (number? 16 [a, b]).map (·, rest)
  | _ => none

def leading? (octet : Nat) : Option (Nat × Nat) :=
  if octet < 0x80 then some (0, octet)
  else if 0xc0 ≤ octet && octet < 0xe0 then some (1, octet - 0xc0)
  else if 0xe0 ≤ octet && octet < 0xf0 then some (2, octet - 0xe0)
  else if 0xf0 ≤ octet && octet < 0xf8 then some (3, octet - 0xf0)
  else none

def trailing? : (count : Nat) → (value : Nat) → List Char → Option (Nat × List Char)
  | 0, value, text => some (value, text)
  | count + 1, value, text => do
    let (octet, rest) ← octet? text
    if 0x80 ≤ octet && octet < 0xc0 then trailing? count (value * 64 + (octet - 0x80)) rest
    else none

def escapedChar? (text : List Char) : Option (Char × List Char) := do
  let (octet, rest) ← octet? text
  let (count, value) ← leading? octet
  let (value, rest) ← trailing? count value rest
  return (Char.ofNat value, rest)

def uri? (wide : Bool) : (limit : Nat) → List Char → Option (List Char × List Char)
  | 0, text => some ([], text)
  | limit + 1, '%' :: rest => do
    let (c, rest) ← escapedChar? ('%' :: rest)
    let (cs, rest) ← uri? wide limit rest
    return (c :: cs, rest)
  | limit + 1, c :: rest =>
    if isUriChar wide c then do
      let (cs, rest) ← uri? wide limit rest
      return (c :: cs, rest)
    else some ([], c :: rest)
  | _ + 1, [] => some ([], [])

structure TagName where
  handle : String
  suffix : String
  deriving DecidableEq, Repr

def defaultPrefixes : List (String × String) :=
  [("!", "!"), ("!!", coreTag "")]

def TagName.resolve? (prefixes : List (String × String)) (name : TagName) : Option String :=
  if name.handle = "" then some name.suffix
  else ((prefixes ++ defaultPrefixes).lookup name.handle).map (· ++ name.suffix)

def handleText (text : List Char) : List Char × List Char :=
  match text with
  | '!' :: rest =>
    let word := rest.takeWhile isWordChar
    match rest.dropWhile isWordChar with
    | '!' :: rest => ('!' :: word ++ ['!'], rest)
    | rest => ('!' :: word, rest)
  | rest => ([], rest)

def isHandle (text : List Char) : Bool :=
  1 < text.length && text.getLast? == some '!'

def verbatimTag? (text : List Char) : Option (TagName × List Char) := do
  let (suffix, rest) ← uri? true text.length text
  match rest with
  | '>' :: rest => if suffix.isEmpty then none else some (⟨"", String.ofList suffix⟩, rest)
  | _ => none

def shortTag? (text : List Char) : Option (TagName × List Char) := do
  let (handle, rest) := handleText text
  let (suffix, rest) ← uri? false rest.length rest
  if isHandle handle then
    if suffix.isEmpty then none
    else return (⟨String.ofList handle, String.ofList suffix⟩, rest)
  else
    let suffix := handle.drop 1 ++ suffix
    if suffix.isEmpty then return (⟨"", "!"⟩, rest)
    else return (⟨"!", String.ofList suffix⟩, rest)

/-- Reads a tag, which ends at white space or in flow collections before a comma. -/
def tag? (inFlow : Bool) (text : List Char) : Option (TagName × List Char) := do
  let (name, rest) ← match text with
    | '!' :: '<' :: rest => verbatimTag? rest
    | text => shortTag? text
  if atWordEnd rest || (inFlow && rest.head? == some ',') then some (name, rest) else none

inductive Directive where
  | version (major minor : Nat)
  | tagPrefix (handle value : String)
  deriving DecidableEq, Repr

def skipBlanks (text : List Char) : List Char :=
  text.dropWhile isBlank

def versionNumber? (text : List Char) : Option (Nat × List Char) :=
  let digits := text.takeWhile Char.isDigit
  if 9 < digits.length then none
  else (number? 10 digits).map (·, text.dropWhile Char.isDigit)

def version? (text : List Char) : Option (Directive × List Char) := do
  let (major, rest) ← versionNumber? (skipBlanks text)
  match rest with
  | '.' :: rest => do
    let (minor, rest) ← versionNumber? rest
    return (.version major minor, rest)
  | _ => none

def tagPrefix? (text : List Char) : Option (Directive × List Char) := do
  let (handle, rest) := handleText (skipBlanks text)
  if handle != ['!'] && !isHandle handle then none
  else if !rest.head?.any isBlank then none
  else
    let rest := skipBlanks rest
    let (value, rest) ← uri? true rest.length rest
    if value.isEmpty || !atWordEnd rest then none
    else return (.tagPrefix (String.ofList handle) (String.ofList value), rest)

def afterLine? (text : List Char) : Option (List Char) :=
  let rest := match skipBlanks text with
    | '#' :: rest => rest.dropWhile fun c => !isBreak c
    | rest => rest
  if rest.head?.all isBreak then some (rest.drop 1) else none

def directive? (text : List Char) : Option (Directive × List Char) := do
  let name := text.takeWhile isWordChar
  let rest := text.dropWhile isWordChar
  let (directive, rest) ←
    if !atWordEnd rest then none
    else if name = "YAML".toList then version? rest
    else if name = "TAG".toList then tagPrefix? rest
    else none
  return (directive, ← afterLine? rest)

/-- The prefixes that the directives of a document define. It may say its version once, which is
1.1 or 1.2, and define each handle once. -/
def prefixes? (directives : List Directive) : Option (List (String × String)) :=
  let versions := directives.filterMap fun
    | .version major minor => some (major, minor)
    | .tagPrefix _ _ => none
  let defined := directives.filterMap fun
    | .version _ _ => none
    | .tagPrefix handle value => some (handle, value)
  if versions.length ≤ 1 && versions.all (fun v => v == (1, 1) || v == (1, 2))
      && (defined.map (·.1)).Nodup then some defined
  else none

end Replica.Yaml
