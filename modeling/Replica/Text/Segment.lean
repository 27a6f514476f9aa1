/-!
Splitting and searching text held as a list of characters.
-/

namespace Replica.Text

/-- The stretches between the characters that satisfy `isBreak`; there is always at least one. -/
def segments (isBreak : Char → Bool) : List Char → List (List Char)
  | [] => [[]]
  | c :: rest =>
    if isBreak c then [] :: segments isBreak rest
    else match segments isBreak rest with
      | [] => [[c]]
      | segment :: others => (c :: segment) :: others

def occursIn (needle : List Char) : List Char → Bool
  | [] => needle.isEmpty
  | c :: rest => needle.isPrefixOf (c :: rest) || occursIn needle rest

def splitAtLast? (mark : Char) : List Char → Option (List Char × List Char)
  | [] => none
  | c :: rest =>
    match splitAtLast? mark rest with
    | some (before, after) => some (c :: before, after)
    | none => if c = mark then some ([], rest) else none

end Replica.Text
