/-!
# Members — what stands between the brackets of a class

A pattern that is one bracketed class can be spliced into another class: what stands between its brackets goes there.
-/
namespace Packrat.Splice

/-- The members of a class up to the bracket that closes it, which must be the last character.  `first` says that no
member has been read; a `]` is then a member, and comes out escaped.  `depth` counts the classes open inside. -/
def membersFrom (first : Bool) (depth : Nat) : List Char → Option (List Char)
  | [] => none
  | ['\\'] => none
  | '\\' :: c :: cs => (membersFrom false depth cs).map ('\\' :: c :: ·)
  | '[' :: cs => (membersFrom false (depth + 1) cs).map ('[' :: ·)
  | ']' :: cs =>
    if 0 < depth then (membersFrom false (depth - 1) cs).map (']' :: ·)
    else if first then (membersFrom false 0 cs).map ('\\' :: ']' :: ·)
    else if cs.isEmpty then some [] else none
  | c :: cs => (membersFrom false depth cs).map (c :: ·)

def classMembers : List Char → Option (List Char)
  | '[' :: '^' :: cs => (membersFrom true 0 cs).map ('^' :: ·)
  | '[' :: cs => membersFrom true 0 cs
  | _ => none

end Packrat.Splice
