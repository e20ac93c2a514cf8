import Mathlib.Data.List.Basic
import Mdrj.Core.Dict

/-!
# Patterns

Regular expressions as a backtracking matcher tries them: a pattern gives
all the ways in which it matches a beginning of the text, the preferred one
first (a repetition takes as much as it can, an optional part is there
rather than not), each with what the named groups hold and the rest of the
text. The match is the first of them.
-/
namespace Mdrj.Core

/-- What the named groups of a match hold. -/
abbrev Groups := Dict String String

/-- The ways in which a beginning of a text matches. -/
def Pattern := List Char → List (Groups × List Char)

namespace Pattern

/-- The characters of a word, as they are. -/
def literal (word : String) : Pattern := fun text =>
  if word.toList.isPrefixOf text then [([], text.drop word.toList.length)] else []

/-- `[p]{lo,hi}`, as many as possible; `none` for no upper bound. -/
def chars (p : Char → Bool) (lo : Nat) (hi : Option Nat) : Pattern := fun text =>
  let run := (text.takeWhile p).length
  let most := match hi with
    | some hi => min run hi
    | none => run
  (List.range (most + 1 - lo)).map fun i => ([], text.drop (most - i))

/-- One pattern after the other. -/
def andThen (a b : Pattern) : Pattern := fun text =>
  (a text).flatMap fun found => (b found.2).map fun found' => (found.1 ++ found'.1, found'.2)

def sequence : List Pattern → Pattern
  | [] => fun text => [([], text)]
  | a :: rest => a.andThen (sequence rest)

/-- `(?:a)?`. -/
def optional (a : Pattern) : Pattern := fun text => a text ++ [([], text)]

/-- `(?P<name>a)`. -/
def group (name : String) (a : Pattern) : Pattern := fun text =>
  (a text).map fun found =>
    ((name, String.ofList (text.take (text.length - found.2.length))) :: found.1, found.2)

/-- `re.match`: at the beginning of the text. -/
def match? (a : Pattern) (text : List Char) : Option Groups := (a text).head?.map Prod.fst

/-- `re.search`: at the first position where there is a match; `before` tells
of the character before a position whether a match may start there. -/
def searchAfter (before : Option Char → Bool) (a : Pattern) (last : Option Char) : List Char → Option Groups
  | [] => if before last then a.match? [] else none
  | c :: text =>
    match if before last then a.match? (c :: text) else none with
    | some groups => some groups
    | none => searchAfter before a (some c) text

def search (a : Pattern) (text : List Char) : Option Groups := a.searchAfter (fun _ => true) none text

end Pattern

/-- `match.group(name)` of a group that took part in the match. -/
def Groups.named (groups : Groups) (name : String) : String := (Dict.get groups name).getD ""

end Mdrj.Core
