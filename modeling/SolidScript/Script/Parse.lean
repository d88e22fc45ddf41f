import SolidScript.Error
import SolidScript.Grammar.Match
import SolidScript.Script.OfTree

/-!
# Script — reading a source

A source that the grammar matches is the script that its tree spells.  For one that it refuses the
furthest failure is reported, unless no token starts at a place that the tokens before the failure
lead to: then the character there is reported.

Every reading starts afresh; nothing is kept from one source to the next.
-/

namespace SolidScript

/-- The first character that starts no token, if it is met before a token that ends after the
offset. -/
def faultBefore (offset : Nat) : Nat → Cursor → Option Unexpected
  | 0,     _    => none
  | n + 1, here =>
    match Token.next here with
    | .done _        => none
    | .stuck there c => some ⟨there.offset, c⟩
    | .token t there => if offset < t.stop then none else faultBefore offset n there

/-- What is reported of a source whose furthest failure is this. -/
def explain (source : Text) (furthest : Furthest) : Failure :=
  match faultBefore furthest.offset (source.length + 1) (.start source) with
  | some bad => ⟨.unexpected bad.char, bad.offset⟩
  | none     => ⟨.missed furthest.missed, furthest.offset⟩

namespace Script

/-- The script that a source spells, or what is wrong with the source. -/
def parseWith (settings : Grammar.Settings) (source : Text) : Except Failure Script :=
  match Grammar.judge settings source with
  | .tooDeep          => .error ⟨.tooDeep, 0⟩
  | .refused furthest => .error (explain source furthest)
  | .accepted tree    =>
    match OfTree.script? tree with
    | some script => .ok script
    | none        => .error ⟨.misshapen, 0⟩

/-- The settings that sources are read with. -/
def settings : Grammar.Settings := ⟨488, true⟩

/-- The script that a source spells, or what is wrong with the source. -/
def parse (source : Text) : Except Failure Script := parseWith settings source

end Script

end SolidScript
