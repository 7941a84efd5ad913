import LineAsm.Number.Decimal
import LineAsm.Number.Digits
import LineAsm.Text.Blank

set_option autoImplicit false

/-!
# Reading numbers

A numeral is an optional sign and a decimal: digits with at most one point among or beside them,
and optionally an exponent. `Number.ofText?` reads a text that is one numeral from end to end, or
one of the words for infinity and `nan`. `Number.ofLeading?` reads the longest numeral at the start
of a text, after blanks, and ignores what follows it.
-/

namespace LineAsm

def splitSign : List Char → Bool × List Char
  | '+' :: cs => (false, cs)
  | '-' :: cs => (true, cs)
  | cs => (false, cs)

def wordLimit : Nat := twoPow 64

/-- The word written by digits after an optional plus. -/
def wordOfText? (cs : List Char) : Option Nat :=
  let ds := match cs with
    | '+' :: ds => ds
    | ds => ds
  if !ds.isEmpty && ds.all Char.isDigit && ofDigits ds < wordLimit then some (ofDigits ds)
  else none

namespace Decimal

def splitFraction : List Char → List Char × List Char
  | '.' :: cs => (cs.takeWhile Char.isDigit, cs.dropWhile Char.isDigit)
  | cs => ([], cs)

/-- The exponent written by digits. It stops growing once it has reached `2 ^ 16`: the digits after
that belong to the numeral and do not count. -/
def exponentOf (ds : List Char) : Nat :=
  ds.foldl (fun e c => if e < 65536 then 10 * e + digitValue c else e) 0

/-- Takes an exponent. A mark that no digits follow is not part of the numeral. -/
def splitExponent (cs : List Char) : Int × List Char :=
  match cs with
  | mark :: tail =>
    if mark = 'e' ∨ mark = 'E' then
      let (negative, unsigned) := splitSign tail
      let ds := unsigned.takeWhile Char.isDigit
      if ds.isEmpty then (0, cs)
      else (Number.signed negative (exponentOf ds), unsigned.dropWhile Char.isDigit)
    else (0, cs)
  | [] => (0, [])

/-- Takes the longest decimal from the start of the text. -/
def split? (cs : List Char) : Option (Decimal × List Char) :=
  let ints := cs.takeWhile Char.isDigit
  let (fraction, afterFraction) := splitFraction (cs.dropWhile Char.isDigit)
  if ints.isEmpty && fraction.isEmpty then none
  else
    let (exponent, rest) := splitExponent afterFraction
    some (⟨ofDigits (ints ++ fraction), exponent - fraction.length⟩, rest)

end Decimal

namespace Number

def infinityWord : List Char := "Infinity".toList

def ofText? (cs : List Char) : Option Number :=
  let (negative, unsigned) := splitSign cs
  let word := unsigned.map Char.toLower
  if word = "inf".toList ∨ word = "infinity".toList then some (.infinite negative)
  else if word = "nan".toList then some .nan
  else
    match Decimal.split? unsigned with
    | some (d, []) => some (d.toNumber negative)
    | _ => none

/-- The number that the longest numeral at the start of a text denotes. -/
def ofLeading? (cs : List Char) : Option Number :=
  let (negative, unsigned) := splitSign (Text.trimStart cs)
  if infinityWord.isPrefixOf unsigned then some (.infinite negative)
  else (Decimal.split? unsigned).map fun p => p.1.toNumber negative

end Number

end LineAsm
