import Recompiler.Text.Number

/-!
Numerals of up to 64 bits. A prefix gives the base: `0x`, `0o` or a leading zero, and
`0b`; without one the base is ten. Single underscores may stand between digits and after a
prefix.
-/

namespace Recompiler.Text

inductive NumeralError where
  | invalidSyntax
  | outOfRange
  deriving DecidableEq, Repr

namespace NumeralError

def message : NumeralError → String
  | .invalidSyntax => "invalid syntax"
  | .outOfRange => "value out of range"

end NumeralError

/-- The value of a letter or digit, whatever the base. -/
def digitValue? (c : Char) : Option Nat :=
  if '0' ≤ c ∧ c ≤ '9' then some (c.toNat - 48)
  else if 'a' ≤ c ∧ c ≤ 'z' then some (c.toNat - 87)
  else if 'A' ≤ c ∧ c ≤ 'Z' then some (c.toNat - 55)
  else none

/-- Reads digits up to the first one that is no digit or leaves the range. -/
def readDigits (base limit : Nat) : Nat → List Char → Except NumeralError Nat
  | n, [] => .ok n
  | n, c :: cs =>
    if c = '_' then readDigits base limit n cs
    else
      match digitValue? c with
      | none => .error .invalidSyntax
      | some d =>
        if base ≤ d then .error .invalidSyntax
        else if limit ≤ n * base + d then .error .outOfRange
        else readDigits base limit (n * base + d) cs

/-- The base of a numeral, and its digits. -/
def splitBase : List Char → Nat × List Char
  | '0' :: p :: c :: cs =>
    if p = 'b' ∨ p = 'B' then (2, c :: cs)
    else if p = 'o' ∨ p = 'O' then (8, c :: cs)
    else if p = 'x' ∨ p = 'X' then (16, c :: cs)
    else (8, p :: c :: cs)
  | '0' :: cs => (8, cs)
  | cs => (10, cs)

/-- Does every underscore stand between digits? `afterDigit` says whether a digit or a prefix
came before. -/
def underscoresOk (hex : Bool) : Bool → List Char → Bool
  | _, [] => true
  | afterDigit, '_' :: c :: cs =>
    afterDigit && ((digitValue? c).any (· < if hex then 16 else 10)) && underscoresOk hex true cs
  | _, ['_'] => false
  | _, c :: cs => underscoresOk hex ((digitValue? c).any (· < if hex then 16 else 10)) cs

/-- Are the underscores of a numeral in place? -/
def separatorsOk : List Char → Bool
  | '0' :: p :: cs =>
    if p = 'x' ∨ p = 'X' then underscoresOk true true cs
    else if p = 'b' ∨ p = 'B' ∨ p = 'o' ∨ p = 'O' then underscoresOk false true cs
    else underscoresOk false false ('0' :: p :: cs)
  | cs => underscoresOk false false cs

/-- Reads a numeral below `limit`. -/
def numeral (limit : Nat) (s : String) : Except NumeralError Nat :=
  match s.toList with
  | [] => .error .invalidSyntax
  | cs =>
    let (base, digits) := splitBase cs
    match readDigits base limit 0 digits with
    | .error e => .error e
    | .ok n => if cs.contains '_' && !separatorsOk cs then .error .invalidSyntax else .ok n

/-- A number of 64 bits with its sign. -/
def checkSigned (negative : Bool) (n : Nat) : Except NumeralError Int :=
  if negative then if 0x8000000000000000 < n then .error .outOfRange else .ok (-(n : Int))
  else if 0x8000000000000000 ≤ n then .error .outOfRange else .ok n

/-- Reads a numeral that may have a sign. -/
def signedNumeral (s : String) : Except NumeralError Int :=
  match s.toList with
  | '-' :: cs => do checkSigned true (← numeral 0x10000000000000000 (String.ofList cs))
  | '+' :: cs => do checkSigned false (← numeral 0x10000000000000000 (String.ofList cs))
  | _ => do checkSigned false (← numeral 0x10000000000000000 s)

end Recompiler.Text
