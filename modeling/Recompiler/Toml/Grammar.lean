/-!
The grammar of TOML as parsing expressions, and the trees that they make of a text. An ordered
choice takes its first alternative that matches, repetition takes as much as it can, and neither
is undone. A text that is refused has a point up to which some rule matched.
-/

namespace Recompiler.Toml

/-- The rules of the grammar. -/
inductive Rule where
  | document | expression | newline | blanks | space | comment
  | keyValue | key | bareKey | quotedKey
  | value | table | standardTable | arrayTable | tableKey | tableKeySeparator
  | inlineTable | inlineEntries | inlineSeparator
  | integer | digits | float | fraction | exponent | boolean | datetime
  | digit | digitPair | digitQuad | date | time | dayTime | secondFraction | timeOffset
  | string | basicString | basicChar | escape | escaped | multilineString | multilineText
  | literalString | literalChar | multilineLiteral | literalText | literalTextChar
  | hexDigit | hexQuad
  | array | arrayValues | comma
  deriving DecidableEq, Inhabited, Repr

/-- Parsing expressions. -/
inductive Peg where
  | char (p : Char → Bool)
  | text (s : String)
  | seq (es : List Peg)
  | alt (es : List Peg)
  | many (e : Peg)
  | opt (e : Peg)
  /-- Matches nothing, where `e` does not match. -/
  | notAt (e : Peg)
  | rule (r : Rule)

/-- What a rule matched, from `first` to `last`. -/
inductive Tree where
  | node (rule : Rule) (first last : Nat) (children : List Tree)
  deriving Inhabited, Repr

namespace Tree

def rule : Tree → Rule
  | .node r _ _ _ => r

def first : Tree → Nat
  | .node _ i _ _ => i

def last : Tree → Nat
  | .node _ _ i _ => i

def children : Tree → List Tree
  | .node _ _ _ ts => ts

/-- The first child that the rule made. -/
def child? (t : Tree) (r : Rule) : Option Tree := t.children.find? (·.rule = r)

end Tree

namespace Rule

open Peg

def isBlank (c : Char) : Bool := c = ' ' || c = '\t'

def isBreak (c : Char) : Bool := c = '\r' || c = '\n'

/-- A character of a comment or of a text between single quotes. -/
def isShown (c : Char) : Bool := c = '\t' || ' ' ≤ c

def isHexDigit (c : Char) : Bool := c.isDigit || ('a' ≤ c && c ≤ 'f') || ('A' ≤ c && c ≤ 'F')

def isSign (c : Char) : Bool := c = '-' || c = '+'

def many1 (e : Peg) : Peg := seq [e, many e]

/-- More digits, single underscores between them. -/
def moreDigit : Peg := alt [rule digit, seq [text "_", rule digit]]

/-- What each rule matches. -/
def body : Rule → Peg
  | document =>
    seq [rule expression, many (seq [rule newline, rule expression]), opt (rule newline),
      notAt (char fun _ => true)]
  | expression =>
    alt [
      seq [rule blanks, rule table, rule blanks, opt (rule comment),
        many (seq [rule space, rule keyValue, rule blanks, opt (rule comment)])],
      seq [rule blanks, rule keyValue, rule blanks, opt (rule comment)],
      seq [rule blanks, opt (rule comment)]]
  | newline => many1 (char isBreak)
  | blanks => many (char isBlank)
  | space => many (char fun c => isBlank c || isBreak c)
  | comment => seq [text "#", many (char isShown)]
  | keyValue => seq [rule key, rule blanks, text "=", rule blanks, rule value]
  | key => alt [rule bareKey, rule quotedKey]
  | bareKey => many1 (char fun c => c.isAlphanum || c = '-' || c = '_')
  | quotedKey => seq [text "\"", many1 (rule basicChar), text "\""]
  | value =>
    alt [rule datetime, rule float, rule integer, rule string, rule boolean, rule array,
      rule inlineTable]
  | table => alt [rule standardTable, rule arrayTable]
  | standardTable => seq [text "[", rule blanks, rule tableKey, rule blanks, text "]"]
  | arrayTable => seq [text "[[", rule blanks, rule tableKey, rule blanks, text "]]"]
  | tableKey => seq [rule key, many (seq [rule tableKeySeparator, rule key])]
  | tableKeySeparator => seq [rule blanks, text ".", rule blanks]
  | inlineTable => seq [text "\x7b", rule blanks, rule inlineEntries, rule blanks, text "\x7d"]
  | inlineEntries => many (seq [rule keyValue, opt (rule inlineSeparator)])
  | inlineSeparator => seq [rule blanks, text ",", rule blanks]
  | integer => seq [opt (char isSign), rule digits]
  | digits => alt [seq [char fun c => '1' ≤ c && c ≤ '9', many1 moreDigit], rule digit]
  | float =>
    seq [rule integer,
      alt [seq [rule fraction, opt (rule exponent)], seq [opt (rule fraction), rule exponent]]]
  | fraction => seq [text ".", rule digit, many moreDigit]
  | exponent =>
    seq [char fun c => c = 'e' || c = 'E', opt (char isSign), rule digit, many moreDigit]
  | boolean => alt [text "true", text "false"]
  | datetime => alt [seq [rule date, opt (seq [text "T", rule time])], rule dayTime]
  | digit => char Char.isDigit
  | digitPair => seq [rule digit, rule digit]
  | digitQuad => seq [rule digitPair, rule digitPair]
  | date => seq [rule digitQuad, text "-", rule digitPair, text "-", rule digitPair]
  | time => seq [rule dayTime, opt (rule timeOffset)]
  | dayTime =>
    seq [rule digitPair, text ":", rule digitPair, text ":", rule digitPair,
      opt (rule secondFraction)]
  | secondFraction => seq [text ".", many1 (rule digit)]
  | timeOffset =>
    alt [text "Z", seq [char isSign, rule digitPair, text ":", rule digitPair]]
  | string =>
    alt [rule multilineLiteral, rule literalString, rule multilineString, rule basicString]
  | basicString => seq [text "\"", many (rule basicChar), text "\""]
  | basicChar =>
    alt [char fun c => ' ' ≤ c && c ≠ '"' && c ≠ '\\', rule escaped]
  | escape => text "\\"
  | escaped =>
    seq [rule escape,
      alt [char fun c => "btnfr\"/\\".contains c, seq [text "u", rule hexQuad],
        seq [text "U", rule hexQuad, rule hexQuad]]]
  | multilineString => seq [text "\"\"\"", rule multilineText, text "\"\"\""]
  | multilineText =>
    many (alt [rule basicChar, rule newline, seq [rule escape, rule newline, rule space]])
  | literalString => seq [text "'", many (rule literalChar), text "'"]
  | literalChar => char fun c => isShown c && c ≠ '\''
  | multilineLiteral => seq [text "'''", rule literalText, text "'''"]
  | literalText =>
    many (seq [notAt (text "'''"), alt [rule literalTextChar, rule newline]])
  | literalTextChar => char isShown
  | hexDigit => char isHexDigit
  | hexQuad => seq [rule hexDigit, rule hexDigit, rule hexDigit, rule hexDigit]
  | array => seq [text "[", rule space, opt (rule arrayValues), rule space, text "]"]
  | arrayValues =>
    seq [rule value,
      many (seq [rule space, opt (rule comment), rule space, rule comma, rule space,
        opt (rule comment), rule space, rule value]),
      rule space, opt (rule comma), rule space, opt (rule comment)]
  | comma => text ","

end Rule

/-- A point of the text. -/
structure Cursor where
  index : Nat
  rest : List Char

namespace Cursor

def start (s : String) : Cursor := ⟨0, s.toList⟩

/-- Steps over the characters of `s`. -/
def skip? (c : Cursor) (s : List Char) : Option Cursor :=
  if s.isPrefixOf c.rest then some ⟨c.index + s.length, c.rest.drop s.length⟩ else none

end Cursor

/-- Matching may fail, and keeps how far a rule has matched. -/
abbrev MatchM := OptionT (StateM Nat)

namespace Peg

/-- Matches an expression at a point. The first argument bounds the depth. -/
def run : Nat → Peg → Cursor → MatchM (Cursor × List Tree)
  | 0, _, _ => failure
  | n + 1, e, c =>
    match e with
    | .char p =>
      match c.rest with
      | x :: rest => if p x then pure (⟨c.index + 1, rest⟩, []) else failure
      | [] => failure
    | .text s =>
      match c.skip? s.toList with
      | some c => pure (c, [])
      | none => failure
    | .seq [] => pure (c, [])
    | .seq (e :: es) => do
      let (c, ts) ← run n e c
      let (c, us) ← run n (.seq es) c
      pure (c, ts ++ us)
    | .alt [] => failure
    | .alt (e :: es) => run n e c <|> run n (.alt es) c
    | .many e =>
      (do
        let (c, ts) ← run n e c
        let (c, us) ← run n (.many e) c
        pure (c, ts ++ us)) <|> pure (c, [])
    | .opt e => run n e c <|> pure (c, [])
    | .notAt e => OptionT.mk do
      match ← (run n e c).run with
      | some _ => pure none
      | none => pure (some (c, []))
    | .rule r => do
      let (c', ts) ← run n r.body c
      if c.index < c'.index then modify (max c'.index)
      pure (c', [.node r c.index c'.index ts])

end Peg

/-- The depth that matching a text may need: each character opens a few rules at most. -/
def maxDepth (s : String) : Nat := 64 * (s.length + 2)

/-- The tree of a document, or how far a rule has matched. -/
def parse (s : String) : Except Nat Tree :=
  match ((Peg.rule .document).run (maxDepth s) (.start s)).run.run 0 with
  | (some (_, t :: _), _) => .ok t
  | (_, furthest) => .error furthest

end Recompiler.Toml
