import Recompiler.Text.Number
import Recompiler.Toml.Grammar

/-!
TOML documents as the entries of their top level. The entries of a table stay with the table.
-/

namespace Recompiler.Toml

/-- Values of entries. Integers keep their digits, and what no setting can be keeps nothing. -/
inductive Value where
  | integer (digits : String)
  | float
  | string (s : String)
  | boolean (b : Bool)
  | datetime
  | array
  | table
  | tables
  deriving DecidableEq, Inhabited, Repr

/-- An entry, and the line on which it ends. -/
structure Entry where
  key : String
  value : Value
  line : Nat
  deriving DecidableEq, Inhabited, Repr

inductive Problem where
  | malformed
  | badEscape
  | duplicate (key : String) (line : Nat)
  deriving DecidableEq, Repr

namespace Problem

/-- The line of a key that comes twice is written in hexadecimal, and a `d` follows it. -/
def message : Problem → String
  | .malformed => "invalid TOML syntax"
  | .badEscape => "invalid syntax"
  | .duplicate key line => "key `" ++ key ++ "' is in conflict with line " ++ Text.hex line ++ "d"

end Problem

/-- What is wrong with a document, and where. -/
structure Error where
  line : Nat
  problem : Problem
  deriving DecidableEq, Repr

/-- The characters from `first` to before `last`. -/
def slice (s : List Char) (first last : Nat) : List Char := (s.drop first).take (last - first)

namespace Tree

def slice (t : Tree) (s : List Char) : List Char := Toml.slice s t.first t.last

end Tree

/-- The line of an entry that ends at a point: every carriage return and line feed before it
begins a line. -/
def lineAt (s : List Char) (index : Nat) : Nat := (s.take index).countP Rule.isBreak + 1

/-- The line of a point that no rule got over. A line feed at the point begins the line. -/
def errorLine (s : List Char) (index : Nat) : Nat := (s.take (index + 1)).count '\n' + 1

/-- The character with the number that hexadecimal digits give, if there is one. -/
def charOfHex? (digits : List Char) : Option Char :=
  let n := digits.foldl (fun n c => 16 * n + (c.toNat - if c.isDigit then 48 else
    if c.isUpper then 55 else 87)) 0
  if n.isValidChar then some (Char.ofNat n) else none

/-- The character that an escape stands for. A slash needs none and has none. -/
def escaped? : List Char → Option Char
  | ['\\', 'b'] => some '\x08'
  | ['\\', 't'] => some '\t'
  | ['\\', 'n'] => some '\n'
  | ['\\', 'f'] => some '\x0c'
  | ['\\', 'r'] => some '\r'
  | ['\\', '"'] => some '"'
  | ['\\', '\\'] => some '\\'
  | '\\' :: 'u' :: digits => charOfHex? digits
  | '\\' :: 'U' :: digits => charOfHex? digits
  | ['\\', _] => none
  | cs => cs.head?

/-- The text of characters that may be escaped, and of line ends. -/
def charsOf (s : List Char) : List Tree → Option (List Char)
  | [] => some []
  | t :: ts =>
    match t.rule with
    | .basicChar => do return (← escaped? (t.slice s)) :: (← charsOf s ts)
    | .newline => (charsOf s ts).map (t.slice s ++ ·)
    | _ => charsOf s ts

/-- A text between three quotes does not begin with its first line ends. -/
def dropBreaks (cs : List Char) : List Char := cs.dropWhile Rule.isBreak

/-- The line ends after an escape are not part of a text, as the tree has them apart. -/
def withoutContinued : List Tree → List Tree
  | t :: u :: ts =>
    if t.rule = .escape then withoutContinued ts else t :: withoutContinued (u :: ts)
  | ts => ts

/-- The text of a string. -/
def stringOf (s : List Char) (t : Tree) : Option String :=
  match t.rule with
  | .basicString => (charsOf s t.children).map String.ofList
  | .literalString => some (String.ofList (slice s (t.first + 1) (t.last - 1)))
  | .multilineLiteral => some (String.ofList (dropBreaks (slice s (t.first + 3) (t.last - 3))))
  | _ =>
    (charsOf s (withoutContinued (t.children.flatMap Tree.children))).map
      (String.ofList <| dropBreaks ·)

def keyOf (s : List Char) (t : Tree) : Option String :=
  match t.children with
  | [k] =>
    if k.rule = .quotedKey then (charsOf s k.children).map String.ofList
    else some (String.ofList (k.slice s))
  | _ => none

def valueOf (s : List Char) (t : Tree) : Option Value :=
  match t.children with
  | [v] =>
    match v.rule with
    | .datetime => some .datetime
    | .float => some .float
    | .integer => some (.integer (String.ofList ((v.slice s).filter (· ≠ '_'))))
    | .string => (v.children.head?.bind (stringOf s)).map .string
    | .boolean => some (.boolean (v.slice s == "true".toList))
    | .array => some .array
    | _ => some .table
  | _ => none

/-- The entry of a key with a value. -/
def entryOf (s : List Char) (t : Tree) : Option Entry := do
  return ⟨← (t.child? .key).bind (keyOf s), ← (t.child? .value).bind (valueOf s), lineAt s t.last⟩

/-- The entry that a table's header makes on the top level. -/
def headerOf (s : List Char) (t : Tree) : Option Entry := do
  let header ← t.children.head?
  let key ← header.child? .tableKey
  return ⟨← (key.child? .key).bind (keyOf s),
    if header.rule = .arrayTable ∧ key.children.length = 1 then .tables else .table,
    lineAt s t.last⟩

/-- Adds what an expression says to the entries before it. A table's header may come again. -/
def addExpression (s : List Char) (entries : List Entry) (t : Tree) : Except Error (List Entry) :=
  match t.child? .table, t.child? .keyValue with
  | some header, _ =>
    match headerOf s header with
    | none => .error ⟨lineAt s header.last, .badEscape⟩
    | some e => .ok (if entries.any (·.key = e.key) then entries else entries ++ [e])
  | none, some kv =>
    match entryOf s kv with
    | none => .error ⟨lineAt s kv.last, .badEscape⟩
    | some e =>
      match entries.find? (·.key = e.key) with
      | some old => .error ⟨e.line, .duplicate e.key old.line⟩
      | none => .ok (entries ++ [e])
  | none, none => .ok entries

/-- The entries of a document, in order. -/
def entries (text : String) : Except Error (List Entry) :=
  match parse text with
  | .error furthest => .error ⟨errorLine text.toList furthest, .malformed⟩
  | .ok t => t.children.foldlM (addExpression text.toList) []

end Recompiler.Toml
