import Recompiler.Text.Numeral
import Recompiler.Text.Quoted
import Recompiler.Toml.Basic

/-!
Options of trace reports. A configuration file may set them, and the command line overrides it.
-/

namespace Recompiler

/-- Flags of the command line. -/
inductive Flag where
  | config | base | pc | count | maxTrace | fr | hir | native | verbose
  deriving DecidableEq, Inhabited, Repr

namespace Flag

def all : List Flag := [config, base, pc, count, maxTrace, fr, hir, native, verbose]

def name : Flag → String
  | config => "config"
  | base => "base"
  | pc => "pc"
  | count => "count"
  | maxTrace => "max-trace"
  | fr => "fr"
  | hir => "hir"
  | native => "native"
  | verbose => "verbose"

def ofName? (s : String) : Option Flag := all.find? (·.name = s)

/-- A switch needs no value. -/
def isSwitch : Flag → Bool
  | fr | hir | native | verbose => true
  | config | base | pc | count | maxTrace => false

end Flag

/-- What stands on the command line. -/
structure Arguments where
  config : Option String := none
  base : Option String := none
  pc : Option String := none
  count : Option Int := none
  maxTrace : Option Int := none
  fr : Option Bool := none
  hir : Bool := false
  native : Bool := false
  verbose : Bool := false
  image : Option String := none
  deriving DecidableEq, Inhabited, Repr

inductive UsageError where
  | badFlag (arg : String)
  | undefined (name : String)
  | missingValue (name : String)
  | badSwitch (name value : String)
  | badNumber (name value : String) (e : Text.NumeralError)
  deriving DecidableEq, Repr

namespace UsageError

def message : UsageError → String
  | .badFlag arg => "bad flag syntax: " ++ arg
  | .undefined name => "flag provided but not defined: -" ++ name
  | .missingValue name => "flag needs an argument: -" ++ name
  | .badSwitch name value =>
    "invalid boolean value " ++ Text.quoted value ++ " for -" ++ name ++ ": parse error"
  | .badNumber name value e =>
    "invalid value " ++ Text.quoted value ++ " for flag -" ++ name ++ ": "
      ++ (match e with | .invalidSyntax => "parse error" | .outOfRange => e.message)

end UsageError

namespace Arguments

/-- The ways to write a truth value. -/
def readBool? (s : String) : Option Bool :=
  if ["1", "t", "T", "true", "TRUE", "True"].contains s then some true
  else if ["0", "f", "F", "false", "FALSE", "False"].contains s then some false
  else none

def readInt (f : Flag) (s : String) : Except UsageError Int :=
  (Text.signedNumeral s).mapError (.badNumber f.name s)

def readSwitch (f : Flag) (s : String) : Except UsageError Bool :=
  match readBool? s with
  | some b => .ok b
  | none => .error (.badSwitch f.name s)

/-- Sets a flag. The last value counts. -/
def set (a : Arguments) (f : Flag) (s : String) : Except UsageError Arguments := do
  match f with
  | .config => return { a with config := some s }
  | .base => return { a with base := some s }
  | .pc => return { a with pc := some s }
  | .count => return { a with count := some (← readInt f s) }
  | .maxTrace => return { a with maxTrace := some (← readInt f s) }
  | .fr => return { a with fr := some (← readSwitch f s) }
  | .hir => return { a with hir := ← readSwitch f s }
  | .native => return { a with native := ← readSwitch f s }
  | .verbose => return { a with verbose := ← readSwitch f s }

/-- The name and the value of `name=value`. A name has at least one character. -/
def splitValue : List Char → String × Option String
  | [] => ("", none)
  | c :: cs =>
    let name := String.ofList (c :: cs.takeWhile (· ≠ '='))
    match cs.dropWhile (· ≠ '=') with
    | [] => (name, none)
    | _ :: value => (name, some (String.ofList value))

/-- The flag that an argument is, without its dashes; `none` if it is no flag. -/
def flagText? (arg : String) : Option (List Char) :=
  match arg.toList with
  | '-' :: '-' :: cs => some cs
  | '-' :: c :: cs => some (c :: cs)
  | _ => none

/-- Reads flags up to the first argument that is none, which names the image. Two dashes alone
end the flags as well. -/
def read (a : Arguments) : List String → Except UsageError Arguments
  | [] => .ok a
  | arg :: rest =>
    match flagText? arg with
    | none => .ok { a with image := some arg }
    | some [] => .ok { a with image := rest.head? }
    | some text =>
      if text.head? = some '-' ∨ text.head? = some '=' then .error (.badFlag arg)
      else
        match splitValue text with
        | (name, value?) =>
          match Flag.ofName? name, value? with
          | none, _ => .error (.undefined name)
          | some f, some value => do read (← a.set f value) rest
          | some f, none =>
            if f.isSwitch then do read (← a.set f "true") rest
            else
              match rest with
              | [] => .error (.missingValue name)
              | value :: rest => do read (← a.set f value) rest

end Arguments

/-- Options of a report. -/
structure ReportOptions where
  image : String := ""
  /-- The address of the image. -/
  base : UInt32 := 0
  /-- The address of the first trace. -/
  pc : UInt32 := 0
  /-- The number of traces. -/
  count : Int := 1
  /-- The most instructions in a trace, if it is positive. -/
  maxTrace : Int := 256
  /-- Are the floating-point registers wide? -/
  wideFp : Bool := true
  /-- Are programs shown? -/
  showIr : Bool := false
  /-- Is native code shown? -/
  showNative : Bool := false
  verbose : Bool := false
  deriving DecidableEq, Inhabited, Repr

/-- Why an entry of a configuration file cannot be taken. -/
inductive EntryError where
  | undefined (key : String)
  | mismatch (key kind type : String)
  | badInteger (key digits : String)
  | outOfRange (key type : String)
  deriving DecidableEq, Repr

namespace EntryError

def message : EntryError → String
  | .undefined key => "field '" ++ key ++ "' is not defined in main.dumpConfig"
  | .mismatch key kind type =>
    "(main.dumpConfig." ++ key ++ ") cannot unmarshal TOML " ++ kind ++ " into " ++ type
      ++ (match kind with
        | "array" | "array table" => " (need slice)"
        | "table" => " (need struct or map)"
        | _ => "")
  | .badInteger key digits =>
    "(main.dumpConfig." ++ key ++ ") strconv.ParseUint: parsing " ++ Text.quoted digits
      ++ ": invalid syntax"
  | .outOfRange key type =>
    "(main.dumpConfig." ++ key ++ ") value is out of range for " ++ type

end EntryError

/-- Why there are no options. -/
inductive OptionsError where
  | usage (e : UsageError)
  | missingFile (name : String)
  | document (file : String) (e : Toml.Error)
  | entry (file : String) (line : Nat) (e : EntryError)
  | noImage
  | badAddress (text : String) (e : Text.NumeralError)
  deriving DecidableEq, Repr

namespace OptionsError

/-- A message about a line of a file. -/
def atLine (file : String) (line : Nat) (message : String) : String :=
  file ++ ", line " ++ Text.decimal line ++ ": " ++ message

def message : OptionsError → String
  | .usage e => e.message
  | .missingFile name => "open " ++ name ++ ": no such file or directory"
  | .document file e => atLine file e.line e.problem.message
  | .entry file line e => atLine file line e.message
  | .noImage => "no image specified"
  | .badAddress text e =>
    "invalid address " ++ Text.quoted text ++ ": strconv.ParseUint: parsing " ++ Text.quoted text
      ++ ": " ++ e.message

end OptionsError

namespace Toml.Value

def kind : Value → String
  | .integer _ => "integer"
  | .float => "float"
  | .string _ => "string"
  | .boolean _ => "boolean"
  | .datetime => "datetime"
  | .array => "array"
  | .table => "table"
  | .tables => "array table"

/-- A word of 32 bits, without a sign. -/
def toWord (key : String) : Value → Except EntryError UInt32
  | .integer digits =>
    match Text.readDigits 10 0x100000000 0 digits.toList with
    | .ok n => .ok (UInt32.ofNat n)
    | .error .invalidSyntax => .error (.badInteger key digits)
    | .error .outOfRange => .error (.outOfRange key "uint32")
  | v => .error (.mismatch key v.kind "uint32")

def toInt (key : String) : Value → Except EntryError Int
  | .integer digits => (Text.signedNumeral digits).mapError fun _ => .outOfRange key "int"
  | v => .error (.mismatch key v.kind "int")

def toBool (key : String) : Value → Except EntryError Bool
  | .boolean b => .ok b
  | v => .error (.mismatch key v.kind "bool")

def toText (key : String) : Value → Except EntryError String
  | .string s => .ok s
  | v => .error (.mismatch key v.kind "string")

end Toml.Value

namespace ReportOptions

open Toml

/-- Sets the option that an entry names. -/
def setEntry (o : ReportOptions) (key : String) (v : Value) : Except EntryError ReportOptions := do
  match key with
  | "Image" => return { o with image := ← v.toText key }
  | "Base" => return { o with base := ← v.toWord key }
  | "PC" => return { o with pc := ← v.toWord key }
  | "Count" => return { o with count := ← v.toInt key }
  | "MaxTrace" => return { o with maxTrace := ← v.toInt key }
  | "FR" => return { o with wideFp := ← v.toBool key }
  | "HIR" => return { o with showIr := ← v.toBool key }
  | "Native" => return { o with showNative := ← v.toBool key }
  | "Verbose" => return { o with verbose := ← v.toBool key }
  | _ => throw (.undefined key)

/-- The options of a configuration file. -/
def ofDocument (file text : String) : Except OptionsError ReportOptions := do
  let entries ← (Toml.entries text).mapError (.document file)
  entries.foldlM (fun o e => (o.setEntry e.key e.value).mapError (.entry file e.line)) {}

def readAddress (text : String) : Except OptionsError UInt32 :=
  match Text.numeral 0x100000000 text with
  | .ok n => .ok (UInt32.ofNat n)
  | .error e => .error (.badAddress text e)

/-- Where an image stands that no option places. -/
def defaultBase : String := "0x80000000"

/-- The options of a configuration file, as the command line changes them. Without an address of
its own the first trace starts at the base. -/
def override (o : ReportOptions) (a : Arguments) : Except OptionsError ReportOptions := do
  let image := a.image.getD o.image
  if image.isEmpty then throw .noImage
  let base ←
    if a.base.isSome ∨ o.base = 0 then readAddress (a.base.getD defaultBase) else pure o.base
  let pc ← a.pc.elim (pure o.pc) readAddress
  return {
    image
    base
    pc := if pc = 0 then base else pc
    count := a.count.getD o.count
    maxTrace := a.maxTrace.getD o.maxTrace
    wideFp := a.fr.getD o.wideFp
    showIr := o.showIr || a.hir
    showNative := o.showNative || a.native
    verbose := o.verbose || a.verbose }

/-- The configuration file that the command line names. -/
def configFile? (args : List String) : Option String :=
  match Arguments.read {} args with
  | .error _ => none
  | .ok a => a.config.filter (!·.isEmpty)

/-- The options that the command line and its configuration file give. `files` has the texts of
files. -/
def ofArguments (files : String → Option String) (args : List String) :
    Except OptionsError ReportOptions := do
  let a ← (Arguments.read {} args).mapError .usage
  match configFile? args with
  | none => ReportOptions.override {} a
  | some file =>
    match files file with
    | none => throw (.missingFile file)
    | some text => (← ofDocument file text).override a

end ReportOptions

end Recompiler
