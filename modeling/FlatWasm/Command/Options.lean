import FlatWasm.Text.Numeral
import FlatWasm.Text.Words

/-!
# Command-line options

`FILE` and the options `--params N`, `--format F`, `--decode-only` and `-v` or `--verbose`, in any
order. The value of an option follows as the next argument or behind an equals sign. All but the
verbosity may be given once, and everything after `--` is a file.
-/

namespace FlatWasm.Command

inductive Format where
  | binary
  | hex
  | text
deriving DecidableEq

def Format.ofName? : String → Option Format
  | "binary" => some .binary
  | "hex" => some .hex
  | "text" => some .text
  | _ => none

structure Options where
  file : String
  params : UInt32
  format : Format
  decodeOnly : Bool
  verbosity : Nat
deriving DecidableEq

/-- The arguments seen so far. -/
structure Given where
  file : Option String
  params : Option UInt32
  format : Option Format
  decodeOnly : Bool
  verbosity : Nat
deriving DecidableEq

namespace Given

def none : Given := ⟨.none, .none, .none, false, 0⟩

def setFile (given : Given) (name : String) : Option Given :=
  if given.file.isSome ∨ name = "" then .none else some { given with file := name }

def setParams (given : Given) (value : List Char) : Option Given :=
  if given.params.isSome then .none
  else
    let count := (Numeral.signed? 10 64 value).filter fun n : Int => 0 ≤ n && n < UInt32.size
    count.map fun n => { given with params := some (UInt32.ofNat n.toNat) }

def setFormat (given : Given) (value : List Char) : Option Given :=
  if given.format.isSome then .none
  else (Format.ofName? (String.ofList value)).map fun format => { given with format := some format }

/-- A long option that takes no value. -/
def setFlag (given : Given) (name : List Char) : Option Given :=
  if name = "decode-only".toList ∧ !given.decodeOnly then some { given with decodeOnly := true }
  else if name = "verbose".toList then some { given with verbosity := given.verbosity + 1 }
  else .none

/-- Short options, which may be joined. -/
def setShort (given : Given) (letters : List Char) : Option Given :=
  if letters.all (· == 'v') then
    some { given with verbosity := given.verbosity + letters.length }
  else .none

/-- The long options that take a value. -/
def setter? (name : List Char) : Option (Given → List Char → Option Given) :=
  if name = "params".toList then some setParams
  else if name = "format".toList then some setFormat
  else .none

/-- A value that stands as an argument of its own does not start with a dash. -/
def isValue (argument : String) : Bool := argument.toList.head? != some '-'

def parse (given : Given) : List String → Option Given
  | [] => some given
  | argument :: rest =>
    match argument.toList with
    | ['-', '-'] => rest.foldlM setFile given
    | '-' :: '-' :: option =>
      match Text.splitFirst (· == '=') option with
      | (name, some value) =>
        match setter? name with
        | some set => (set given value).bind (parse · rest)
        | .none => .none
      | (name, .none) =>
        match setter? name, rest with
        | .none, rest => (given.setFlag name).bind (parse · rest)
        | some _, [] => .none
        | some set, value :: rest =>
          if isValue value then (set given value.toList).bind (parse · rest) else .none
    | '-' :: letter :: letters => (given.setShort (letter :: letters)).bind (parse · rest)
    | _ => (given.setFile argument).bind (parse · rest)

end Given

/-- The options that the arguments give, if they are well formed and name a file. -/
def Options.ofArguments? (arguments : List String) : Option Options := do
  let given ← Given.none.parse arguments
  let file ← given.file
  return {
    file
    params := given.params.getD 0
    format := given.format.getD .binary
    decodeOnly := given.decodeOnly
    verbosity := given.verbosity }

end FlatWasm.Command
