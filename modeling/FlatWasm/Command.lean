import FlatWasm.Assembly
import FlatWasm.Command.Options
import FlatWasm.Lowering

/-!
# The command

Reads one function body, prints its listing and then what it is lowered to. Progress is logged at
three levels of verbosity. What was printed before a failure stays.
-/

namespace FlatWasm.Command

/-- Why the content of a file is not available. -/
inductive FileError where
  | notFound
  | notText
  | other (message : String)
deriving DecidableEq

def FileError.message : FileError → String
  | .notFound => "No such file or directory (os error 2)"
  | .notText => "stream did not contain valid UTF-8"
  | .other message => message

inductive Failure where
  | unreadable (file : String) (error : FileError)
  | notHex (error : Hex.Error)
  | notAssembly (error : AssemblyError)
  | noInstructions (file : String)
  | undecodable (error : DecodeError)
  | notLowered (error : LoweringError)
deriving DecidableEq

namespace Failure

def message : Failure → String
  | .unreadable file _ => "reading " ++ file
  | .notHex _ => "decoding hex input"
  | .notAssembly error => error.message
  | .noInstructions file => file ++ " holds no instructions"
  | .undecodable error => error.message
  | .notLowered error => error.message

/-- The cause behind a failure, where the message does not tell it. -/
def cause? : Failure → Option String
  | .unreadable _ error => some error.message
  | .notHex error => some error.message
  | _ => none

def text (failure : Failure) : String :=
  "Error: " ++ failure.message ++ "\n" ++
    match failure.cause? with
    | some cause => "\nCaused by:\n    " ++ cause ++ "\n"
    | none => ""

end Failure

/-! ## Environment -/

inductive Level where
  | info
  | debug
  | trace
deriving DecidableEq

namespace Level

def name : Level → String
  | .info => "INFO"
  | .debug => "DEBUG"
  | .trace => "TRACE"

/-- The verbosity from which on a level is logged. -/
def threshold : Level → Nat
  | .info => 1
  | .debug => 2
  | .trace => 3

end Level

/-- What is logged: a text, and named values. -/
structure Message where
  text : String
  fields : List (String × String)

/-- What the command leaves to others: how floats look in a text, how hexadecimal digits are read,
and how a message looks in the log. -/
structure Environment where
  floats : FloatCodec
  decodeHex : List Char → Except Hex.Error (List UInt8)
  logLine : Level → Message → String

/-! ## Input -/

def contentText (bytes : List UInt8) : Except FileError (List Char) :=
  match String.fromUTF8? ⟨bytes.toArray⟩ with
  | some text => .ok text.toList
  | none => .error .notText

/-- The bytes that encode a text, each as the character of the same number. -/
def byteCharacters (text : List Char) : List Char :=
  (String.ofList text).toUTF8.toList.map fun byte => Char.ofNat byte.toNat

/-- The bytes of the body in a file's content. -/
def bodyBytes (env : Environment) (options : Options) (content : Except FileError (List UInt8)) :
    Except Failure (List UInt8) := do
  let content ← content.mapError (.unreadable options.file)
  let text := (contentText content).mapError (.unreadable options.file)
  let bytes ← match options.format with
    | .binary => .ok content
    | .hex => do
      let digits := byteCharacters ((← text).filter (!Text.isBlank ·))
      (env.decodeHex digits).mapError .notHex
    | .text => do (Assembly.assemble env.floats (← text)).mapError .notAssembly
  if bytes.isEmpty then .error (.noInstructions options.file) else .ok bytes

/-! ## Log -/

/-- Output so far, on both channels. -/
structure Output where
  stdout : String
  stderr : String
deriving DecidableEq

namespace Output

def empty : Output := ⟨"", ""⟩

def print (output : Output) (text : String) : Output :=
  { output with stdout := output.stdout ++ text }

/-- Logs messages, if the verbosity asks for their level. -/
def log (env : Environment) (output : Output) (options : Options) (level : Level)
    (messages : Unit → List Message) : Output :=
  if level.threshold ≤ options.verbosity then
    { output with
      stderr := (messages ()).foldl (fun log message => log ++ env.logLine level message)
        output.stderr }
  else output

end Output

def readMessage (bytes : List UInt8) : Message :=
  ⟨"read function body", [("len", toString bytes.length), ("body", Hex.encode bytes)]⟩

/-- How an instruction changes the number of open blocks. -/
def depthChange : Labelled → Int
  | .enter _ _ _ => 1
  | .close _ => -1
  | _ => 0

/-- One message for each decoded instruction, with the depth behind it. -/
def decodedMessages (floats : FloatCodec) (instructions : Array Placed) : List Message :=
  let step := fun (state : List Message × Nat × Int) (placed : Placed) =>
    let (messages, index, before) := state
    let depth := before + depthChange placed.labelled
    let message := ⟨placed.labelled.text floats, [("index", toString index),
      ("offset", toString placed.offset), ("depth", toString depth)]⟩
    (message :: messages, index + 1, depth)
  (instructions.foldl step ([], 0, 0)).1.reverse

def bodyMessage (body : Body) : Message :=
  ⟨"decoded function body", [("instructions", toString body.instructions.size),
    ("labels", toString body.blocks.size), ("param_count", toString body.params.toNat),
    ("else_terminated", toString body.elseTerminated)]⟩

def loweringMessage (body : Body) : Message :=
  ⟨"emitting function body", [("instructions", toString body.instructions.size),
    ("param_count", toString body.params.toNat)]⟩

/-- One message for each instruction whose lowering was begun: all that were lowered, and the next
if there is one. -/
def loweredMessages (floats : FloatCodec) (body : Body) (lowered : Nat) : List Message :=
  ((body.instructions.toList.take (lowered + 1)).zipIdx).map fun (placed, index) =>
    ⟨"lowering " ++ placed.labelled.text floats, [("index", toString index)]⟩

/-! ## Run -/

def header (body : Body) : String :=
  ";; " ++ toString body.instructions.size ++ " instruction(s), "
    ++ toString body.blocks.size ++ " block(s), "
    ++ toString body.params.toNat ++ " param(s)\n"

/-- Lowers a decoded body and prints the result. -/
def runLowering (env : Environment) (options : Options) (body : Body) (output : Output) :
    Except Failure Unit × Output :=
  let output := output.log env options .debug fun _ => [loweringMessage body]
  let (result, lowering) := body.lower .empty
  let output := output.log env options .trace fun _ =>
    loweredMessages env.floats body lowering.lowered
  match result with
  | .error error => (.error (.notLowered error), output)
  | .ok _ => (.ok (), output.print ("\n" ++ lowering.listing.text env.floats))

/-- Decodes a body, prints it, and lowers it unless only decoding is asked for. -/
def runBody (env : Environment) (options : Options) (bytes : List UInt8) (output : Output) :
    Except Failure Unit × Output :=
  let output := output.log env options .info fun _ => [readMessage bytes]
  let (ending, scan) := Body.scan .function (.ofBytes bytes)
  let output := output.log env options .trace fun _ =>
    decodedMessages env.floats scan.instructions
  match ending.bind fun elseTerminated =>
      Body.ofScan .function options.params elseTerminated scan with
  | .error error => (.error (.undecodable error), output)
  | .ok body =>
    let output := output.log env options .debug fun _ => [bodyMessage body]
    let output := output.print (header body ++ body.text env.floats)
    if options.decodeOnly then (.ok (), output) else runLowering env options body output

/-- What the command does with the content of its file. -/
def run (env : Environment) (options : Options) (content : Except FileError (List UInt8)) :
    Except Failure Unit × Output :=
  match bodyBytes env options content with
  | .error failure => (.error failure, .empty)
  | .ok bytes => runBody env options bytes .empty

/-- Exit code and output as the caller of the command sees them. -/
structure Outcome where
  code : UInt32
  output : Output
deriving DecidableEq

def usageError : Outcome :=
  ⟨2, "", "usage: FILE [--params N] [--format binary|hex|text] [--decode-only] [-v]\n"⟩

def outcome (env : Environment) (options : Options) (content : Except FileError (List UInt8)) :
    Outcome :=
  match run env options content with
  | (.ok _, output) => ⟨0, output⟩
  | (.error failure, output) => ⟨1, output.stdout, output.stderr ++ failure.text⟩

end FlatWasm.Command
