import FlatWasm.Command
import FlatWasm.FloatFormat.Codec

/-!
# The environment of the command

Floats are written in hexadecimal. A line of the log has the level, the text and the named values of
a message; the time at which it was logged, which a terminal also shows, is left out.
-/

namespace FlatWasm.Command

namespace Message

def line (level : Level) (message : Message) : String :=
  level.name ++ " " ++ message.text
    ++ String.join (message.fields.map fun (name, value) => " " ++ name ++ "=" ++ value) ++ "\n"

end Message

def Environment.standard : Environment where
  floats := .hexadecimal
  decodeHex := Hex.decode
  logLine := Message.line

end FlatWasm.Command
