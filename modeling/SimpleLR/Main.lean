import SimpleLR.Generation

namespace SimpleLR

structure Options where
  grammar : Option String
  output : Option String
  debug : Bool

def Options.ofArgs? (o : Options) : List String → Option Options
  | [] => some o
  | "-g" :: path :: args => { o with grammar := some path }.ofArgs? args
  | "--grammar" :: path :: args => { o with grammar := some path }.ofArgs? args
  | "-o" :: path :: args => { o with output := some path }.ofArgs? args
  | "--output" :: path :: args => { o with output := some path }.ofArgs? args
  | "-d" :: args => { o with debug := true }.ofArgs? args
  | "--debug" :: args => { o with debug := true }.ofArgs? args
  | _ => none

def usage : String :=
  "Generate an SLR(1) parse table from a grammar\n\n" ++
    "Usage: simplelr [-d|--debug] -g|--grammar FILE -o|--output FILE"

def fileError : IO.Error → FileError
  | .noFileOrDirectory .. => .missing
  | e => .other e.toString

instance : FileAccess IO where
  readText path := do
    try
      match String.fromUTF8? (← IO.FS.readBinFile path) with
      | some text => return .ok text
      | none => return .error .notText
    catch e => return .error (fileError e)
  writeText path text := do
    try
      IO.FS.writeFile path text
      return .ok ()
    catch e => return .error (fileError e)

end SimpleLR

open SimpleLR in
def main (args : List String) : IO UInt32 := do
  match Options.ofArgs? ⟨none, none, false⟩ args with
  | some ⟨some source, some output, withListing⟩ =>
    match ← (generate source output withListing : ExceptT Failure IO Unit).run with
    | .ok () => return 0
    | .error e =>
      IO.eprintln s!"Error: {e.context}\n\nCaused by:\n    {e.reason}"
      return 1
  | _ =>
    IO.eprintln usage
    return 2
