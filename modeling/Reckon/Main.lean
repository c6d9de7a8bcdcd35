import Reckon.CommandLine.Plan

open Reckon.CommandLine in
def main (arguments : List String) : IO UInt32 := do
  let outcome ← match plan arguments with
    | .done outcome => pure outcome
    | .onInput outcome => do
      let input ← (← IO.getStdin).readBinToEnd
      pure (outcome input.toList)
  for entry in outcome.entries do
    match entry with
    | .out line => IO.println line
    | .err line => IO.eprintln line
  return outcome.code.toUInt32
