import OutOfOrder.Demo
/-!
# The command line

Runs the demonstration. What it shows goes to the standard output, its log
to the standard error stream.
-/

open OutOfOrder in
/-- Prints the demonstration and its log. -/
def main : IO UInt32 := do
  match Demo.transcript with
  | .ok t =>
    (← IO.getStderr).putStr t.logText
    (← IO.getStdout).putStr t.output
    return 0
  | .error fault =>
    (← IO.getStderr).putStrLn fault.message
    return 1
