import Hungarian.Demo

/-!
The demonstration program.
-/

def main : IO Unit :=
  Hungarian.Demo.lines.forM IO.println
