import Hungarian.Arithmetic.Double
import Hungarian.Solve

/-!
Solving with standard options, and solvers that keep their options.
-/

namespace Hungarian

def solveMin (matrix : CostMatrix Float) : Except (Failure Float) (Assignment Float) :=
  solveInMemory matrix .standard

def solveMax (matrix : CostMatrix Float) : Except (Failure Float) (Assignment Float) :=
  solveInMemory matrix Options.standard.maximizing

structure Solver where
  options : Options Float := .standard

def Solver.solve (solver : Solver) (matrix : CostMatrix Float) :
    Except (Failure Float) (Assignment Float) :=
  solveInMemory matrix solver.options

end Hungarian
