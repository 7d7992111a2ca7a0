import Multigrid.Fault
import Multigrid.Text.Datum
import Multigrid.Text.Labelled

/-!
# Smoothers

A level is smoothed by a pointwise relaxation, or not at all.  Every relaxation has a short name,
under which a caller asks for it.

## Main definitions

* `Sweep`, `Smoother`: the relaxations
* `Smoother.ofDatum`: the relaxation of a short name
* `Smoother.name`, `Smoother.options`: a relaxation in full
-/

namespace Multigrid

/-- The order in which a Gauss–Seidel relaxation visits the points. -/
inductive Sweep where
  /-- Forward and back. -/
  | symmetric
  /-- From the first point to the last one. -/
  | forward
  /-- From the last point to the first one. -/
  | backward

/-- The name of an order. -/
def Sweep.name : Sweep → String
  | symmetric => "symmetric"
  | forward => "forward"
  | backward => "backward"

/-- A pointwise relaxation. -/
inductive Smoother where
  /-- Gauss–Seidel relaxation. -/
  | gaussSeidel (sweep : Sweep) (iterations : Nat)
  /-- Jacobi relaxation with a damping factor. -/
  | jacobi (damping : Float) (iterations : Nat)
  /-- Richardson relaxation, scaled by the spectral radius. -/
  | richardson (iterations : Nat)

namespace Smoother

/-- The relaxation of a short name. -/
def ofName? : String → Option Smoother
  | "gs" => some (gaussSeidel .symmetric 1)
  | "gs_forward" => some (gaussSeidel .forward 1)
  | "gs_backward" => some (gaussSeidel .backward 1)
  | "jacobi" => some (jacobi (2 / 3) 1)
  | "richardson" => some (richardson 1)
  | _ => none

/-- The relaxation that a value asks for; nothing asks for none. -/
def ofDatum {R : Type} : Datum → Except (Fault R) (Option Smoother)
  | .nothing => .ok none
  | .list _ => .error .unusableSmoother
  | .record _ => .error .unusableSmoother
  | .text name =>
    match ofName? name with
    | some smoother => .ok (some smoother)
    | none => .error (.unknownSmoother (Datum.text name).quoted)
  | other => .error (.unknownSmoother other.quoted)

/-- The name of a relaxation. -/
def name : Smoother → String
  | gaussSeidel _ _ => "gauss_seidel"
  | jacobi _ _ => "jacobi"
  | richardson _ => "richardson"

/-- The options of a relaxation. -/
def options : Smoother → Labelled Datum
  | gaussSeidel sweep iterations =>
    [("sweep", .text sweep.name), ("iterations", .integer iterations)]
  | jacobi damping iterations => [("omega", .real damping), ("iterations", .integer iterations)]
  | richardson iterations => [("iterations", .integer iterations)]

end Smoother

end Multigrid
