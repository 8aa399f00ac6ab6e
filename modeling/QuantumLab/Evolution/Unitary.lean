import QuantumLab.Dense.Guarded
import QuantumLab.TimeGrid

/-
  This file evolves the ket of a closed quantum system by
  the propagators between the points of a time grid.

  Key definitions include:
    * `Unitary.evolve`
-/

namespace QuantumLab

namespace Unitary

variable {R : Type} [Arithmetic R]

/- The kets at the times after the first, from the ket at the first. -/
def ketsAfter
    (h : Mat R)
    (ket : Vec R) : List R → Except (Fault R) (List (Vec R))
  | [] => .ok []
  | [_] => .ok []
  | a :: b :: rest => do
      let propagator ← Guarded.propagator h (b - a)
      let next ← Guarded.vectorProduct propagator ket
      let later ← ketsAfter h next (b :: rest)
      return next :: later

/- Refuses a Hamiltonian that does not act on the space of a ket. -/
def requireDimensions (h : Mat R) (ket : Vec R) : Except (Fault R) Unit :=
  if h.isSquare && h.cols == ket.size then .ok ()
  else refuse (.mismatch ket.shape.square h.shape "unitary evolution")

/- The kets at all points of a time grid. -/
def evolve
    (h : Mat R)
    (ket : Vec R)
    (times : List R) : Except (Fault R) (List (Vec R)) := do
  requireAscending times
  requireDimensions h ket
  let later ← ketsAfter h ket times
  return ket :: later

end Unitary

end QuantumLab
