import Ramify.Solver.Settings

/-!
Numerical methods for any number type: all complex roots of a polynomial at once, each corrected by
its distances to the others, and least squares by orthogonalising the columns of a matrix, longest
column first.
-/

namespace Ramify.Methods

variable {K : Type} [Scalar K]

def complexMul (a b : K × K) : K × K := (a.1 * b.1 - a.2 * b.2, a.1 * b.2 + a.2 * b.1)

def complexSub (a b : K × K) : K × K := (a.1 - b.1, a.2 - b.2)

def complexDiv (a b : K × K) : K × K :=
  let size := b.1 * b.1 + b.2 * b.2
  ((a.1 * b.1 + a.2 * b.2) / size, (a.2 * b.1 - a.1 * b.2) / size)

/-- The value of a polynomial at a complex number, coefficients from the highest down. -/
def complexValue (coeffs : List K) (z : K × K) : K × K :=
  coeffs.foldl (fun acc c => let product := complexMul acc z; (product.1 + c, product.2)) (0, 0)

/-- One sweep: each approximation moves by its value over its differences to the others. -/
def sweep (coeffs : List K) (roots : List (K × K)) : List (K × K) :=
  roots.zipIdx.map (fun entry =>
    let others := (roots.zipIdx.filter (fun other => other.2 != entry.2)).map Prod.fst
    let differences := others.map (fun other => complexSub entry.1 other)
    let product := differences.foldl complexMul (1, 0)
    complexSub entry.1 (complexDiv (complexValue coeffs entry.1) product))

def sweeps (coeffs : List K) : Nat → List (K × K) → List (K × K)
  | 0, roots => roots
  | n + 1, roots => sweeps coeffs n (sweep coeffs roots)

/-- Powers of a number that is neither real nor a root of unity, to start from. -/
def startingPoints : Nat → List (K × K)
  | 0 => []
  | n + 1 => (1, 0) :: (startingPoints n).map (complexMul (0.4, 0.9))

/-- The complex roots of a polynomial whose leading coefficient is not zero. -/
def complexRoots (coeffs : List K) : List (K × K) :=
  match coeffs.reverse with
  | [] => []
  | leading :: rest => sweeps (1 :: rest.map (· / leading)) 500 (startingPoints rest.length)

/-- The inner product of two vectors. -/
def dot (a b : List K) : K := (List.zipWith (· * ·) a b).foldl (· + ·) 0

/-- Takes away the part of a vector in a direction of length one. -/
def removePart (direction vector : List K) : List K :=
  let part := dot direction vector
  List.zipWith (fun v d => v - part * d) vector direction

def longest : List (Nat × List K) → Option (Nat × List K)
  | [] => none
  | column :: rest =>
    match longest rest with
    | none => some column
    | some other => some (if Scalar.norm column.2 < Scalar.norm other.2 then other else column)

/-- Solves for the coordinates of `target` along numbered columns, of which there are at most
`count`; columns no longer than `bound` count as dependent. The first component is the rank. -/
def coordinates (bound : K) :
    (count : Nat) → List (Nat × List K) → List K → Nat × Option (List (Nat × K))
  | 0, _, _ => (0, some [])
  | count + 1, columns, target =>
    match longest columns with
    | none => (0, some [])
    | some (index, column) =>
      let size := Scalar.norm column
      if size ≤ bound then (0, none)
      else
        let direction := column.map (· / size)
        let others := columns.filter (fun other => other.1 != index)
        let reduced := others.map (fun other => (other.1, removePart direction other.2))
        match coordinates bound count reduced (removePart direction target) with
        | (rank, none) => (rank + 1, none)
        | (rank, some found) =>
          let share (coordinate : Nat × K) : K :=
            ((others.find? (fun other => other.1 == coordinate.1)).map
              (fun other => dot direction other.2 * coordinate.2)).getD 0
          let value := (dot direction target - (found.map share).foldl (· + ·) 0) / size
          (rank + 1, some ((index, value) :: found))

def columnsOf (width : Nat) (rows : List (List K)) : List (Nat × List K) :=
  (List.range width).map (fun j => (j, rows.map (fun row => row.getD j 0)))

/-- The rank of a matrix, and the least squares solution if its columns are independent. -/
def leastSquares (rows : List (List K)) (target : List K) : Nat × Option (List K) :=
  let width := (rows.map List.length).foldl Nat.max 0
  let columns := columnsOf width rows
  let scale := ((longest columns).map (fun column => Scalar.norm column.2)).getD 0
  let bound := Scalar.resolution * Scalar.ofInt (Nat.max width rows.length) * scale
  match coordinates bound width columns target with
  | (rank, none) => (rank, none)
  | (rank, some found) =>
    (rank, some ((List.range width).map (fun j =>
      ((found.find? (fun coordinate => coordinate.1 == j)).map Prod.snd).getD 0)))

def standard : Numerics K := ⟨complexRoots, leastSquares⟩

end Ramify.Methods
