import CanonicalLR.CommandLine.Width

/-!
# Bordered grids

What prints tables and traces is no concern of theirs; they hand rows of cells to a
printer. The program prints them with borders: a border line before the first row
and after every row, and every cell filled to the widest cell of its column with one
space on both sides.

## Main definitions

* `columnWidths` — the widest cell of each column.
* `renderGrid` — the printer of the program.
-/

namespace CanonicalLR.CommandLine

/-- The greater of two widths at each column, the longer row giving the rest. -/
def widest : List Nat → List Nat → List Nat
  | [], ws => ws
  | vs, [] => vs
  | v :: vs, w :: ws => max v w :: widest vs ws

/-- The width of each column. -/
def columnWidths (rows : List (List String)) : List Nat :=
  rows.foldl (fun widths row => widest widths (row.map width)) []

/-- A border line, as `+---+---+`. -/
def border (widths : List Nat) : String :=
  "+" ++ String.join (widths.map fun w =>
    String.ofList (List.replicate (w + 2) '-') ++ "+") ++ "\n"

/-- A row line, as `| cell | cell |`. -/
def gridRow (widths : List Nat) (row : List String) : String :=
  "|" ++ String.join (List.zipWith (fun w cell => " " ++ padTo w cell ++ " |") widths row)
    ++ "\n"

/-- The printer of the program. -/
def renderGrid (rows : List (List String)) : String :=
  let widths := columnWidths rows
  border widths ++ String.join (rows.map fun row => gridRow widths row ++ border widths)

end CanonicalLR.CommandLine
