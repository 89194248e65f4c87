import Switchyard.Text.Width

/-
  Switchyard.Text.Grid — tables drawn with lines.

  Every column is as wide as its widest line with a space on both sides. A frame goes
  around the table, a double rule under the header, dashed lines between the columns
  and nothing between the rows. A cell may have several lines; the row is as high as
  its highest cell.
-/

namespace Switchyard.Text

structure Grid where
  header : List String
  rows : List (List String)

namespace Grid

abbrev Cell := List String

def cell (s : String) : Cell := s.splitOn "\n"

def cells (g : Grid) : List (List Cell) := (g.header :: g.rows).map (·.map cell)

def cellWidth (c : Cell) : Nat := (c.map width).foldl max 0

def widen : List Nat → List Nat → List Nat
  | [], ws => ws
  | ws, [] => ws
  | v :: vs, w :: ws => max v w :: widen vs ws

def widths (rows : List (List Cell)) : List Nat := (rows.map (·.map cellWidth)).foldl widen []

def rule (left fill cross right : String) (ws : List Nat) : String :=
  left ++ String.intercalate cross (ws.map fun w => String.join (List.replicate (w + 2) fill)) ++ right

def lineOf (ws : List Nat) (row : List Cell) (i : Nat) : String :=
  "│" ++ String.intercalate "┆" ((row.zip ws).map fun (c, w) => " " ++ toWidth w (c.getD i "") ++ " ") ++ "│"

def rowLines (ws : List Nat) (row : List Cell) : List String :=
  (List.range ((row.map List.length).foldl max 0)).map (lineOf ws row)

def lines (g : Grid) : List String :=
  let ws := widths g.cells
  let body := g.cells.map (rowLines ws)
  [rule "┌" "─" "┬" "┐" ws] ++ body.headD [] ++ [rule "╞" "═" "╪" "╡" ws] ++ (body.drop 1).flatten ++
    [rule "└" "─" "┴" "┘" ws]

def text (g : Grid) : String := String.intercalate "\n" g.lines

end Grid

end Switchyard.Text
