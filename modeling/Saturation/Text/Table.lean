/-!
Tables framed by lines with rounded corners. Cells are aligned to the left with a blank on each
side, and a line divides the heading from the rows.
-/

set_option autoImplicit false

namespace Saturation.Text.Table

/-- The widths of columns: of each, the longest cell in it. -/
def widths : List (List String) → List Nat
  | [] => []
  | [row] => row.map String.length
  | row :: rows => List.zipWith max (row.map String.length) (widths rows)

def cell (width : Nat) (text : String) : String :=
  " " ++ text ++ "".pushn ' ' (width - text.length) ++ " "

def line (ws : List Nat) (row : List String) : String :=
  "│" ++ "│".intercalate (List.zipWith cell ws row) ++ "│"

/-- A line of the frame. -/
def rule (left cross right : String) (ws : List Nat) : String :=
  left ++ cross.intercalate (ws.map fun w => "".pushn '─' (w + 2)) ++ right

/-- A table with a heading, without a line feed at its end. -/
def render (heading : List String) (rows : List (List String)) : String :=
  let ws := widths (heading :: rows)
  "\n".intercalate
    ([rule "╭" "┬" "╮" ws, line ws heading, rule "├" "┼" "┤" ws] ++ rows.map (line ws) ++
      [rule "╰" "┴" "╯" ws])

end Saturation.Text.Table
