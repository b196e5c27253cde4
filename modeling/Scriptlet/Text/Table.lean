import Scriptlet.Text.Width

/-!
# Tables

A table is drawn with box characters. Columns are as wide as their widest cell, headings included,
and cells are filled up with spaces.
-/

namespace Scriptlet

namespace Table

/-- The greater of two widths, column by column. -/
def widen : List Nat → List Text → List Nat
  | n :: ns, c :: cs => max n c.width :: widen ns cs
  | ns, _ => ns

/-- The widths of the columns. -/
def widths (headings : List Text) (rows : List (List Text)) : List Nat :=
  rows.foldl widen (headings.map Text.width)

/-- A line across all columns. -/
def rule (left cross right : Text) (ns : List Nat) : Text :=
  left ++ Text.join cross (ns.map fun n => (List.replicate n ("─" : Text)).flatten) ++ right

/-- A row of cells. -/
def row (ns : List Nat) (cells : List Text) : Text :=
  "│" ++ Text.join "│" (List.zipWith Text.padTo ns cells) ++ "│"

/-- The table, without a line end behind it. -/
def render (headings : List Text) (rows : List (List Text)) : Text :=
  let ns := widths headings rows
  Text.join [Text.newline]
    ([rule "┌" "┬" "┐" ns, row ns headings, rule "├" "┼" "┤" ns]
      ++ rows.map (row ns) ++ [rule "└" "┴" "┘" ns])

end Table

end Scriptlet
