/-!
# Tables of fixed-width columns

Rows of cells between rules, each column as wide as its widest cell. Width is counted in
characters.
-/

namespace StorageAtlas.Text

/-- A heading for each column, and rows with a cell for each. -/
structure Table where
  headings : List String
  rows : List (List String)

namespace Table

/-- A cell filled up with blanks on the right. -/
def padded (width : Nat) (cell : String) : String :=
  cell ++ String.ofList (List.replicate (width - cell.length) ' ')

/-- The width of each column. -/
def widths (t : Table) : List Nat :=
  t.rows.foldl (fun ws row => List.zipWith (fun w cell => max w cell.length) ws row)
    (t.headings.map String.length)

def rule (widths : List Nat) : String :=
  "+" ++ String.intercalate "+" (widths.map fun w => String.ofList (List.replicate (w + 2) '-'))
    ++ "+"

def line (widths : List Nat) (cells : List String) : String :=
  "| " ++ String.intercalate " | " (List.zipWith padded widths cells) ++ " |"

/-- The lines of the table: the headings and the rows, set off by rules. -/
def lines (t : Table) : List String :=
  let ws := t.widths
  [rule ws, line ws t.headings, rule ws] ++ t.rows.map (line ws) ++ [rule ws]

def render (t : Table) : String := String.intercalate "\n" t.lines

end Table

end StorageAtlas.Text
