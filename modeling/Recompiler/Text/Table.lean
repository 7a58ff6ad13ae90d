import Recompiler.Text.Number

/-!
Tables of text between lines. Each column is as wide as its widest cell, with a blank on either
side.
-/

namespace Recompiler.Text

/-- `s` in the middle of `width` characters. An odd blank goes to the right. -/
def centre (width : Nat) (s : String) : String :=
  padRight ' ' width (padLeft ' ' (s.length + (width - s.length) / 2) s)

/-- The width of each column of the rows. -/
def columnWidths (rows : List (List String)) : List Nat :=
  rows.foldl (fun ws row => ws.zipWith (fun w s => max w s.length) row)
    ((rows.headD []).map String.length)

/-- The line above, between and below the rows. -/
def ruleLine (widths : List Nat) : String :=
  "+" ++ String.join (widths.map fun w => String.ofList (List.replicate (w + 2) '-') ++ "+")

/-- A row whose cells are placed in their columns by `place`. -/
def rowLine (place : Nat → String → String) (widths : List Nat) (row : List String) : String :=
  "|" ++ String.join (widths.zipWith (fun w s => " " ++ place w s ++ " |") row)

/-- The header centred and in upper case, and the rows from the left. -/
def table (header : List String) (rows : List (List String)) : List String :=
  let header := header.map String.toUpper
  let widths := columnWidths (header :: rows)
  [ruleLine widths, rowLine centre widths header, ruleLine widths]
    ++ rows.map (rowLine (padRight ' ') widths) ++ [ruleLine widths]

end Recompiler.Text
