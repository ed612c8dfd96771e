import PropertyPath.Graph.Query

/-!
# Solutions as a table

The columns of a table are the variables of some patterns in order of first appearance. A row shows
the value of each column, or nothing for a variable without a value. Rows are compared column by
column, by code points.
-/
namespace PropertyPath

namespace Bindings

def row (columns : List Variable) (b : Bindings) : List String :=
  columns.map fun v => ((b.get? v).map Term.text).getD ""

/-- Whether a row does not come after another: the first column in which they differ decides. -/
def rowPrecedes : List String → List String → Bool
  | [], _ => true
  | _ :: _, [] => false
  | x :: xs, y :: ys => if x = y then rowPrecedes xs ys else decide (x < y)

/-- Solutions by ascending rows; repeated rows are kept. -/
def sortByRow (columns : List Variable) (bs : List Bindings) : List Bindings :=
  bs.mergeSort fun b c => rowPrecedes (b.row columns) (c.row columns)

end Bindings

end PropertyPath
