/-!
Buffered output: text is written piece by piece, and passed on when the buffer is full. What still
waits when a program gives up is lost. Main statement: `passed_append_waiting`, nothing is lost or
moved as long as the program goes on.
-/

namespace Shaping.CommandLine

/-- Text on its way out. -/
structure Outlet where
  passed : String := ""
  waiting : String := ""
deriving DecidableEq, Repr

namespace Outlet

/-- The number of bytes that the buffer holds. -/
def capacity : Nat := 8192

/-- Writes a piece. If it does not fit behind what waits, that is passed on first, and a piece as
large as the buffer is passed on with it. -/
def write (o : Outlet) (piece : String) : Outlet :=
  if capacity ≤ piece.utf8ByteSize then ⟨o.passed ++ o.waiting ++ piece, ""⟩
  else if o.waiting.utf8ByteSize + piece.utf8ByteSize ≤ capacity then
    ⟨o.passed, o.waiting ++ piece⟩
  else ⟨o.passed ++ o.waiting, piece⟩

def ofPieces (pieces : List String) : Outlet := pieces.foldl write {}

theorem write_passed_append_waiting (o : Outlet) (piece : String) :
    (o.write piece).passed ++ (o.write piece).waiting = o.passed ++ o.waiting ++ piece := by
  unfold write
  split
  · simp
  · split <;> simp [String.append_assoc]

theorem foldl_write (pieces : List String) (o : Outlet) :
    (pieces.foldl write o).passed ++ (pieces.foldl write o).waiting =
      pieces.foldl (· ++ ·) (o.passed ++ o.waiting) := by
  induction pieces generalizing o with
  | nil => rfl
  | cons piece rest ih => rw [List.foldl_cons, List.foldl_cons, ih, write_passed_append_waiting]

theorem passed_append_waiting (pieces : List String) :
    (ofPieces pieces).passed ++ (ofPieces pieces).waiting = String.join pieces :=
  foldl_write pieces {}

end Outlet

end Shaping.CommandLine
