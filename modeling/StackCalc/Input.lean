/-!
Lines of an input. The bytes that are left to read are a list, and a line takes its bytes from the
front of it.
-/
namespace StackCalc.Input

/-- The byte that ends a line. -/
def lineFeed : UInt8 := 10

/-- The first line with the line feed that ends it, if one does, and the bytes after it. -/
def splitLine (bytes : List UInt8) : List UInt8 × List UInt8 :=
  let after := bytes.dropWhile (· != lineFeed)
  (bytes.takeWhile (· != lineFeed) ++ after.take 1, after.drop 1)

theorem splitLine_append (bytes : List UInt8) :
    (splitLine bytes).1 ++ (splitLine bytes).2 = bytes := by
  simp only [splitLine, List.append_assoc, List.take_append_drop,
    List.takeWhile_append_dropWhile]

/-- There is no end of lines before the end of the bytes. -/
theorem length_splitLine_lt {bytes : List UInt8} (h : bytes ≠ []) :
    (splitLine bytes).2.length < bytes.length := by
  have hl := (List.dropWhile_sublist (l := bytes) (· != lineFeed)).length_le
  have hp := List.length_pos_iff.2 h
  simp only [splitLine, List.length_drop]
  omega

/-- All lines, in order. -/
def lines (bytes : List UInt8) : List (List UInt8) :=
  if _h : bytes = [] then []
  else (splitLine bytes).1 :: lines (splitLine bytes).2
termination_by bytes.length
decreasing_by exact length_splitLine_lt _h

end StackCalc.Input
