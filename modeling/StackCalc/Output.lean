import StackCalc.Fault

/-!
The stream that programs print to: a growing sequence of bytes that may be limited in all, and that
may refuse to be flushed.
-/
namespace StackCalc

structure Output where
  written : Array UInt8 := #[]
  /-- The number of bytes that the stream accepts in all. -/
  capacity : Option Nat := none
  refusesFlush : Bool := false
  /-- Whether the stream swallows everything without keeping it. -/
  discards : Bool := false

namespace Output

instance : Inhabited Output := ⟨{}⟩

/-- The bytes of a text in UTF-8. -/
def bytes (text : String) : List UInt8 :=
  text.toUTF8.data.toList

/-- Writes what still fits, and fails if that is not all. -/
def write (text : String) : EStateM IoFault Output Unit := fun out =>
  if out.discards then .ok () out
  else
    let content := bytes text
    match out.capacity with
    | none => .ok () { out with written := out.written ++ content }
    | some limit =>
      let room := limit - out.written.size
      if content.length ≤ room then .ok () { out with written := out.written ++ content }
      else .error .outputFull { out with written := out.written ++ content.take room }

def flush : EStateM IoFault Output Unit := fun out =>
  if out.refusesFlush then .error .flushRefused out else .ok () out

/-- Writes a line and hands it on at once. -/
def writeLine (text : String) : EStateM IoFault Output Unit := do
  write (text ++ "\n")
  flush

end Output

end StackCalc
