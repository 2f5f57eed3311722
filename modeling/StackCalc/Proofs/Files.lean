import Mathlib.Tactic.Common
import StackCalc.Files

/-!
What a file holds, told by the bytes behind its path.
-/
namespace StackCalc.FileReader

/-- The bytes behind the path are the text in UTF-8. -/
def Holds (read : FileReader) (path text : String) : Prop :=
  ∃ content, read path = .ok content ∧ String.fromUTF8? ⟨content.toArray⟩ = some text

/-- There is no text behind the path, for the given reason. -/
inductive Denies (read : FileReader) (path : String) : String → Prop where
  | unreadable {fault : IoFault} : read path = .error fault → Denies read path fault.message
  | undecodable {content : List UInt8} : read path = .ok content →
      String.fromUTF8? ⟨content.toArray⟩ = none →
      Denies read path "stream did not contain valid UTF-8"

section Text
variable {read read' : FileReader} {path text reason : String}

theorem readText_of_error {fault : IoFault} (h : read path = .error fault) :
    read.readText path = .error fault := by
  rw [readText, h]
  rfl

theorem readText_of_ok {content : List UInt8} (h : read path = .ok content) :
    read.readText path = match String.fromUTF8? ⟨content.toArray⟩ with
      | some text => .ok text
      | none => .error .invalidUtf8 := by
  rw [readText, h]
  rfl

theorem Holds.readText (h : read.Holds path text) : read.readText path = .ok text := by
  obtain ⟨content, hread, htext⟩ := h
  rw [readText_of_ok hread, htext]

theorem Denies.readText (h : read.Denies path reason) :
    ∃ fault : IoFault, read.readText path = .error fault ∧ fault.message = reason := by
  cases h with
  | unreadable hread => exact ⟨_, readText_of_error hread, rfl⟩
  | undecodable hread htext =>
    refine ⟨.invalidUtf8, ?_, rfl⟩
    rw [readText_of_ok hread, htext]

theorem Denies.not_holds (h : read.Denies path reason) : ¬ read.Holds path text := by
  intro htext
  obtain ⟨fault, hfault, -⟩ := h.readText
  cases htext.readText.symm.trans hfault

/-- A path has a text behind it, or there is a reason why not. -/
theorem holds_or_denies (read : FileReader) (path : String) :
    (∃ text, read.Holds path text) ∨ ∃ reason, read.Denies path reason := by
  cases hread : read path with
  | error fault => exact .inr ⟨_, .unreadable hread⟩
  | ok content =>
    cases htext : String.fromUTF8? ⟨content.toArray⟩ with
    | some text => exact .inl ⟨text, content, hread, htext⟩
    | none => exact .inr ⟨_, .undecodable hread htext⟩

/-- Only what is behind the path counts. -/
theorem Holds.congr (h : read.Holds path text) (hr : read' path = read path) :
    read'.Holds path text := by
  rwa [Holds, hr]

theorem Denies.congr (h : read.Denies path reason) (hr : read' path = read path) :
    read'.Denies path reason := by
  cases h with
  | unreadable hread => exact .unreadable (hr.trans hread)
  | undecodable hread htext => exact .undecodable (hr.trans hread) htext

end Text

end StackCalc.FileReader
