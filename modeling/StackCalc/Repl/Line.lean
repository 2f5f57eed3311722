import StackCalc.Input
import StackCalc.Repl.Editor
import StackCalc.Text.Cluster

/-!
Lines of an input that is no terminal, as a line editor hands them on. What is typed is read in
clusters, and a backspace takes back the cluster before it.
-/
namespace StackCalc.Repl

open Text

/-- The character that takes back what was typed before it. -/
def backspace : Char := '\x08'

/-- A line while it is typed. -/
structure Draft where
  /-- The last character comes first. -/
  text : List Char := []
  /-- For each cluster that can be taken back, the last one first, its length in bytes. One byte
  holds it, so that of a cluster of 256 bytes or more only the remainder can be taken back. -/
  sizes : List UInt8 := []

namespace Draft

/-- A text, its last character first, without the characters that lie within its last `size`
bytes. -/
def withoutLast (size : Nat) : List Char → List Char
  | [] => []
  | c :: rest => if c.utf8Size ≤ size then withoutLast (size - c.utf8Size) rest else c :: rest

/-- Takes back the last cluster, if there is one. -/
def takeBack (d : Draft) : Draft :=
  match d.sizes with
  | [] => d
  | size :: sizes => { text := withoutLast size.toNat d.text, sizes }

def append (d : Draft) (cluster : List Char) : Draft where
  text := cluster.reverse ++ d.text
  sizes := (String.ofList cluster).utf8ByteSize.toUInt8 :: d.sizes

def type (d : Draft) (cluster : List Char) : Draft :=
  if cluster = [backspace] then d.takeBack else d.append cluster

theorem text_foldl_type {typed : List (List Char)} (h : [backspace] ∉ typed) (d : Draft) :
    (typed.foldl type d).text = typed.flatten.reverse ++ d.text := by
  induction typed generalizing d with
  | nil => simp
  | cons cluster rest ih =>
    have hc : cluster ≠ [backspace] := fun e => h (e ▸ List.mem_cons_self)
    have hr : [backspace] ∉ rest := fun m => h (List.mem_cons_of_mem cluster m)
    simp [ih hr, type, hc, append]

end Draft

/-- What is left of a typed text once every backspace has had its effect. -/
def kept (typed : List Char) : List Char :=
  ((clusters typed).foldl Draft.type {}).text.reverse

/-- A text without backspaces is kept as it is. -/
theorem kept_eq_self {typed : List Char} (h : backspace ∉ typed) : kept typed = typed := by
  have hc : [backspace] ∉ clusters typed := by
    intro hm
    apply h
    rw [← flatten_clusters typed]
    exact List.mem_flatten.2 ⟨[backspace], hm, List.mem_singleton.2 rfl⟩
  simp [kept, Draft.text_foldl_type hc, flatten_clusters]

/-- A typed line without the characters that end it. -/
def withoutEnd (typed : List Char) : List Char :=
  match typed.reverse with
  | '\n' :: '\r' :: rest | '\n' :: rest => rest.reverse
  | _ => typed

theorem exists_withoutEnd (typed : List Char) : ∃ ending ∈ ["", "\n", "\r\n"],
    withoutEnd typed ++ ending.toList = typed := by
  rw [withoutEnd]
  split
  next rest h =>
    refine ⟨"\r\n", by simp, ?_⟩
    rw [← List.reverse_inj, h]
    simp
  next rest _ h =>
    refine ⟨"\n", by simp, ?_⟩
    rw [← List.reverse_inj, h]
    simp
  next => exact ⟨"", by simp, by simp⟩

/-- What the editor says of bytes that are no text. -/
def invalidInput : String :=
  "Io(Error \x7b kind: InvalidData, message: \"stream did not contain valid UTF-8\" \x7d)"

/-- The editor of lines that are not typed at a terminal. -/
def Editor.direct : Editor where
  next pending :=
    if pending = [] then .endOfInput
    else
      match String.fromUTF8? ⟨(Input.splitLine pending).1.toArray⟩ with
      | some typed =>
        .line (String.ofList (kept (withoutEnd typed.toList))) (Input.splitLine pending).2
      | none => .failed invalidInput
  progress {pending rest} h := by
    by_cases hne : pending = []
    · rw [if_pos hne] at h
      cases h
    · rw [if_neg hne] at h
      split at h
      · cases h
        exact Input.length_splitLine_lt hne
      · cases h

end StackCalc.Repl
