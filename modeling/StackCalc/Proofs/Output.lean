import StackCalc.Proofs.Outcome

/-!
Streams that go on alike: two streams that accept the same bytes from here on, whatever has been
written to them before.
-/
namespace StackCalc

namespace Output

/-- The number of bytes that a limited stream still accepts. -/
def room? (out : Output) : Option Nat :=
  out.capacity.map (· - out.written.size)

/-- The stream after `content` has been written to it. -/
def after (out : Output) (content : List UInt8) : Output :=
  { out with written := out.written ++ content }

/-- The two streams treat what is written from now on in the same way. -/
structure Alike (out out' : Output) : Prop where
  discards : out'.discards = out.discards
  refusesFlush : out'.refusesFlush = out.refusesFlush
  room : out'.room? = out.room?

theorem Alike.refl (out : Output) : out.Alike out := ⟨rfl, rfl, rfl⟩

theorem after_nil (out : Output) : out.after [] = out := by
  simp [after]

theorem after_after (out : Output) (b c : List UInt8) :
    (out.after b).after c = out.after (b ++ c) := by
  simp only [after]
  congr 1
  apply Array.ext'
  simp

theorem Alike.after {out out' : Output} (h : out.Alike out') (b : List UInt8) :
    (out.after b).Alike (out'.after b) := by
  refine ⟨h.discards, h.refusesFlush, ?_⟩
  have hr := h.room
  cases hc : out.capacity <;> cases hc' : out'.capacity <;>
    simp_all [room?, Output.after, ← Array.length_toList]
  omega

/-- A line goes in or fails in the same way, and the same bytes of it are kept. -/
theorem Alike.writeLine {out out' : Output} (h : out.Alike out') (text : String) :
    ∃ c, (Output.writeLine text out = .ok () (out.after c) ∧
        Output.writeLine text out' = .ok () (out'.after c)) ∨
      ∃ fault, Output.writeLine text out = .error fault (out.after c) ∧
        Output.writeLine text out' = .error fault (out'.after c) := by
  have hflush (c : List UInt8) : (flush (out.after c) = .ok () (out.after c) ∧
        flush (out'.after c) = .ok () (out'.after c)) ∨
      (flush (out.after c) = .error .flushRefused (out.after c) ∧
        flush (out'.after c) = .error .flushRefused (out'.after c)) := by
    by_cases hf : out.refusesFlush <;> simp [flush, Output.after, h.refusesFlush, hf]
  have hwrite : ∃ c, (write (text ++ "\n") out = .ok () (out.after c) ∧
        write (text ++ "\n") out' = .ok () (out'.after c)) ∨
      (write (text ++ "\n") out = .error .outputFull (out.after c) ∧
        write (text ++ "\n") out' = .error .outputFull (out'.after c)) := by
    by_cases hd : out.discards
    · exact ⟨[], .inl (by simp [write, h.discards, hd, after_nil])⟩
    · have hr := h.room
      cases hc : out.capacity with
      | none =>
        have hc' : out'.capacity = none := by simpa [room?, hc] using hr
        exact ⟨bytes (text ++ "\n"), .inl (by simp [write, h.discards, hd, hc, hc', Output.after])⟩
      | some limit =>
        obtain ⟨limit', hc', hl⟩ : ∃ limit', out'.capacity = some limit' ∧
            limit' - out'.written.size = limit - out.written.size := by
          simpa [room?, hc] using hr
        by_cases hfit : (bytes (text ++ "\n")).length ≤ limit - out.written.size
        · exact ⟨bytes (text ++ "\n"),
            .inl (by simp [write, h.discards, hd, hc, hc', hl, hfit, Output.after])⟩
        · exact ⟨(bytes (text ++ "\n")).take (limit - out.written.size),
            .inr (by simp [write, h.discards, hd, hc, hc', hl, hfit, Output.after])⟩
  obtain ⟨c, hw | hw⟩ := hwrite
  · refine ⟨c, (hflush c).imp ?_ ?_⟩
    · rintro ⟨hf, hf'⟩
      exact ⟨(bind_of_ok hw.1).trans hf, (bind_of_ok hw.2).trans hf'⟩
    · rintro ⟨hf, hf'⟩
      exact ⟨.flushRefused, (bind_of_ok hw.1).trans hf, (bind_of_ok hw.2).trans hf'⟩
  · exact ⟨c, .inr ⟨.outputFull, bind_of_error hw.1, bind_of_error hw.2⟩⟩

end Output

end StackCalc
