import StackCalc.Proofs.Outcome

/-!
The values that words take off the stack as their operands, and what is left of it.
-/
namespace StackCalc

namespace Stack
variable {s t : Stack} {value : Value} {body : List Token} {items : List Value}

/-- The stack without its topmost `count` values, of which a watch has learnt. -/
def dropped (count : Nat) (s : Stack) : Stack where
  values := s.values.drop count
  height := s.height - count
  mark := min s.mark (s.height - count)
  height_eq := by rw [List.length_drop, s.height_eq]

@[simp] theorem values_dropped (count : Nat) (s : Stack) :
    (s.dropped count).values = s.values.drop count := rfl

@[simp] theorem height_dropped (count : Nat) (s : Stack) :
    (s.dropped count).height = s.height - count := rfl

@[simp] theorem mark_dropped (count : Nat) (s : Stack) :
    (s.dropped count).mark = min s.mark (s.height - count) := rfl

theorem dropped_dropped (m n : Nat) (s : Stack) :
    (s.dropped m).dropped n = s.dropped (m + n) := by
  apply Stack.ext
  · simp only [values_dropped, List.drop_drop]
  · simp only [mark_dropped, height_dropped]
    omega

theorem require_eq_ok {needed : Nat} {a : Unit} :
    require needed s = .ok a t ↔ needed ≤ s.height ∧ t = s := by
  rw [require]
  split
  next h =>
    constructor
    · intro ht
      cases ht
    · rintro ⟨hn, -⟩
      exact absurd h (Nat.not_lt.2 hn)
  next h =>
    constructor
    · intro ht
      cases ht
      exact ⟨Nat.le_of_not_lt h, rfl⟩
    · rintro ⟨-, rfl⟩
      rfl

theorem pop_eq_ok : pop s = .ok value t ↔ ∃ rest, s.values = value :: rest ∧ t = s.dropped 1 := by
  cases hs : s.values with
  | nil =>
    rw [pop_of_nil hs]
    simp
  | cons top rest =>
    obtain ⟨u, hp, hv, hm⟩ := pop_of_cons hs
    have hh := s.height_eq
    rw [hs, List.length_cons] at hh
    have hu : u = s.dropped 1 := by
      apply Stack.ext
      · rw [hv, values_dropped, hs, List.drop_succ_cons, List.drop_zero]
      · rw [hm, mark_dropped, hh, Nat.add_sub_cancel]
    rw [hp, hu]
    constructor
    · intro h
      cases h
      exact ⟨rest, rfl, rfl⟩
    · rintro ⟨_, ⟨⟩, rfl⟩
      rfl

theorem popQuotation_eq_ok :
    popQuotation s = .ok body t ↔ pop s = .ok (.quotation body) t := by
  rw [popQuotation, bind_eq_ok]
  constructor
  · rintro ⟨value, u, hp, h⟩
    cases value <;> cases h
    exact hp
  · intro hp
    exact ⟨_, _, hp, rfl⟩

theorem popSequence_eq_ok : popSequence s = .ok items t ↔ pop s = .ok (.sequence items) t := by
  rw [popSequence, bind_eq_ok]
  constructor
  · rintro ⟨value, u, hp, h⟩
    cases value <;> cases h
    exact hp
  · intro hp
    exact ⟨_, _, hp, rfl⟩

theorem popSequenceBody_eq_ok :
    popSequenceBody s = .ok (items, body) t ↔
      ∃ below, s.values = .quotation body :: .sequence items :: below ∧ t = s.dropped 2 := by
  rw [popSequenceBody]
  simp only [bind_eq_ok, require_eq_ok, popQuotation_eq_ok, popSequence_eq_ok, pop_eq_ok]
  constructor
  · rintro ⟨_, _, ⟨_, rfl⟩, _, _, ⟨rest, hs, rfl⟩, _, _, ⟨below, hr, rfl⟩, ⟨⟩⟩
    rw [values_dropped, hs, List.drop_succ_cons, List.drop_zero] at hr
    rw [dropped_dropped]
    exact ⟨below, hs.trans (congrArg _ hr), rfl⟩
  · rintro ⟨below, hs, rfl⟩
    have hh := s.height_eq
    rw [hs, List.length_cons, List.length_cons] at hh
    refine ⟨(), s, ⟨by omega, rfl⟩, body, s.dropped 1, ⟨_, hs, rfl⟩, items, s.dropped 2, ?_, rfl⟩
    refine ⟨below, ?_, (dropped_dropped 1 1 s).symm⟩
    rw [values_dropped, hs, List.drop_succ_cons, List.drop_zero]

theorem popSequenceStartBody_eq_ok {start : Value} :
    popSequenceStartBody s = .ok (items, start, body) t ↔
      ∃ below, s.values = .quotation body :: start :: .sequence items :: below ∧
        t = s.dropped 3 := by
  rw [popSequenceStartBody]
  simp only [bind_eq_ok, require_eq_ok, popQuotation_eq_ok, popSequence_eq_ok, pop_eq_ok]
  constructor
  · rintro ⟨_, _, ⟨_, rfl⟩, _, _, ⟨rest, hs, rfl⟩, _, _, ⟨rest', hr, rfl⟩, _, _, ⟨below, hb, rfl⟩,
      ⟨⟩⟩
    rw [values_dropped, hs, List.drop_succ_cons, List.drop_zero] at hr
    rw [values_dropped, values_dropped, hs, hr] at hb
    rw [dropped_dropped, dropped_dropped]
    refine ⟨below, ?_, rfl⟩
    rw [hs, hr, ← hb]
    rfl
  · rintro ⟨below, hs, rfl⟩
    have hh := s.height_eq
    rw [hs, List.length_cons, List.length_cons, List.length_cons] at hh
    refine ⟨(), s, ⟨by omega, rfl⟩, body, s.dropped 1, ⟨_, hs, rfl⟩, start, s.dropped 2, ?_, items,
      s.dropped 3, ?_, rfl⟩
    · refine ⟨.sequence items :: below, ?_, (dropped_dropped 1 1 s).symm⟩
      rw [values_dropped, hs, List.drop_succ_cons, List.drop_zero]
    · refine ⟨below, ?_, (dropped_dropped 2 1 s).symm⟩
      rw [values_dropped, hs]
      rfl

end Stack

end StackCalc
