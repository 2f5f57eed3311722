/-!
Sets of characters as ranges of code points. The ranges of a set ascend, so that a search stops at
the first one that starts above the code point; it finds what a search of all ranges finds.
-/
namespace StackCalc.Text

/-- Whether a code point lies in one of the ranges, whose ends belong to them. -/
def inRanges : List (Nat × Nat) → Nat → Bool
  | [], _ => false
  | (first, last) :: rest, n => first ≤ n && (n ≤ last || inRanges rest n)

/-- No range is empty, and the next one starts above its end. -/
def ascending : List (Nat × Nat) → Bool
  | [] => true
  | (first, last) :: rest => first ≤ last && rest.head?.all (last < ·.1) && ascending rest

theorem lt_of_ascending {first last : Nat} {rest : List (Nat × Nat)}
    (h : ascending ((first, last) :: rest) = true) : ∀ range ∈ rest, last < range.1 := by
  induction rest generalizing first last with
  | nil => simp
  | cons range rest ih =>
    simp only [ascending, List.head?_cons, Option.all_some, Bool.and_eq_true,
      decide_eq_true_eq] at h
    obtain ⟨⟨-, hlt⟩, ⟨hle, hnext⟩, hrest⟩ := h
    intro r hr
    rcases List.mem_cons.1 hr with rfl | hr
    · exact hlt
    · have hfrom : ascending ((range.1, range.2) :: rest) = true := by
        simp [ascending, hle, hnext, hrest]
      have := ih hfrom r hr
      omega

/-- Stopping early misses no range. -/
theorem inRanges_iff {ranges : List (Nat × Nat)} (h : ascending ranges = true) (n : Nat) :
    inRanges ranges n = true ↔ ∃ range ∈ ranges, range.1 ≤ n ∧ n ≤ range.2 := by
  induction ranges with
  | nil => simp [inRanges]
  | cons range rest ih =>
    obtain ⟨first, last⟩ := range
    have hlt := lt_of_ascending h
    simp only [ascending, Bool.and_eq_true, decide_eq_true_eq] at h
    obtain ⟨⟨hle, -⟩, hrest⟩ := h
    simp only [inRanges, Bool.and_eq_true, Bool.or_eq_true, decide_eq_true_eq, ih hrest,
      List.mem_cons, exists_eq_or_imp]
    constructor
    · rintro ⟨hfirst, hlast | hr⟩
      · exact Or.inl ⟨hfirst, hlast⟩
      · exact Or.inr hr
    · rintro (⟨hfirst, hlast⟩ | ⟨r, hr, hn⟩)
      · exact ⟨hfirst, Or.inl hlast⟩
      · have := hlt r hr
        exact ⟨by omega, Or.inr ⟨r, hr, hn⟩⟩

end StackCalc.Text
