import StackCalc.Token.Nesting

/-!
Properly nested tokens: every bracket has a partner of its own kind, and no two pairs cross. The
check accepts exactly these, and its complaint about others names the first closing bracket that
closes nothing or the wrong bracket, or else the innermost bracket that is never closed.
-/
namespace StackCalc.Token

open Text

def Kind.isBracket : Kind → Bool
  | .opener _ | .closer _ => true
  | _ => false

theorem plain_or_bracket (token : Token) : token.kind.isBracket = false ∨
    (∃ bracket p, token = ⟨.opener bracket, p⟩) ∨ ∃ bracket p, token = ⟨.closer bracket, p⟩ := by
  obtain ⟨kind, p⟩ := token
  cases kind with
  | opener bracket => exact .inr (.inl ⟨bracket, p, rfl⟩)
  | closer bracket => exact .inr (.inr ⟨bracket, p, rfl⟩)
  | _ => exact .inl rfl

/-- Properly nested tokens. What is no bracket may stand anywhere. -/
inductive Nested : List Token → Prop
  | nil : Nested []
  | plain {token : Token} {rest : List Token} :
      token.kind.isBracket = false → Nested rest → Nested (token :: rest)
  | enclosed {bracket : Bracket} {p q : Position} {inner rest : List Token} :
      Nested inner → Nested rest →
        Nested (⟨.opener bracket, p⟩ :: (inner ++ ⟨.closer bracket, q⟩ :: rest))

theorem Nested.append {tokens rest : List Token} (h : Nested tokens) (hr : Nested rest) :
    Nested (tokens ++ rest) := by
  induction h with
  | nil => exact hr
  | plain hk _ ih => exact .plain hk ih
  | enclosed hi _ _ ih =>
    rw [List.cons_append, List.append_assoc, List.cons_append]
    exact .enclosed hi ih

section Check
variable {opened outer : List (Bracket × Position)} {token : Token} {tokens rest : List Token}

theorem checkNestingFrom_plain (h : token.kind.isBracket = false) :
    checkNestingFrom opened (token :: rest) = checkNestingFrom opened rest := by
  obtain ⟨kind, position⟩ := token
  cases kind with
  | opener bracket => cases h
  | closer bracket => cases h
  | _ => cases opened <;> rfl

theorem checkNestingFrom_opener (bracket : Bracket) (p : Position) :
    checkNestingFrom opened (⟨.opener bracket, p⟩ :: rest) =
      checkNestingFrom ((bracket, p) :: opened) rest := by
  cases opened <;> rfl

theorem checkNestingFrom_closer (bracket : Bracket) (p q : Position) :
    checkNestingFrom ((bracket, p) :: outer) (⟨.closer bracket, q⟩ :: rest) =
      checkNestingFrom outer rest := by
  simp only [checkNestingFrom, if_true]

/-- Properly nested tokens leave the open brackets as they were. -/
theorem checkNestingFrom_append (h : Nested tokens) (opened : List (Bracket × Position))
    (rest : List Token) :
    checkNestingFrom opened (tokens ++ rest) = checkNestingFrom opened rest := by
  induction h generalizing opened rest with
  | nil => rfl
  | plain hk _ ih => rw [List.cons_append, checkNestingFrom_plain hk, ih]
  | @enclosed bracket p q inner after _ _ ihi iha =>
    rw [List.cons_append, List.append_assoc, List.cons_append]
    rw [checkNestingFrom_opener, ihi, checkNestingFrom_closer, iha]

end Check

/-- The tokens close all the open brackets, from the innermost on, and are properly nested
besides. -/
def Closes : List (Bracket × Position) → List Token → Prop
  | [], tokens => Nested tokens
  | (bracket, _) :: outer, tokens => ∃ inner q after,
      tokens = inner ++ ⟨.closer bracket, q⟩ :: after ∧ Nested inner ∧ Closes outer after

/-- A properly nested beginning becomes part of what precedes the first closing bracket. -/
theorem Closes.append {opened : List (Bracket × Position)} {tokens rest : List Token}
    (h : Closes opened rest) (ht : Nested tokens) : Closes opened (tokens ++ rest) := by
  cases opened with
  | nil => exact ht.append h
  | cons last outer =>
    obtain ⟨inner, q, after, rfl, hi, ha⟩ := h
    exact ⟨tokens ++ inner, q, after, by rw [List.append_assoc], ht.append hi, ha⟩

theorem closes_of_checkNestingFrom {opened : List (Bracket × Position)} {tokens : List Token}
    (h : checkNestingFrom opened tokens = .ok ()) : Closes opened tokens := by
  -- on the tokens, for any brackets that are open before them
  induction tokens generalizing opened with
  | nil =>
    cases opened with
    | nil => exact .nil
    | cons last outer => cases h
  | cons token rest ih =>
    rcases token.plain_or_bracket with hk | ⟨bracket, position, rfl⟩ | ⟨bracket, position, rfl⟩
    · rw [checkNestingFrom_plain hk] at h
      exact (ih h).append (.plain hk .nil)
    · rw [checkNestingFrom_opener] at h
      -- the new bracket is closed first, and with what closes it makes a pair
      obtain ⟨inner, q, after, rfl, hi, ha⟩ := ih h
      have hpair : Nested (⟨.opener bracket, position⟩ :: (inner ++ [⟨.closer bracket, q⟩])) :=
        .enclosed hi .nil
      have hc := ha.append hpair
      rwa [List.cons_append, List.append_assoc] at hc
    · cases opened with
      | nil => cases h
      | cons last outer =>
        obtain ⟨opener, p⟩ := last
        simp only [checkNestingFrom] at h
        split at h
        next hb =>
          subst hb
          exact ⟨[], position, rest, rfl, .nil, ih h⟩
        next => cases h

theorem checkNesting_eq_ok_iff {tokens : List Token} :
    checkNesting tokens = .ok () ↔ Nested tokens := by
  constructor
  · intro h
    have hc : Closes [] tokens := closes_of_checkNestingFrom h
    exact hc
  · intro h
    have ha := checkNestingFrom_append h [] []
    rwa [List.append_nil] at ha

/-- Tokens that close all the brackets in `opened` are split off in front of a further closing
bracket. -/
theorem splitAtCloser_append_of_checkNestingFrom {opened : List (Bracket × Position)}
    {tokens : List Token} (h : checkNestingFrom opened tokens = .ok ()) (bracket : Bracket)
    (position : Position) (after : List Token) :
    splitAtCloser opened.length (tokens ++ ⟨.closer bracket, position⟩ :: after) =
      some (tokens, after) := by
  -- the split counts the brackets that the check keeps
  induction tokens generalizing opened with
  | nil =>
    cases opened with
    | nil => rfl
    | cons opener outer => cases h
  | cons token rest ih =>
    obtain ⟨kind, place⟩ := token
    cases kind with
    | opener bracket' =>
      simp only [checkNestingFrom] at h
      simp only [List.cons_append, splitAtCloser]
      have hi := ih h
      rw [List.length_cons] at hi
      rw [hi, Option.map_some]
    | closer bracket' =>
      cases opened with
      | nil => cases h
      | cons opener outer =>
        simp only [checkNestingFrom] at h
        split at h
        · simp only [List.cons_append, List.length_cons, splitAtCloser, ih h, Option.map_some]
        · cases h
    | _ =>
      simp only [checkNestingFrom] at h
      simp only [List.cons_append, splitAtCloser, ih h, Option.map_some]

theorem Nested.splitAtCloser_append {tokens : List Token} (h : Nested tokens) (bracket : Bracket)
    (position : Position) (after : List Token) :
    splitAtCloser 0 (tokens ++ ⟨.closer bracket, position⟩ :: after) = some (tokens, after) :=
  splitAtCloser_append_of_checkNestingFrom (checkNesting_eq_ok_iff.2 h) bracket position after

section Inversion
variable {bracket : Bracket} {p : Position} {token : Token} {rest : List Token}

theorem Nested.of_plain (h : Nested (token :: rest)) (hk : token.kind.isBracket = false) :
    Nested rest := by
  cases h with
  | plain _ hr => exact hr
  | enclosed _ _ => cases hk

theorem Nested.not_closer : ¬ Nested (⟨.closer bracket, p⟩ :: rest) := by
  intro h
  cases h with
  | plain hk _ => cases hk

/-- The split at the partner of an opening bracket succeeds, and both parts are properly nested. -/
theorem Nested.splitAtCloser (h : Nested (⟨.opener bracket, p⟩ :: rest)) :
    ∃ body q after, rest = body ++ ⟨.closer bracket, q⟩ :: after ∧ Nested body ∧ Nested after ∧
      splitAtCloser 0 rest = some (body, after) := by
  cases h with
  | plain hk _ => cases hk
  | @enclosed _ _ q body after hb ha =>
    exact ⟨body, q, after, rfl, hb, ha, hb.splitAtCloser_append bracket q after⟩

end Inversion

/-! What the check complains about. -/

/-- After `tokens` exactly the given brackets are still open, the innermost first. -/
def LeavesOpen : List (Bracket × Position) → List Token → Prop
  | [], tokens => Nested tokens
  | (bracket, p) :: opened, tokens => ∃ outer inner,
      tokens = outer ++ ⟨.opener bracket, p⟩ :: inner ∧ Nested inner ∧ LeavesOpen opened outer

theorem LeavesOpen.append {opened : List (Bracket × Position)} {tokens rest : List Token}
    (h : LeavesOpen opened tokens) (hr : Nested rest) : LeavesOpen opened (tokens ++ rest) := by
  cases opened with
  | nil => exact Nested.append h hr
  | cons last opened =>
    obtain ⟨outer, inner, rfl, hi, ho⟩ := h
    exact ⟨outer, inner ++ rest, by rw [List.append_assoc, List.cons_append], hi.append hr, ho⟩

end StackCalc.Token
