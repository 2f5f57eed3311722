import StackCalc.Fault
import StackCalc.Token

/-!
Nesting of brackets in a list of tokens: the check that every bracket has its partner, and the split
of a list at the partner of a bracket.
-/
namespace StackCalc.Token

open Text

/-- Reads on with the brackets in `opened` still to be closed, the innermost first. -/
def checkNestingFrom : List (Bracket × Position) → List Token → Except ParseFault Unit
  | [], [] => .ok ()
  | (opener, position) :: _, [] => .error (.unclosed opener position)
  | opened, token :: rest =>
    match token.kind with
    | .opener bracket => checkNestingFrom ((bracket, token.position) :: opened) rest
    | .closer bracket =>
      match opened with
      | [] => .error (.unexpectedCloser bracket token.position)
      | (opener, position) :: outer =>
        if opener = bracket then checkNestingFrom outer rest
        else .error (.mismatch bracket token.position opener position)
    | _ => checkNestingFrom opened rest

/-- Fails at the first closing bracket without a partner of its kind, or else at the innermost
bracket that stays open. -/
def checkNesting (tokens : List Token) : Except ParseFault Unit :=
  checkNestingFrom [] tokens

/-- Splits at the closing bracket that ends the enclosing one when `depth` further ones are open,
and drops it. The kinds of brackets do not matter here: they have been checked. -/
def splitAtCloser (depth : Nat) : List Token → Option (List Token × List Token)
  | [] => none
  | token :: rest =>
    match token.kind with
    | .opener _ => (splitAtCloser (depth + 1) rest).map fun (body, after) => (token :: body, after)
    | .closer _ =>
      match depth with
      | 0 => some ([], rest)
      | outer + 1 => (splitAtCloser outer rest).map fun (body, after) => (token :: body, after)
    | _ => (splitAtCloser depth rest).map fun (body, after) => (token :: body, after)

theorem length_of_splitAtCloser {depth : Nat} {tokens body after : List Token}
    (h : splitAtCloser depth tokens = some (body, after)) :
    body.length + after.length < tokens.length := by
  induction tokens generalizing depth body after with
  | nil => simp [splitAtCloser] at h
  | cons token rest ih =>
    unfold splitAtCloser at h
    split at h
    · obtain ⟨⟨b, a⟩, hs, he⟩ := Option.map_eq_some_iff.1 h
      have := ih hs
      grind
    · split at h
      · grind
      · obtain ⟨⟨b, a⟩, hs, he⟩ := Option.map_eq_some_iff.1 h
        have := ih hs
        grind
    · obtain ⟨⟨b, a⟩, hs, he⟩ := Option.map_eq_some_iff.1 h
      have := ih hs
      grind

end StackCalc.Token
