import StackCalc.Proofs.Nesting
import StackCalc.Proofs.Pieces
import StackCalc.Token.Tokenize

/-!
The grammar of source texts. Each piece of a text is one token, a quote mark alone is none, and the
brackets have to be properly nested; nothing else makes a text unreadable.
-/
namespace StackCalc

namespace Token

/-- The token that a piece is. A name behind a quote mark is quoted, and what reads as a decimal
literal is a number. -/
def Piece.kind (p : Piece) : Kind :=
  match p.content with
  | ['{'] => .opener .brace
  | ['}'] => .closer .brace
  | ['['] => .opener .square
  | [']'] => .closer .square
  | ',' :: name => .quoted (String.ofList name)
  | text =>
    match Literal.read? text with
    | some value => .number value
    | none => .word (String.ofList text)

def Piece.token (p : Piece) : Token :=
  ⟨p.kind, placeAfter p.before⟩

/-- A quote mark without a name. -/
def Piece.IsLone (p : Piece) : Prop :=
  p.content = [quoteMark]

instance : DecidablePred Piece.IsLone :=
  fun p => inferInstanceAs (Decidable (p.content = [quoteMark]))

section Kinds
variable {p : Piece} {lexeme : Lexeme} {text : List Char}

theorem bracketKind?_of_isNameChar {c : Char} (h : isNameChar c = true) :
    bracketKind? c = none := by
  have hc : isBracket c = false := by
    refine Bool.eq_false_iff.2 fun hb => ?_
    rw [isNameChar_of_isBracket hb] at h
    cases h
  simp only [isBracket, Bool.or_eq_false_iff, decide_eq_false_iff_not] at hc
  obtain ⟨⟨⟨h₁, h₂⟩, h₃⟩, h₄⟩ := hc
  rw [bracketKind?, if_neg h₁, if_neg h₂, if_neg h₃, if_neg h₄]

theorem Piece.IsBracket.kind? (h : p.IsBracket) (hm : p.Makes lexeme) :
    lexeme.kind? = .ok p.kind := by
  obtain ⟨c, hc, hs⟩ := h.single
  obtain ⟨first, rest, position⟩ := lexeme
  have htext : first :: rest = [c] := hm.text.trans hs
  obtain ⟨rfl, rfl⟩ := List.cons.inj htext
  simp only [isBracket, Bool.or_eq_true, decide_eq_true_eq] at hc
  rw [Piece.kind, hs]
  rcases hc with ((rfl | rfl) | rfl) | rfl <;> rfl

theorem Piece.IsRun.not_bracket (h : p.IsRun) {c : Char} {rest : List Char}
    (hc : p.content = c :: rest) (hb : isBracket c = true) : False := by
  have hn := h.names c (by rw [hc]; exact List.mem_cons_self)
  rw [isNameChar_of_isBracket hb] at hn
  cases hn

theorem Piece.IsRun.kind? (h : p.IsRun) (hl : ¬ p.IsLone) (hm : p.Makes lexeme) :
    lexeme.kind? = .ok p.kind := by
  obtain ⟨first, rest, position⟩ := lexeme
  have htext : p.content = first :: rest := hm.text.symm
  have hfirst : isNameChar first = true := h.names first (by rw [htext]; exact List.mem_cons_self)
  generalize hmade : (Lexeme.mk first rest position).kind? = made
  simp only [Lexeme.kind?, bracketKind?_of_isNameChar hfirst] at hmade
  unfold Piece.kind
  split
  -- four brackets, which a run is not
  next hc => exact (h.not_bracket hc (by decide)).elim
  next hc => exact (h.not_bracket hc (by decide)).elim
  next hc => exact (h.not_bracket hc (by decide)).elim
  next hc => exact (h.not_bracket hc (by decide)).elim
  next name hc =>
    obtain ⟨rfl, rfl⟩ := List.cons.inj (htext.symm.trans hc)
    have hrest : ¬ rest.isEmpty = true := fun he => hl (by
      rw [Piece.IsLone, htext, List.isEmpty_iff.1 he]
      rfl)
    rw [← hmade]
    exact (if_pos rfl).trans (if_neg hrest)
  next hq =>
    have hne : first ≠ quoteMark := by
      rintro rfl
      exact hq rest htext
    rw [← hmade, if_neg hne, Lexeme.text, htext]
    cases Literal.read? (first :: rest) <;> rfl

theorem Piece.IsOf.token? (h : p.IsOf text) (hl : ¬ p.IsLone) (hm : p.Makes lexeme) :
    lexeme.token? = .ok p.token := by
  have hkind : lexeme.kind? = .ok p.kind := h.kind.elim (·.kind? hl hm) (·.kind? hm)
  rw [Lexeme.token?, hkind, hm.position]
  rfl

theorem Piece.IsLone.token? (h : p.IsLone) (hm : p.Makes lexeme) :
    lexeme.token? = .error (.loneQuoteMark (placeAfter p.before)) := by
  obtain ⟨first, rest, position⟩ := lexeme
  have htext : first :: rest = [quoteMark] := hm.text.trans h
  obtain ⟨rfl, rfl⟩ := List.cons.inj htext
  rw [← hm.position]
  rfl

end Kinds

section Scan
variable {text : List Char} {pieces : List Piece} {found : List Lexeme}

theorem mapM_token?_of_forall (hm : List.Forall₂ Piece.Makes pieces found)
    (hof : ∀ p ∈ pieces, p.IsOf text) (hl : ∀ p ∈ pieces, ¬ p.IsLone) :
    found.mapM Lexeme.token? = .ok (pieces.map Piece.token) := by
  induction hm with
  | nil => rfl
  | cons hhead _ ih =>
    obtain ⟨hof, hofs⟩ := List.forall_mem_cons.1 hof
    obtain ⟨hl, hls⟩ := List.forall_mem_cons.1 hl
    rw [List.mapM_cons, hof.token? hl hhead, ih hofs hls]
    rfl

/-- The first quote mark without a name is reported. -/
theorem mapM_token?_of_isLone {earlier later : List Piece} {p : Piece} (hp : p.IsLone)
    (hm : List.Forall₂ Piece.Makes (earlier ++ p :: later) found)
    (hof : ∀ q ∈ earlier, q.IsOf text) (hl : ∀ q ∈ earlier, ¬ q.IsLone) :
    found.mapM Lexeme.token? = .error (.loneQuoteMark (placeAfter p.before)) := by
  induction earlier generalizing found with
  | nil =>
    obtain _ | ⟨hhead, -⟩ := hm
    rw [List.mapM_cons, hp.token? hhead]
    rfl
  | cons q earlier ih =>
    obtain _ | ⟨hhead, htail⟩ := hm
    obtain ⟨hof, hofs⟩ := List.forall_mem_cons.1 hof
    obtain ⟨hl, hls⟩ := List.forall_mem_cons.1 hl
    rw [List.mapM_cons, hof.token? hl hhead, ih htail hofs hls]
    rfl

end Scan

/-- The pieces of a text, each of them once and in order. -/
structure PiecesOf (text : List Char) (pieces : List Piece) : Prop where
  ordered : pieces.Pairwise Piece.Precedes
  complete : ∀ p : Piece, p ∈ pieces ↔ p.IsOf text

theorem exists_piecesOf (text : List Char) : ∃ pieces, PiecesOf text pieces ∧
    List.Forall₂ Piece.Makes pieces (lexemes ⟨1, 1⟩ text) := by
  have hstart : Boundary [] text := by
    constructor
    · rintro ⟨⟩
    · rintro _ _ _ _ ⟨⟩
  obtain ⟨pieces, h⟩ := exists_cover hstart
  refine ⟨pieces, ⟨h.ordered, fun p => ?_⟩, h.scanned⟩
  rw [h.complete p]
  exact and_iff_left (Nat.zero_le _)

theorem scan_of_forall {text : List Char} {pieces : List Piece} (hp : PiecesOf text pieces)
    (hm : List.Forall₂ Piece.Makes pieces (lexemes ⟨1, 1⟩ text))
    (hl : ∀ p ∈ pieces, ¬ p.IsLone) : scan text = .ok (pieces.map Piece.token) :=
  mapM_token?_of_forall hm (fun p h => (hp.complete p).1 h) hl

theorem scan_of_isLone {text : List Char} {pieces : List Piece} (hp : PiecesOf text pieces)
    (hm : List.Forall₂ Piece.Makes pieces (lexemes ⟨1, 1⟩ text)) {p : Piece} (h : p ∈ pieces)
    (hl : p.IsLone) : ∃ position, scan text = .error (.loneQuoteMark position) := by
  obtain ⟨first, hfirst⟩ : ∃ first, pieces.find? (·.IsLone) = some first :=
    Option.isSome_iff_exists.1 (List.find?_isSome.2 ⟨p, h, decide_eq_true hl⟩)
  obtain ⟨hlone, earlier, later, rfl, hearlier⟩ := List.find?_eq_some_iff_append.1 hfirst
  have hof : ∀ q ∈ earlier, q.IsOf text :=
    fun q hq => (hp.complete q).1 (List.mem_append_left _ hq)
  have hnot : ∀ q ∈ earlier, ¬ q.IsLone := fun q hq => by simpa using hearlier q hq
  exact ⟨_, mapM_token?_of_isLone (of_decide_eq_true hlone) hm hof hnot⟩

end Token

/-- Of readable tokens only the nesting can be at fault. -/
theorem tokenize_of_scan {source : String} {tokens : List Token}
    (h : Token.scan source.toList = .ok tokens) :
    tokenize source = (Token.checkNesting tokens).map fun _ => tokens := by
  rw [tokenize, h]
  rfl

theorem tokenize_eq_ok_iff {source : String} {tokens : List Token} : tokenize source = .ok tokens ↔
    Token.scan source.toList = .ok tokens ∧ Token.Nested tokens := by
  rw [← Token.checkNesting_eq_ok_iff]
  constructor
  · intro h
    cases hs : Token.scan source.toList with
    | error fault =>
      rw [tokenize, hs] at h
      cases h
    | ok found =>
      rw [tokenize_of_scan hs] at h
      cases hc : Token.checkNesting found with
      | error fault =>
        rw [hc] at h
        cases h
      | ok =>
        rw [hc] at h
        cases h
        exact ⟨rfl, hc⟩
  · rintro ⟨hs, hc⟩
    rw [tokenize_of_scan hs, hc]
    rfl

open Token in
/-- Where a text is read its pieces are its tokens. -/
theorem tokens_of_tokenize {source : String} {tokens : List Token} {pieces : List Piece}
    (hp : PiecesOf source.toList pieces)
    (hm : List.Forall₂ Piece.Makes pieces (lexemes ⟨1, 1⟩ source.toList))
    (h : tokenize source = .ok tokens) :
    (∀ p ∈ pieces, ¬ p.IsLone) ∧ tokens = pieces.map Piece.token ∧ Nested tokens := by
  obtain ⟨hs, hn⟩ := tokenize_eq_ok_iff.1 h
  have hl : ∀ p ∈ pieces, ¬ p.IsLone := by
    intro p hmem hl
    obtain ⟨position, he⟩ := scan_of_isLone hp hm hmem hl
    rw [he] at hs
    cases hs
  exact ⟨hl, Except.ok.inj (hs.symm.trans (scan_of_forall hp hm hl)), hn⟩

end StackCalc
