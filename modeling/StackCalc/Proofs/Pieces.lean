import Mathlib.Data.List.Forall2
import Mathlib.Data.List.TakeWhile
import StackCalc.Token.Scan

/-!
The pieces of a text that make tokens, told without a scanner: where a piece may stand depends on
what is before it and after it alone. The scanner finds all of them, in order.
-/
namespace StackCalc.Token

open Text

/-- What stands after the last line feed. -/
def lastLine (text : List Char) : List Char :=
  (text.reverse.takeWhile (· != '\n')).reverse

/-- The place of the character that follows `before`: one line more than it has line feeds, and one
column more than its last line has characters. -/
def placeAfter (before : List Char) : Position where
  line := 1 + before.count '\n'
  column := 1 + (lastLine before).length

/-- A comment is open after `before`: its last line has the mark of a comment. -/
def Commented (before : List Char) : Prop :=
  commentMark ∈ lastLine before

/-- A part of a text, with what is before it and after it. -/
structure Piece where
  before : List Char
  content : List Char
  after : List Char

/-- A longest run of the characters of names outside of comments. -/
structure Piece.IsRun (p : Piece) : Prop where
  nonempty : p.content ≠ []
  names : ∀ c ∈ p.content, isNameChar c = true
  first : ∀ c ∈ p.before.getLast?, isNameChar c = false
  last : ∀ c ∈ p.after.head?, isNameChar c = false
  outside : ¬ Commented p.before

/-- A bracket outside of comments. -/
structure Piece.IsBracket (p : Piece) : Prop where
  single : ∃ c, isBracket c = true ∧ p.content = [c]
  outside : ¬ Commented p.before

/-- The pieces of a text are its runs and its brackets. -/
structure Piece.IsOf (p : Piece) (text : List Char) : Prop where
  eq : p.before ++ (p.content ++ p.after) = text
  kind : p.IsRun ∨ p.IsBracket

section Characters
variable {c : Char}

theorem isNameChar_commentMark : isNameChar commentMark = false := by decide

theorem isNameChar_of_isWhiteSpace (h : isWhiteSpace c = true) : isNameChar c = false := by
  simp [isNameChar, h]

theorem isNameChar_of_isBracket (h : isBracket c = true) : isNameChar c = false := by
  simp [isNameChar, h]

theorem isNameChar_newline : isNameChar '\n' = false :=
  isNameChar_of_isWhiteSpace isWhiteSpace_newline

theorem isNameChar_of_others (hm : c ≠ commentMark) (hw : ¬ isWhiteSpace c = true)
    (hb : ¬ isBracket c = true) : isNameChar c = true := by
  simp [isNameChar, hm, hw, hb]

theorem isWhiteSpace_of_isBracket (h : isBracket c = true) : isWhiteSpace c = false := by
  simp only [isBracket, Bool.or_eq_true, decide_eq_true_eq] at h
  rcases h with ((rfl | rfl) | rfl) | rfl <;> decide

theorem ne_commentMark_of_isBracket (h : isBracket c = true) : c ≠ commentMark := by
  rintro rfl
  revert h
  decide

theorem ne_newline_of_isBracket (h : isBracket c = true) : c ≠ '\n' := by
  rintro rfl
  revert h
  decide

end Characters

section LastLine
variable {before text : List Char}

theorem lastLine_append (h : '\n' ∉ text) :
    lastLine (before ++ text) = lastLine before ++ text := by
  have hall : ∀ c ∈ text.reverse, (c != '\n') = true := by
    intro c hc
    rw [bne_iff_ne]
    rintro rfl
    exact h (List.mem_reverse.1 hc)
  rw [lastLine, List.reverse_append, List.takeWhile_append_of_pos hall, List.reverse_append,
    List.reverse_reverse, lastLine]

theorem lastLine_newline : lastLine (before ++ ['\n']) = [] := by
  simp [lastLine]

theorem placeAfter_snoc (before : List Char) (c : Char) :
    placeAfter (before ++ [c]) = (placeAfter before).after c := by
  by_cases hc : c = '\n'
  · subst hc
    simp [placeAfter, Position.after, lastLine_newline, Nat.add_assoc]
  · have hn : '\n' ∉ [c] := fun h => hc (List.mem_singleton.1 h).symm
    simp [placeAfter, Position.after, lastLine_append hn, hc, Nat.add_assoc]

theorem placeAfter_append (before text : List Char) :
    placeAfter (before ++ text) = (placeAfter before).afterAll text := by
  induction text generalizing before with
  | nil => rw [List.append_nil]; rfl
  | cons c rest ih =>
    rw [← List.singleton_append, ← List.append_assoc, ih, placeAfter_snoc]
    rfl

theorem Commented.of_append (h : Commented (before ++ text)) (hn : '\n' ∉ text)
    (hm : commentMark ∉ text) : Commented before := by
  rw [Commented, lastLine_append hn, List.mem_append] at h
  exact h.resolve_right hm

theorem commented_append (hm : commentMark ∈ text) (hn : '\n' ∉ text) :
    Commented (before ++ text) := by
  rw [Commented, lastLine_append hn, List.mem_append]
  exact .inr hm

end LastLine

/-- A span ends where the next text starts with another character. -/
theorem span_append_of_head? {f : Char → Bool} {run rest : List Char}
    (hrun : ∀ c ∈ run, f c = true) (hrest : ∀ c ∈ rest.head?, f c = false) :
    (run ++ rest).takeWhile f = run ∧ (run ++ rest).dropWhile f = rest := by
  rw [List.takeWhile_append_of_pos hrun, List.dropWhile_append_of_pos hrun]
  cases rest with
  | nil => exact ⟨List.append_nil _, rfl⟩
  | cons c rest =>
    have hc : ¬ f c = true := Bool.eq_false_iff.1 (hrest c rfl)
    rw [List.takeWhile_cons_of_neg hc, List.dropWhile_cons_of_neg hc, List.append_nil]
    exact ⟨rfl, rfl⟩

section Overlap
variable {p q : Piece} {text : List Char}

theorem Piece.IsOf.content_ne_nil (h : p.IsOf text) : p.content ≠ [] := by
  rcases h.kind with hp | hp
  · exact hp.nonempty
  · obtain ⟨c, -, hc⟩ := hp.single
    rw [hc]
    exact List.cons_ne_nil c []

theorem Piece.IsOf.not_commented (h : p.IsOf text) : ¬ Commented p.before :=
  h.kind.elim (·.outside) (·.outside)

/-- A run goes on as far as the characters of names do. -/
theorem Piece.IsRun.takeWhile_eq (h : p.IsRun) :
    (p.content ++ p.after).takeWhile isNameChar = p.content :=
  (span_append_of_head? h.names h.last).1

theorem Piece.IsOf.after_eq (hp : p.IsOf text) (hq : q.IsOf text) (hb : q.before = p.before) :
    p.content ++ p.after = q.content ++ q.after := by
  have heq := hp.eq.trans hq.eq.symm
  rwa [hb, List.append_cancel_left_eq] at heq

theorem Piece.IsOf.eq_of_before_eq (hp : p.IsOf text) (hq : q.IsOf text)
    (hb : q.before = p.before) (hn : p.content.length = q.content.length) : p = q := by
  have heq := hp.after_eq hq hb
  obtain ⟨before, content, after⟩ := p
  obtain ⟨before', content', after'⟩ := q
  obtain ⟨rfl, rfl⟩ := List.append_inj heq hn
  exact congrArg (Piece.mk · content after) hb.symm

/-- No character is in both a run and a bracket. -/
theorem Piece.IsOf.same_kind (hp : p.IsOf text) (hq : q.IsOf text) {c : Char}
    (hcp : c ∈ p.content) (hcq : c ∈ q.content) :
    p.IsRun ∧ q.IsRun ∨ p.IsBracket ∧ q.IsBracket := by
  have hkind (r : Piece) (hr : r.IsBracket) (hc : c ∈ r.content) : isNameChar c = false := by
    obtain ⟨b, hb, he⟩ := hr.single
    rw [he, List.mem_singleton] at hc
    rw [hc]
    exact isNameChar_of_isBracket hb
  rcases hp.kind with hl | hb <;> rcases hq.kind with hl' | hb'
  · exact .inl ⟨hl, hl'⟩
  · exact absurd (hl.names c hcp) (Bool.eq_false_iff.1 (hkind q hb' hcq))
  · exact absurd (hl'.names c hcq) (Bool.eq_false_iff.1 (hkind p hb hcp))
  · exact .inr ⟨hb, hb'⟩

/-- A piece that starts no later than another one ends before it, or is the same. -/
theorem Piece.IsOf.eq_or_disjoint_of_le (hp : p.IsOf text) (hq : q.IsOf text)
    (hle : p.before.length ≤ q.before.length) :
    p = q ∨ p.before.length + p.content.length ≤ q.before.length := by
  have heq := hp.eq.trans hq.eq.symm
  obtain ⟨mid, hmid⟩ : ∃ mid, p.before ++ mid = q.before :=
    List.prefix_of_prefix_length_le ⟨_, heq⟩ ⟨_, rfl⟩ hle
  rw [← hmid, List.append_assoc, List.append_cancel_left_eq] at heq
  by_cases hlen : p.content.length ≤ mid.length
  · right
    rw [← hmid, List.length_append]
    omega
  · left
    -- the first character of `q` is within `p`
    obtain ⟨c, crest, hc⟩ := List.exists_cons_of_ne_nil hq.content_ne_nil
    obtain ⟨inner, hinner⟩ : mid ++ [c] <+: p.content := by
      rw [hc, List.cons_append, List.append_cons] at heq
      refine List.prefix_of_prefix_length_le ⟨_, heq.symm⟩ ⟨_, rfl⟩ ?_
      rw [List.length_append, List.length_singleton]
      omega
    have hcp : c ∈ p.content := by
      rw [← hinner]
      exact List.mem_append_left inner (List.mem_append_right mid (List.mem_singleton_self c))
    have hcq : c ∈ q.content := by
      rw [hc]
      exact List.mem_cons_self
    rcases hp.same_kind hq hcp hcq with ⟨hl, hl'⟩ | ⟨hb, hb'⟩
    · -- so both are runs, and a run starts where the characters of names start
      have hmid' : mid = [] := by
        rcases List.eq_nil_or_concat mid with hnil | ⟨mid', d, rfl⟩
        · exact hnil
        · have hd : isNameChar d = true := hl.names d (by simp [← hinner])
          have hd' : isNameChar d = false := hl'.first d (by simp [← hmid])
          exact absurd hd (Bool.eq_false_iff.1 hd')
      have hbefore : q.before = p.before := by rw [← hmid, hmid', List.append_nil]
      have hsame := congrArg (List.takeWhile isNameChar) (hp.after_eq hq hbefore)
      rw [hl.takeWhile_eq, hl'.takeWhile_eq] at hsame
      exact hp.eq_of_before_eq hq hbefore (congrArg List.length hsame)
    · obtain ⟨b, -, hb⟩ := hb.single
      obtain ⟨b', -, hb'⟩ := hb'.single
      have hmid' : mid = [] := by
        rw [hb, List.length_singleton] at hlen
        exact List.eq_nil_of_length_eq_zero (by omega)
      have hbefore : q.before = p.before := by rw [← hmid, hmid', List.append_nil]
      exact hp.eq_of_before_eq hq hbefore
        (by rw [hb, hb', List.length_singleton, List.length_singleton])

/-- Two pieces of a text have no character in common. -/
theorem Piece.IsOf.eq_or_disjoint (hp : p.IsOf text) (hq : q.IsOf text) :
    p = q ∨ p.before.length + p.content.length ≤ q.before.length ∨
      q.before.length + q.content.length ≤ p.before.length := by
  rcases Nat.le_total p.before.length q.before.length with hle | hle
  · exact (hp.eq_or_disjoint_of_le hq hle).imp_right .inl
  · exact (hq.eq_or_disjoint_of_le hp hle).imp .symm .inr

end Overlap

/-! The scanner, place by place. -/

/-- The scanner made the lexeme of the piece. -/
structure Piece.Makes (p : Piece) (lexeme : Lexeme) : Prop where
  text : lexeme.text = p.content
  position : lexeme.position = placeAfter p.before

/-- The first piece ends where the second one starts, or earlier. -/
def Piece.Precedes (p q : Piece) : Prop :=
  p.before.length + p.content.length ≤ q.before.length

/-- The pieces of a text that start within `rest`, in order, and the scanner finds them there. -/
structure Cover (before rest : List Char) (pieces : List Piece) : Prop where
  scanned : List.Forall₂ Piece.Makes pieces (lexemes (placeAfter before) rest)
  ordered : pieces.Pairwise Piece.Precedes
  complete : ∀ p : Piece, p ∈ pieces ↔ p.IsOf (before ++ rest) ∧ before.length ≤ p.before.length

section Cover
variable {before skipped content rest : List Char} {pieces : List Piece} {p : Piece} {c : Char}

theorem Cover.nil (before : List Char) : Cover before [] [] where
  scanned := by
    rw [lexemes]
    exact .nil
  ordered := .nil
  complete p := by
    refine iff_of_false List.not_mem_nil ?_
    rintro ⟨hp, hle⟩
    have hlen := congrArg List.length hp.eq
    rw [List.length_append, List.length_append, List.append_nil] at hlen
    exact hp.content_ne_nil (List.eq_nil_of_length_eq_zero (by omega))

/-- The scanner may pass over a text in which no piece starts. -/
theorem Cover.skip (h : Cover (before ++ skipped) rest pieces)
    (hs : lexemes (placeAfter before) (skipped ++ rest) =
      lexemes (placeAfter (before ++ skipped)) rest)
    (hn : ∀ p : Piece, p.IsOf (before ++ (skipped ++ rest)) → before.length ≤ p.before.length →
      (before ++ skipped).length ≤ p.before.length) :
    Cover before (skipped ++ rest) pieces where
  scanned := hs ▸ h.scanned
  ordered := h.ordered
  complete p := by
    rw [h.complete p, List.append_assoc]
    refine and_congr_right fun hp => ⟨fun hle => ?_, hn p hp⟩
    rw [List.length_append] at hle
    omega

/-- The scanner finds the piece that stands first. -/
theorem Cover.cons (h : Cover (before ++ content) rest pieces)
    (hp : Piece.IsOf ⟨before, content, rest⟩ (before ++ (content ++ rest)))
    {lexeme : Lexeme} (hm : Piece.Makes ⟨before, content, rest⟩ lexeme)
    (hs : lexemes (placeAfter before) (content ++ rest) =
      lexeme :: lexemes (placeAfter (before ++ content)) rest) :
    Cover before (content ++ rest) (⟨before, content, rest⟩ :: pieces) where
  scanned := by
    rw [hs]
    exact .cons hm h.scanned
  ordered := by
    refine List.pairwise_cons.2 ⟨fun q hq => ?_, h.ordered⟩
    have hle := ((h.complete q).1 hq).2
    rwa [List.length_append] at hle
  complete q := by
    rw [List.mem_cons, h.complete q, List.append_assoc]
    constructor
    · rintro (rfl | ⟨hq, hle⟩)
      · exact ⟨hp, Nat.le_refl _⟩
      · rw [List.length_append] at hle
        exact ⟨hq, by omega⟩
    · rintro ⟨hq, hle⟩
      refine (hp.eq_or_disjoint_of_le hq hle).imp .symm fun hend => ⟨hq, ?_⟩
      rwa [List.length_append]

/-- Where a piece starts within `skipped`, its first character is there. -/
theorem Piece.IsOf.starts_in (hp : p.IsOf (before ++ (skipped ++ rest)))
    (hle : before.length ≤ p.before.length)
    (hlt : ¬ (before ++ skipped).length ≤ p.before.length) :
    ∃ mid c more, skipped = mid ++ c :: more ∧ p.before = before ++ mid ∧ c ∈ p.content := by
  obtain ⟨mid, hmid⟩ : before <+: p.before :=
    List.prefix_of_prefix_length_le ⟨_, rfl⟩ ⟨_, hp.eq⟩ hle
  obtain ⟨c, crest, hc⟩ := List.exists_cons_of_ne_nil hp.content_ne_nil
  have heq := hp.eq
  rw [← hmid, List.append_assoc, List.append_cancel_left_eq, hc, List.cons_append,
    List.append_cons] at heq
  obtain ⟨more, hmore⟩ : mid ++ [c] <+: skipped := by
    refine List.prefix_of_prefix_length_le ⟨_, heq⟩ ⟨_, rfl⟩ ?_
    rw [← hmid, List.length_append, List.length_append] at hlt
    rw [List.length_append, List.length_singleton]
    omega
  refine ⟨mid, c, more, ?_, hmid.symm, ?_⟩
  · rw [← hmore, List.append_assoc, List.singleton_append]
  · rw [hc]
    exact List.mem_cons_self

theorem Piece.IsOf.visible_of_mem {text : List Char} (hp : p.IsOf text) (hc : c ∈ p.content) :
    isWhiteSpace c = false ∧ c ≠ commentMark := by
  rcases hp.kind with hr | hb
  · have hn := hr.names c hc
    constructor
    · refine Bool.eq_false_iff.2 fun hw => ?_
      rw [isNameChar_of_isWhiteSpace hw] at hn
      cases hn
    · rintro rfl
      rw [isNameChar_commentMark] at hn
      cases hn
  · obtain ⟨b, hb, he⟩ := hb.single
    rw [he, List.mem_singleton] at hc
    rw [hc]
    exact ⟨isWhiteSpace_of_isBracket hb, ne_commentMark_of_isBracket hb⟩

/-- Neither a comment nor a run goes on across the place between the two texts. -/
structure Boundary (before rest : List Char) : Prop where
  comment : Commented before → ∀ c ∈ rest.head?, c = '\n'
  name : ∀ c ∈ rest.head?, isNameChar c = true → ∀ d ∈ before.getLast?, isNameChar d = false

theorem Boundary.not_commented (h : Boundary before (c :: rest)) (hc : c ≠ '\n') :
    ¬ Commented before :=
  fun hcom => hc (h.comment hcom c rfl)

/-! Where a run ends. -/

section Runs
variable {α : Type} {f : α → Bool} {list : List α}

theorem head?_dropWhile : ∀ a ∈ (list.dropWhile f).head?, f a = false := by
  intro a ha
  have h := List.head?_dropWhile_not f list
  rw [ha] at h
  simpa using h

variable [BEq α] [LawfulBEq α] {a : α}

theorem head?_dropWhile_ne : ∀ b ∈ (list.dropWhile (· != a)).head?, b = a :=
  fun b hb => bne_eq_false_iff_eq.1 (head?_dropWhile b hb)

theorem eq_of_dropWhile_ne {b : α} {rest : List α} (h : list.dropWhile (· != a) = b :: rest) :
    b = a :=
  head?_dropWhile_ne b (by rw [h, List.head?_cons, Option.mem_some_iff])

theorem notMem_takeWhile_ne : a ∉ list.takeWhile (· != a) := by
  intro h
  have hne := List.mem_takeWhile_imp h
  rw [bne_self_eq_false] at hne
  cases hne

end Runs

/-- Past a comment, which ends before the line feed. -/
theorem Boundary.comment_end (before text : List Char) :
    Boundary before (text.dropWhile (· != '\n')) := by
  refine ⟨fun _ => head?_dropWhile_ne, fun c hc hn => ?_⟩
  rw [head?_dropWhile_ne c hc, isNameChar_newline] at hn
  cases hn

/-- Past a character that ends names and starts no comment. -/
theorem Boundary.after (h : Boundary before (c :: rest)) (hm : c ≠ commentMark)
    (hn : isNameChar c = false) : Boundary (before ++ [c]) rest := by
  refine ⟨fun hcom => ?_, fun _ _ _ d hd => ?_⟩
  · by_cases hc : c = '\n'
    · subst hc
      rw [Commented, lastLine_newline] at hcom
      cases hcom
    · have hcom' := hcom.of_append (by simpa using Ne.symm hc) (by simpa using hm.symm)
      exact absurd hcom' (h.not_commented hc)
  · rw [List.getLast?_concat, Option.mem_some_iff] at hd
    rw [← hd, hn]

theorem Cover.comment {text : List Char}
    (h : Cover (before ++ commentMark :: text.takeWhile (· != '\n')) (text.dropWhile (· != '\n'))
      pieces) : Cover before (commentMark :: text) pieces := by
  have hsplit : commentMark :: text =
      (commentMark :: text.takeWhile (· != '\n')) ++ text.dropWhile (· != '\n') := by
    rw [List.cons_append, List.takeWhile_append_dropWhile]
  have hscan : lexemes (placeAfter before) (commentMark :: text) =
      lexemes (placeAfter (before ++ commentMark :: text.takeWhile (· != '\n')))
        (text.dropWhile (· != '\n')) := by
    rw [lexemes, if_pos rfl, placeAfter_append]
    rfl
  rw [hsplit] at hscan ⊢
  refine h.skip hscan fun p hp hle => ?_
  by_contra hlt
  obtain ⟨mid, c, more, hmid, hbefore, hc⟩ := hp.starts_in hle hlt
  cases mid with
  | nil =>
    -- the piece would have the mark in it
    obtain ⟨rfl, -⟩ := List.cons.inj hmid
    exact (hp.visible_of_mem hc).2 rfl
  | cons d mid =>
    -- the piece would be within the comment
    rw [List.cons_append] at hmid
    obtain ⟨rfl, hrun⟩ := List.cons.inj hmid
    have hnl : '\n' ∉ commentMark :: mid := by
      intro hmem
      rcases List.mem_cons.1 hmem with h' | h'
      · exact absurd h' (by decide)
      · have hmem' : '\n' ∈ text.takeWhile (· != '\n') := by
          rw [hrun]
          exact List.mem_append_left _ h'
        exact notMem_takeWhile_ne hmem'
    apply hp.not_commented
    rw [hbefore]
    exact commented_append List.mem_cons_self hnl

theorem Cover.blank (h : Cover (before ++ [c]) rest pieces) (hc : isWhiteSpace c = true) :
    Cover before (c :: rest) pieces := by
  have hm : c ≠ commentMark := by
    rintro rfl
    revert hc
    decide
  have hscan : lexemes (placeAfter before) ([c] ++ rest) =
      lexemes (placeAfter (before ++ [c])) rest := by
    rw [List.singleton_append, lexemes, if_neg hm, if_pos hc, placeAfter_snoc]
  refine h.skip hscan fun p hp hle => ?_
  by_contra hlt
  obtain ⟨mid, d, more, hmid, -, hd⟩ := hp.starts_in hle hlt
  obtain ⟨-, rfl, -⟩ : mid = [] ∧ c = d ∧ more = [] := by
    cases mid with
    | nil => simpa using hmid
    | cons e mid => simp at hmid
  rw [(hp.visible_of_mem hd).1] at hc
  cases hc

theorem Cover.bracket (h : Cover (before ++ [c]) rest pieces) (hb : Boundary before (c :: rest))
    (hc : isBracket c = true) : Cover before (c :: rest) (⟨before, [c], rest⟩ :: pieces) := by
  have hscan : lexemes (placeAfter before) ([c] ++ rest) =
      ⟨c, [], placeAfter before⟩ :: lexemes (placeAfter (before ++ [c])) rest := by
    rw [List.singleton_append, lexemes, if_neg (ne_commentMark_of_isBracket hc),
      if_neg (Bool.eq_false_iff.1 (isWhiteSpace_of_isBracket hc)), if_pos hc, placeAfter_snoc]
  have hpiece : Piece.IsBracket ⟨before, [c], rest⟩ :=
    ⟨⟨c, hc, rfl⟩, hb.not_commented (ne_newline_of_isBracket hc)⟩
  exact h.cons ⟨rfl, .inr hpiece⟩ ⟨rfl, rfl⟩ hscan

theorem Cover.name {text : List Char}
    (h : Cover (before ++ c :: text.takeWhile isNameChar) (text.dropWhile isNameChar) pieces)
    (hb : Boundary before (c :: text)) (hm : c ≠ commentMark) (hw : ¬ isWhiteSpace c = true)
    (hk : ¬ isBracket c = true) :
    Cover before (c :: text)
      (⟨before, c :: text.takeWhile isNameChar, text.dropWhile isNameChar⟩ :: pieces) := by
  have hsplit : c :: text = (c :: text.takeWhile isNameChar) ++ text.dropWhile isNameChar := by
    rw [List.cons_append, List.takeWhile_append_dropWhile]
  have hscan : lexemes (placeAfter before) (c :: text) =
      ⟨c, text.takeWhile isNameChar, placeAfter before⟩ ::
        lexemes (placeAfter (before ++ c :: text.takeWhile isNameChar))
          (text.dropWhile isNameChar) := by
    rw [lexemes, if_neg hm, if_neg hw, if_neg hk, placeAfter_append]
    rfl
  have hc : isNameChar c = true := isNameChar_of_others hm hw hk
  have hnl : c ≠ '\n' := by
    rintro rfl
    exact hw isWhiteSpace_newline
  have hpiece : Piece.IsRun ⟨before, c :: text.takeWhile isNameChar, text.dropWhile isNameChar⟩ :=
    { nonempty := List.cons_ne_nil _ _
      names := List.forall_mem_cons.2 ⟨hc, fun d hd => List.mem_takeWhile_imp hd⟩
      first := hb.name c rfl hc
      last := head?_dropWhile
      outside := hb.not_commented hnl }
  rw [hsplit] at hscan ⊢
  exact h.cons ⟨rfl, .inl hpiece⟩ ⟨rfl, rfl⟩ hscan

/-- Past a run of the characters of names. -/
theorem Boundary.name_end {text : List Char} (hb : Boundary before (c :: text))
    (hc : isNameChar c = true) :
    Boundary (before ++ c :: text.takeWhile isNameChar) (text.dropWhile isNameChar) := by
  have hnames : ∀ d ∈ c :: text.takeWhile isNameChar, isNameChar d = true :=
    List.forall_mem_cons.2 ⟨hc, fun d hd => List.mem_takeWhile_imp hd⟩
  have hother (d : Char) (hd : isNameChar d = false) : d ∉ c :: text.takeWhile isNameChar := by
    intro hmem
    rw [hnames d hmem] at hd
    cases hd
  refine ⟨fun hcom => ?_, fun d hd hn => ?_⟩
  · have hcom' := hcom.of_append (hother _ isNameChar_newline) (hother _ isNameChar_commentMark)
    refine absurd hcom' (hb.not_commented ?_)
    rintro rfl
    rw [isNameChar_newline] at hc
    cases hc
  · rw [head?_dropWhile d hd] at hn
    cases hn

/-- Wherever the scanner starts anew it finds all the pieces ahead, along the recursion of
`lexemes`. -/
theorem exists_cover {before rest : List Char} (hb : Boundary before rest) :
    ∃ pieces, Cover before rest pieces := by
  -- on the length, since comments and names take more than one character away
  induction hn : rest.length using Nat.strong_induction_on generalizing before rest with
  | h n ih =>
  cases rest with
  | nil => exact ⟨[], Cover.nil before⟩
  | cons c text =>
    have hshorter {f : Char → Bool} : (text.dropWhile f).length < n := by
      rw [← hn, List.length_cons]
      exact Nat.lt_succ_of_le (List.dropWhile_sublist f).length_le
    by_cases hm : c = commentMark
    · subst hm
      obtain ⟨pieces, h⟩ := ih _ hshorter (Boundary.comment_end _ text) rfl
      exact ⟨pieces, h.comment⟩
    have htext : text.length < n := by
      rw [← hn, List.length_cons]
      exact Nat.lt_succ_self _
    by_cases hw : isWhiteSpace c = true
    · obtain ⟨pieces, h⟩ := ih _ htext (hb.after hm (isNameChar_of_isWhiteSpace hw)) rfl
      exact ⟨pieces, h.blank hw⟩
    by_cases hk : isBracket c = true
    · obtain ⟨pieces, h⟩ := ih _ htext (hb.after hm (isNameChar_of_isBracket hk)) rfl
      exact ⟨_, h.bracket hb hk⟩
    · obtain ⟨pieces, h⟩ := ih _ hshorter (hb.name_end (isNameChar_of_others hm hw hk)) rfl
      exact ⟨_, h.name hb hm hw hk⟩

end Cover

end StackCalc.Token
