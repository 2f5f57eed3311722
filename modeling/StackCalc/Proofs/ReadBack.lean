import StackCalc.Proofs.Decimal.RoundTrip
import StackCalc.Proofs.Reachable
import StackCalc.Proofs.Unplaced

/-!
Rendered values read back. What the language can store under a name reads as that name, so the text
of a quotation is read as its tokens, and evaluating it pushes the quotation again.
-/
namespace StackCalc

/-- The number that the token is. -/
def Token.Kind.number? : Token.Kind → Option Float
  | .number x => some x
  | _ => none

namespace Value

/-- The numbers that the value is written with, those of its items aside. -/
def numbers : Value → List Float
  | number x => [x]
  | quotation body => body.filterMap (·.kind.number?)
  | _ => []

end Value

namespace Token

/-! Texts that are read as given tokens, wherever they stand. -/

/-- In front of anything that ends a name the text is read as tokens of these kinds. -/
def Reads (text : List Char) (kinds : List Kind) : Prop :=
  ∀ position rest, (∀ c ∈ rest.head?, isNameChar c = false) →
    ∃ found position', lexemes position (text ++ rest) = found ++ lexemes position' rest ∧
      found.map Lexeme.kind? = kinds.map Except.ok

section Reads
variable {text text' : List Char} {kinds kinds' : List Kind} {kind : Kind} {c : Char}

theorem Reads.nil : Reads [] [] :=
  fun position _ _ => ⟨[], position, rfl, rfl⟩

theorem Reads.append (h : Reads text kinds) (h' : Reads text' kinds')
    (hc : ∀ c ∈ text'.head?, isNameChar c = false) : Reads (text ++ text') (kinds ++ kinds') := by
  intro position rest hr
  have hend : ∀ c ∈ (text' ++ rest).head?, isNameChar c = false := by
    cases text' with
    | nil => exact hr
    | cons d _ => exact hc
  obtain ⟨found, middle, he, hk⟩ := h position (text' ++ rest) hend
  obtain ⟨found', last, he', hk'⟩ := h' middle rest hr
  refine ⟨found ++ found', last, ?_, ?_⟩
  · rw [List.append_assoc, he, he', List.append_assoc]
  · rw [List.map_append, hk, hk', List.map_append]

theorem Reads.white (h : Reads text kinds) (hc : Text.isWhiteSpace c = true) :
    Reads (c :: text) kinds := by
  intro position rest hr
  obtain ⟨found, position', he, hk⟩ := h (position.after c) rest hr
  have hm : c ≠ commentMark := by
    rintro rfl
    revert hc
    decide
  refine ⟨found, position', ?_, hk⟩
  rw [List.cons_append, lexemes, if_neg hm, if_pos hc, he]

theorem Reads.blank (h : Reads text kinds) : Reads (' ' :: text) kinds :=
  h.white (by decide)

theorem Reads.bracket (hk : bracketKind? c = some kind) (hc : isBracket c = true) :
    Reads [c] [kind] := by
  intro position rest _
  refine ⟨[⟨c, [], position⟩], position.after c, ?_, ?_⟩
  · rw [List.singleton_append, lexemes, if_neg (ne_commentMark_of_isBracket hc),
      if_neg (Bool.eq_false_iff.1 (isWhiteSpace_of_isBracket hc)), if_pos hc]
    rfl
  · rw [List.map_singleton, List.map_singleton, Lexeme.kind?, hk]

/-- A text of the characters of names is a single lexeme. -/
theorem Reads.name {run : List Char} (hn : ∀ d ∈ c :: run, isNameChar d = true)
    (hk : ∀ position, (Lexeme.mk c run position).kind? = .ok kind) : Reads (c :: run) [kind] := by
  intro position rest hr
  have hc : isNameChar c = true := hn c List.mem_cons_self
  simp only [isNameChar, Bool.not_eq_true', Bool.or_eq_false_iff, decide_eq_false_iff_not] at hc
  obtain ⟨⟨hm, hw⟩, hb⟩ := hc
  have hrun : ∀ d ∈ run, isNameChar d = true := fun d hd => hn d (List.mem_cons_of_mem _ hd)
  have hspan := span_append_of_head? hrun hr
  refine ⟨[⟨c, run, position⟩], (position.after c).afterAll run, ?_, ?_⟩
  · rw [List.cons_append, lexemes, if_neg hm, if_neg (Bool.eq_false_iff.1 hw),
      if_neg (Bool.eq_false_iff.1 hb), hspan.1, hspan.2]
    rfl
  · rw [List.map_singleton, List.map_singleton, hk]

end Reads

theorem IsName.reads_quoted {name : String} (h : IsName name) :
    Reads (quoteMark :: name.toList) [.quoted name] := by
  have hmark : isNameChar quoteMark = true := by decide
  refine Reads.name (List.forall_mem_cons.2 ⟨hmark, h.chars⟩) fun position => ?_
  have hne : ¬ name.toList.isEmpty = true := by
    rw [List.isEmpty_iff]
    exact h.nonempty
  rw [Lexeme.kind?, bracketKind?_of_isNameChar hmark]
  simp only [if_true, if_neg hne, String.ofList_toList]

/-- What no quote mark precedes is a number or a word. -/
theorem reads_unquoted {text : List Char} (hne : text ≠ [])
    (hn : ∀ c ∈ text, isNameChar c = true) (hq : text.head? ≠ some quoteMark) :
    Reads text [match Literal.read? text with
      | some value => .number value
      | none => .word (String.ofList text)] := by
  obtain ⟨c, run, rfl⟩ := List.exists_cons_of_ne_nil hne
  refine Reads.name hn fun position => ?_
  have hc : c ≠ quoteMark := fun h => hq (congrArg some h)
  rw [Lexeme.kind?, bracketKind?_of_isNameChar (hn c List.mem_cons_self)]
  simp only [if_neg hc, Lexeme.text]
  cases Literal.read? (c :: run) <;> rfl

theorem reads_word {name : String} (h : (Kind.word name).IsLegible) :
    Reads name.toList [.word name] := by
  obtain ⟨hn, hq, hr⟩ := h
  have hreads := reads_unquoted hn.nonempty hn.chars hq
  rwa [hr, String.ofList_toList] at hreads

theorem reads_number {x : Float} (hf : x.isFinite = true) :
    Reads (numberText x) [.number x] := by
  have hq : (numberText x).head? ≠ some quoteMark := by
    intro hhead
    have hmark := isNumeral_of_mem_numberText hf (List.mem_of_head? hhead)
    revert hmark
    decide
  have hreads := reads_unquoted (numberText_ne_nil x)
    (fun c hc => isNameChar_of_isNumeral (isNumeral_of_mem_numberText hf hc)) hq
  rwa [read?_numberText hf] at hreads

/-! Texts of tokens. -/

theorem reads_kind {kind : Kind} (h : kind.IsLegible)
    (hf : ∀ x ∈ kind.number?, x.isFinite = true) : Reads kind.text [kind] := by
  cases kind with
  | number x => exact reads_number (hf x rfl)
  | quoted name => exact h.reads_quoted
  | word name => exact reads_word h
  | opener bracket => cases bracket <;> exact Reads.bracket rfl rfl
  | closer bracket => cases bracket <;> exact Reads.bracket rfl rfl

/-- Tokens with a blank before each of them. -/
theorem reads_tokens {tokens : List Token} (h : ∀ token ∈ tokens, token.kind.IsLegible)
    (hf : ∀ x ∈ tokens.filterMap (·.kind.number?), x.isFinite = true) :
    Reads (tokens.flatMap fun token => ' ' :: token.text) (tokens.map (·.kind)) := by
  induction tokens with
  | nil => exact Reads.nil
  | cons token rest ih =>
    obtain ⟨ht, hr⟩ := List.forall_mem_cons.1 h
    have hhead : Reads (' ' :: token.text) [token.kind] :=
      (reads_kind ht fun x hm => hf x (List.mem_filterMap.2 ⟨token, List.mem_cons_self, hm⟩)).blank
    have hrest := ih hr fun x hm => by
      obtain ⟨t, hmem, ht⟩ := List.mem_filterMap.1 hm
      exact hf x (List.mem_filterMap.2 ⟨t, List.mem_cons_of_mem _ hmem, ht⟩)
    rw [List.flatMap_cons, List.map_cons]
    refine hhead.append hrest fun c hc => ?_
    cases rest with
    | nil => cases hc
    | cons next rest =>
      cases hc
      decide

/-- A text that reads as some tokens is scanned into them. -/
theorem Reads.scan {text : List Char} {kinds : List Kind} (h : Reads text kinds) :
    ∃ tokens, Token.scan text = .ok tokens ∧ tokens.map (·.kind) = kinds := by
  have hend : ∀ c ∈ ([] : List Char).head?, isNameChar c = false := by
    rintro _ ⟨⟩
  obtain ⟨found, last, he, hk⟩ := h ⟨1, 1⟩ [] hend
  rw [List.append_nil, lexemes, List.append_nil] at he
  rw [Token.scan, he]
  clear he h
  induction found generalizing kinds with
  | nil =>
    obtain rfl := List.map_eq_nil_iff.1 hk.symm
    exact ⟨[], rfl, rfl⟩
  | cons lexeme found ih =>
    cases kinds with
    | nil => cases hk
    | cons kind kinds =>
      obtain ⟨hkind, hkinds⟩ := List.cons.inj hk
      obtain ⟨tokens, ht, rfl⟩ := ih hkinds
      refine ⟨⟨kind, lexeme.position⟩ :: tokens, ?_, rfl⟩
      rw [List.mapM_cons, Lexeme.token?, hkind, ht]
      rfl

end Token

open Eval Token

section Load
variable {v : Value} {kinds : List Kind}

theorem tokenize_of_reads {text : List Char} (h : Reads text kinds)
    (hn : ∀ tokens : List Token, tokens.map (·.kind) = kinds → Nested tokens) :
    ∃ tokens, tokenize (String.ofList text) = .ok tokens ∧ tokens.map (·.kind) = kinds := by
  obtain ⟨tokens, hs, hk⟩ := h.scan
  refine ⟨tokens, tokenize_eq_ok_iff.2 ⟨?_, hn tokens hk⟩, hk⟩
  rwa [String.toList_ofList]

/-- A text that reads as a token to be pushed pushes it. -/
theorem load_of_reads_plain {text : List Char} {kind : Kind} {w : Value} (h : Reads text [kind])
    (hb : kind.isBracket = false)
    (hrun : ∀ call position, run call [⟨kind, position⟩] = push w >>= fun _ => run call [])
    (u : Session) :
    load (String.ofList text) u = .ok () { u with depth := 0, stack := u.stack.pushed w } := by
  have hone : Nested [⟨kind, {}⟩] := .plain hb .nil
  obtain ⟨tokens, ht, hk⟩ := tokenize_of_reads h fun _ hk => hone.of_kinds hk
  obtain ⟨⟨_, position⟩, rest, rfl, rfl, hrest⟩ := List.map_eq_cons_iff.1 hk
  obtain rfl := List.map_eq_nil_iff.1 hrest
  rw [load_of_tokens ht, evaluate, hrun, run_nil]
  rfl

/-- A quotation up to the brace that closes it. -/
theorem reads_opened {body : List Token} (hb : IsProgram body)
    (hf : ∀ x ∈ (Value.quotation body).numbers, x.isFinite = true) :
    Reads ('{' :: body.flatMap fun token => ' ' :: token.text)
      (.opener .brace :: body.map (·.kind)) := by
  have hopen : Reads ['{'] [.opener .brace] := Reads.bracket rfl rfl
  refine hopen.append (reads_tokens hb.legible hf) fun c hc => ?_
  cases body with
  | nil => cases hc
  | cons token rest =>
    cases hc
    decide

theorem reads_quotation {body : List Token} (hb : IsProgram body)
    (hf : ∀ x ∈ (Value.quotation body).numbers, x.isFinite = true) :
    Reads (Value.quotation body).text
      (.opener .brace :: (body.map (·.kind) ++ [.closer .brace])) := by
  have hclose : Reads [' ', '}'] [.closer .brace] := (Reads.bracket rfl rfl).blank
  rw [Value.text]
  refine (reads_opened hb hf).append hclose fun c hc => ?_
  cases hc
  decide

theorem load_quotation {body : List Token} (hb : IsProgram body)
    (hf : ∀ x ∈ (Value.quotation body).numbers, x.isFinite = true) :
    ∃ body' : List Token, body'.map (·.kind) = body.map (·.kind) ∧ ∀ u,
      load (Value.quotation body).render u =
        .ok () { u with depth := 0, stack := u.stack.pushed (.quotation body') } := by
  have hpair : Nested (⟨.opener .brace, {}⟩ :: (body ++ [⟨.closer .brace, {}⟩])) :=
    .enclosed hb.nested .nil
  obtain ⟨tokens, ht, hk⟩ := tokenize_of_reads (reads_quotation hb hf) fun tokens hk =>
    hpair.of_kinds (by rw [hk, List.map_cons, List.map_append, List.map_singleton])
  obtain ⟨⟨_, p⟩, tail, rfl, rfl, htail⟩ := List.map_eq_cons_iff.1 hk
  obtain ⟨body', close, rfl, hbody, hclose⟩ := List.map_eq_append_iff.1 htail
  obtain ⟨⟨_, q⟩, rest, rfl, rfl, hrest⟩ := List.map_eq_cons_iff.1 hclose
  obtain rfl := List.map_eq_nil_iff.1 hrest
  refine ⟨body', hbody, fun u => ?_⟩
  have hsplit : splitAtCloser 0 (body' ++ [⟨.closer .brace, q⟩]) = some (body', []) :=
    (hb.nested.of_kinds hbody).splitAtCloser_append .brace q []
  rw [Value.render, load_of_tokens ht, evaluate, run_opener _ .brace p hsplit, run_nil]
  rfl

end Load

/-- In a session that a host can come by, the text of a finite number, of a word reference, or of a
quotation in which all numbers are finite, whether it lies on the stack or within a sequence, reads
back in every session: it pushes that value, with its tokens at other places, and changes nothing
else. -/
theorem load_render {s : Session} (h : s.Reachable) {top v : Value} (ht : top ∈ s.stack.values)
    (hv : v.Within top) (hs : ∀ items, v ≠ .sequence items)
    (hf : ∀ x ∈ v.numbers, x.isFinite = true) :
    ∃ w : Value, w.unplaced = v.unplaced ∧ ∀ u,
      load v.render u = .ok () { u with depth := 0, stack := u.stack.pushed w } := by
  have hlegible : v.IsLegible := h.wellFormed.stack top ht v hv
  cases v with
  | number x =>
    have hr : Reads (Value.number x).text [.number x] := by
      rw [Value.text]
      exact reads_number (hf x (List.mem_singleton_self x))
    have hrun := fun call position => run_number call x position []
    exact ⟨.number x, rfl, load_of_reads_plain hr rfl hrun⟩
  | reference name =>
    have hr : Reads (Value.reference name).text [.quoted name] := by
      rw [Value.text]
      exact Token.IsName.reads_quoted hlegible
    have hrun := fun call position => run_quoted call name position []
    exact ⟨.reference name, rfl, load_of_reads_plain hr rfl hrun⟩
  | quotation body =>
    obtain ⟨body', hk, hl⟩ := load_quotation hlegible hf
    refine ⟨.quotation body', ?_, hl⟩
    have hmap : body'.map Token.unplaced = body.map Token.unplaced := by
      have hcomp := congrArg (List.map fun kind => (⟨kind, {}⟩ : Token)) hk
      rwa [List.map_map, List.map_map] at hcomp
    rw [Value.unplaced, Value.unplaced, hmap]
  | sequence items => exact absurd rfl (hs items)

/-- The tokens of the body of `{ dup ,x -2.5 }`. -/
def sampleBody : List Token :=
  [⟨.word "dup", ⟨1, 3⟩⟩, ⟨.quoted "x", ⟨1, 7⟩⟩, ⟨.number (-2.5), ⟨1, 10⟩⟩]

/-- A quotation that has been pushed is pushed again by its text. -/
theorem load_render_pushed : ∃ w : Value, w.unplaced = (Value.quotation sampleBody).unplaced ∧
    ∀ u, load "{ dup ,x -2.5 }" u = .ok () { u with depth := 0, stack := u.stack.pushed w } := by
  have hv : (Session.bare.perform (.load "{ dup ,x -2.5 }")).2.stack.values =
      [.quotation sampleBody] := by
    decide +kernel
  have hmem : .quotation sampleBody ∈
      (Session.bare.perform (.load "{ dup ,x -2.5 }")).2.stack.values := by
    rw [hv]
    exact List.mem_singleton_self _
  have hrender : (Value.quotation sampleBody).render = "{ dup ,x -2.5 }" := by decide +kernel
  have hkind : ∀ items, Value.quotation sampleBody ≠ .sequence items := by
    rintro _ ⟨⟩
  rw [← hrender]
  exact load_render (.perform (.load "{ dup ,x -2.5 }") .bare) hmem (.self _) hkind
    (by decide +kernel)

end StackCalc
