import StackCalc.Proofs.ReadBack

/-!
The text of a value tells which value it is. A number or a reference ends where the next character
cannot belong to a name, a quotation at the partner of its first brace, and a sequence where an item
is not followed by a comma.
-/
namespace StackCalc

/-! Numbers. -/

section Numbers
variable {x y : Float}

/-- The texts of the three doubles that are not finite. -/
theorem numberText_of_not_isFinite (hf : ¬ x.isFinite = true) :
    numberText x = "NaN".toList ∧ x = Float.ofModel (.pack .notANumber) ∨
      numberText x = "inf".toList ∧ x = Float.ofModel (.pack (.infinity .positive)) ∨
      numberText x = "-inf".toList ∧ x = Float.ofModel (.pack (.infinity .negative)) := by
  have hf' : ¬ x.toModel.unpack.isFinite = true := hf
  have hx := (Binary64.ofModel_pack_unpack x).symm
  rw [numberText]
  cases hu : x.toModel.unpack with
  | notANumber => exact .inl ⟨rfl, hu ▸ hx⟩
  | infinity sign =>
    rw [hu] at hx
    cases sign with
    | positive => exact .inr (.inl ⟨rfl, hx⟩)
    | negative => exact .inr (.inr ⟨rfl, hx⟩)
  | zero sign => exact absurd (hu ▸ rfl) hf'
  | finite sign mantissa exponent h => exact absurd (hu ▸ rfl) hf'

/-- Their texts are not literals. -/
theorem read?_numberText_of_not_isFinite (hf : ¬ x.isFinite = true) :
    Literal.read? (numberText x) = none := by
  rcases numberText_of_not_isFinite hf with ⟨h, -⟩ | ⟨h, -⟩ | ⟨h, -⟩ <;> rw [h] <;> decide

theorem numberText_injective (h : numberText x = numberText y) : x = y := by
  have hread := congrArg Literal.read? h
  by_cases hx : x.isFinite = true <;> by_cases hy : y.isFinite = true
  · rw [read?_numberText hx, read?_numberText hy] at hread
    exact Option.some.inj hread
  · rw [read?_numberText hx, read?_numberText_of_not_isFinite hy] at hread
    cases hread
  · rw [read?_numberText hy, read?_numberText_of_not_isFinite hx] at hread
    cases hread
  · rcases numberText_of_not_isFinite hx with ⟨hx, rfl⟩ | ⟨hx, rfl⟩ | ⟨hx, rfl⟩ <;>
      rcases numberText_of_not_isFinite hy with ⟨hy, rfl⟩ | ⟨hy, rfl⟩ | ⟨hy, rfl⟩ <;>
      first | rfl | exact absurd (hx.symm.trans (h.trans hy)) (by decide)

theorem isNameChar_of_mem_numberText {c : Char} (hc : c ∈ numberText x) :
    Token.isNameChar c = true ∧ c ≠ Token.quoteMark := by
  by_cases hf : x.isFinite = true
  · have hn := isNumeral_of_mem_numberText hf hc
    refine ⟨isNameChar_of_isNumeral hn, ?_⟩
    rintro rfl
    revert hn
    decide
  · have hmarks {text : List Char}
        (h : (text.all fun c => Token.isNameChar c && c != Token.quoteMark) = true)
        (hc : c ∈ text) : Token.isNameChar c = true ∧ c ≠ Token.quoteMark := by
      have hboth := List.all_eq_true.1 h c hc
      rwa [Bool.and_eq_true, bne_iff_ne] at hboth
    rcases numberText_of_not_isFinite hf with ⟨h, -⟩ | ⟨h, -⟩ | ⟨h, -⟩ <;> rw [h] at hc <;>
      exact hmarks (by decide) hc

end Numbers

/-! Quotations. -/

namespace Token

theorem Nested.not_append_closer {tokens rest : List Token} {bracket : Bracket}
    {position : Text.Position} (h : Nested tokens) :
    ¬ Nested (tokens ++ ⟨.closer bracket, position⟩ :: rest) := by
  intro hn
  have hok := checkNesting_eq_ok_iff.2 hn
  rw [checkNesting, checkNestingFrom_append h] at hok
  cases hok

theorem map_ok_injective :
    Function.Injective (List.map (Except.ok : Kind → Except ParseFault Kind)) :=
  List.map_injective_iff.2 fun _ _ => Except.ok.inj

section Closed
variable {tokens tokens' : List Token} {bracket : Bracket}

/-- Properly nested tokens do not go on with a closing bracket behind others that are. -/
theorem Nested.eq_nil_of_append (h : Nested tokens) (h' : Nested tokens')
    {more : List (Except ParseFault Kind)}
    (he : (tokens'.map (·.kind)).map Except.ok = (tokens.map (·.kind)).map Except.ok ++ more)
    (hc : ∀ c ∈ more.head?, c = .ok (.closer bracket)) : more = [] := by
  cases more with
  | nil => rfl
  | cons c more =>
    obtain rfl := hc c rfl
    obtain ⟨kinds, rest, hkinds, hfront, hback⟩ := List.map_eq_append_iff.1 he
    obtain ⟨front, back, rfl, rfl, rfl⟩ := List.map_eq_append_iff.1 hkinds
    obtain ⟨_, _, hrest, hkind, -⟩ := List.map_eq_cons_iff.1 hback
    obtain ⟨⟨kind, position⟩, back, rfl, rfl, -⟩ := List.map_eq_cons_iff.1 hrest
    obtain rfl : kind = .closer bracket := Except.ok.inj hkind
    exact absurd h' (Nested.not_append_closer (h.of_kinds (map_ok_injective hfront)))

/-- Where the enclosing bracket is closed, properly nested tokens end. -/
theorem Nested.kinds_eq (h : Nested tokens) (h' : Nested tokens')
    {after after' : List (Except ParseFault Kind)}
    (he : (tokens.map (·.kind)).map Except.ok ++ .ok (.closer bracket) :: after =
      (tokens'.map (·.kind)).map Except.ok ++ .ok (.closer bracket) :: after') :
    tokens.map (·.kind) = tokens'.map (·.kind) := by
  have hhead {c : Except ParseFault Kind} {more after after' : List (Except ParseFault Kind)}
      (he : .ok (.closer bracket) :: after = more ++ after') (hm : c ∈ more.head?) :
      c = .ok (.closer bracket) := by
    obtain ⟨more, rfl⟩ := List.head?_eq_some_iff.1 hm
    exact (List.cons.inj he).1.symm
  apply map_ok_injective
  -- one of the two goes on where the other has ended, and then with a closing bracket
  rcases List.append_eq_append_iff.1 he with ⟨more, hm, hrest⟩ | ⟨more, hm, hrest⟩
  · obtain rfl := h.eq_nil_of_append h' hm fun c => hhead hrest
    rw [hm, List.append_nil]
  · obtain rfl := h'.eq_nil_of_append h hm fun c => hhead hrest
    rw [hm, List.append_nil]

end Closed

end Token

namespace Value
variable {body body' : List Token} {r r' : List Char}

/-- What the lexemes of a quotation and of anything behind it are. -/
theorem exists_kinds_quotation (hb : Token.IsProgram body)
    (hf : ∀ x ∈ (quotation body).numbers, x.isFinite = true) (r : List Char) :
    ∃ after, (Token.lexemes ⟨1, 1⟩ ((quotation body).text ++ r)).map Token.Lexeme.kind? =
      .ok (.opener .brace) ::
        ((body.map (·.kind)).map Except.ok ++ .ok (.closer .brace) :: after) := by
  have hend : ∀ c ∈ (' ' :: '}' :: r).head?, Token.isNameChar c = false := by
    rintro c ⟨⟩
    decide
  obtain ⟨found, position, hl, hk⟩ := reads_opened hb hf ⟨1, 1⟩ (' ' :: '}' :: r) hend
  have htext : (quotation body).text ++ r =
      ('{' :: body.flatMap fun token => ' ' :: token.text) ++ ' ' :: '}' :: r := by
    rw [text]
    simp only [List.cons_append, List.append_assoc, List.nil_append]
  have hclose : Token.lexemes position (' ' :: '}' :: r) =
      ⟨'}', [], position.after ' '⟩ :: Token.lexemes ((position.after ' ').after '}') r := by
    rw [Token.lexemes, if_neg (by decide), if_pos (by decide), Token.lexemes, if_neg (by decide),
      if_neg (by decide), if_pos (by decide)]
  refine ⟨(Token.lexemes ((position.after ' ').after '}') r).map Token.Lexeme.kind?, ?_⟩
  rw [htext, hl, hclose, List.map_append, hk, List.map_cons, List.map_cons, List.cons_append]
  rfl

/-- The texts of quotations end at the partner of the first brace. -/
theorem quotation_append_inj (hb : Token.IsProgram body) (hb' : Token.IsProgram body')
    (hf : ∀ x ∈ (quotation body).numbers, x.isFinite = true)
    (hf' : ∀ x ∈ (quotation body').numbers, x.isFinite = true)
    (h : (quotation body).text ++ r = (quotation body').text ++ r') :
    (quotation body).unplaced = (quotation body').unplaced ∧ r = r' := by
  obtain ⟨after, hk⟩ := exists_kinds_quotation hb hf r
  obtain ⟨after', hk'⟩ := exists_kinds_quotation hb' hf' r'
  rw [h, hk'] at hk
  have hkinds := hb.nested.kinds_eq hb'.nested (List.cons.inj hk.symm).2
  have htext (body : List Token) : (quotation body).text =
      '{' :: (body.map (·.kind)).flatMap (fun kind => ' ' :: kind.text) ++ [' ', '}'] := by
    rw [text, List.flatMap_map]
    rfl
  rw [htext, htext, hkinds] at h
  exact ⟨by rw [unplaced, unplaced, Token.map_unplaced_of_kinds hkinds], List.append_cancel_left h⟩

/-! Values within others. -/

/-- What can follow an item: nothing, the next item, or the end of the sequence. -/
inductive EndsItem : List Char → Prop where
  | nothing : EndsItem []
  | next (rest : List Char) : EndsItem (',' :: ' ' :: rest)
  | last (rest : List Char) : EndsItem (']' :: rest)

/-- A text of the characters of names is told from what follows it, although a comma is one of them.
-/
theorem EndsItem.append_inj {name name' : List Char} (hr : EndsItem r) (hr' : EndsItem r')
    (hn : ∀ c ∈ name, Token.isNameChar c = true) (hn' : ∀ c ∈ name', Token.isNameChar c = true)
    (h : name ++ r = name' ++ r') : name = name' ∧ r = r' := by
  -- the first character that is no part of a name tells what follows
  have hdrop := congrArg (List.dropWhile Token.isNameChar) h
  rw [List.dropWhile_append_of_pos hn, List.dropWhile_append_of_pos hn'] at hdrop
  obtain rfl : r = r' := by
    have hcomma : Token.isNameChar ',' = true := by decide
    have hblank : ¬ Token.isNameChar ' ' = true := by decide
    have hbracket : ¬ Token.isNameChar ']' = true := by decide
    cases hr <;> cases hr' <;>
      simp only [List.dropWhile_nil, List.dropWhile_cons_of_pos hcomma,
        List.dropWhile_cons_of_neg hblank, List.dropWhile_cons_of_neg hbracket, List.cons.injEq,
        reduceCtorEq, Char.reduceEq, false_and, true_and] at hdrop
    · rfl
    · rw [hdrop]
    · rw [hdrop]
  exact ⟨List.append_cancel_right h, rfl⟩

/-- The first character of the text of a value that is not a number. -/
def mark : Value → Option Char
  | number _ => none
  | sequence _ => some '['
  | quotation _ => some '{'
  | reference _ => some Token.quoteMark

/-- No such character stands in the text of a number. -/
def isMark (c : Char) : Bool :=
  !Token.isNameChar c || c == Token.quoteMark

theorem filter_head?_text (v : Value) (r : List Char) :
    (v.text ++ r).head?.filter isMark = v.mark := by
  cases v with
  | number x =>
    obtain ⟨c, rest, hc⟩ := List.exists_cons_of_ne_nil (numberText_ne_nil x)
    obtain ⟨hname, hquote⟩ := isNameChar_of_mem_numberText (hc ▸ List.mem_cons_self)
    have hmark : isMark c = false := by
      rw [isMark, hname, Bool.not_true, Bool.false_or, beq_eq_false_iff_ne]
      exact hquote
    rw [text, hc, List.cons_append, List.head?_cons, Option.filter_some, hmark]
    rfl
  | sequence items =>
    rw [text]
    rfl
  | quotation body =>
    rw [text]
    rfl
  | reference name =>
    rw [text]
    rfl

/-- No item begins where the sequence ends. -/
theorem text_append_ne_closer (v : Value) (r r' : List Char) : v.text ++ r ≠ ']' :: r' := by
  intro h
  have hmark : v.mark = some ']' := by
    rw [← filter_head?_text v r, h]
    rfl
  cases v <;> simp [mark, Token.quoteMark] at hmark

/-- No quotation within the value has an infinite number among its tokens. -/
def FreeOfInfinity (v : Value) : Prop :=
  ∀ body, (quotation body).Within v → ∀ x ∈ (quotation body).numbers, x.isInf = false

theorem freeOfInfinity_quotation (h : ∀ x ∈ (quotation body).numbers, x.isInf = false) :
    (quotation body).FreeOfInfinity := by
  rintro _ ⟨⟩
  exact h

theorem WellFormed.of_within {v w : Value} (h : w.WellFormed) (hv : v.Within w) : v.WellFormed := by
  induction hv with
  | self => exact h
  | item hi _ ih => exact ih (wellFormed_sequence.1 h _ hi)

theorem FreeOfInfinity.item {items : List Value} (h : (sequence items).FreeOfInfinity)
    {item : Value} (hi : item ∈ items) : item.FreeOfInfinity :=
  fun body hb => h body (.item hi hb)

theorem isFinite_of_wellFormed (hw : (quotation body).WellFormed)
    (hf : (quotation body).FreeOfInfinity) :
    ∀ x ∈ (quotation body).numbers, x.isFinite = true := by
  intro x hx
  obtain ⟨token, ht, hk⟩ := List.mem_filterMap.1 hx
  have hkind : token.kind = .number x := by
    cases hkind : token.kind with
    | number y =>
      rw [hkind] at hk
      exact congrArg Token.Kind.number (Option.some.inj hk)
    | _ =>
      rw [hkind] at hk
      cases hk
  have hnumber : x.isNaN = false := by
    have hlegible := (wellFormed_quotation.1 hw).legible token ht
    rwa [hkind] at hlegible
  have hinf := hf body (.self _) x hx
  change x.toModel.unpack.isFinite = true
  change x.toModel.unpack.isNaN = false at hnumber
  change x.toModel.unpack.isInf = false at hinf
  cases hu : x.toModel.unpack with
  | notANumber =>
    rw [hu] at hnumber
    cases hnumber
  | infinity sign =>
    rw [hu] at hinf
    cases hinf
  | _ => rfl

/-- The text of the items that follow another. -/
def furtherText : List Value → List Char
  | [] => []
  | item :: rest => ',' :: ' ' :: itemsText (item :: rest)

theorem itemsText_cons (item : Value) (rest : List Value) :
    itemsText (item :: rest) = item.text ++ furtherText rest := by
  cases rest with
  | nil => rw [itemsText, furtherText, List.append_nil]
  | cons next rest => rw [itemsText, furtherText]

theorem endsItem_furtherText (items : List Value) (r : List Char) :
    EndsItem (furtherText items ++ ']' :: r) := by
  cases items with
  | nil => exact .last r
  | cons item rest => exact .next _

mutual

/-- Where an item can end, two values with the same text are the same. -/
theorem text_append_inj (v w : Value) {r r' : List Char} (hv : v.WellFormed) (hw : w.WellFormed)
    (hfv : v.FreeOfInfinity) (hfw : w.FreeOfInfinity) (hr : EndsItem r) (hr' : EndsItem r')
    (h : v.text ++ r = w.text ++ r') : v.unplaced = w.unplaced ∧ r = r' := by
  -- values of different kinds begin differently
  have hmark : v.mark = w.mark := by
    rw [← filter_head?_text v r, h, filter_head?_text]
  match v, w with
  | number x, number y =>
    rw [text, text] at h
    obtain ⟨ht, he⟩ := hr.append_inj hr' (fun c hc => (isNameChar_of_mem_numberText hc).1)
      (fun c hc => (isNameChar_of_mem_numberText hc).1) h
    exact ⟨by rw [numberText_injective ht], he⟩
  | reference name, reference name' =>
    rw [text, text] at h
    obtain ⟨ht, he⟩ := hr.append_inj hr' (wellFormed_reference.1 hv).chars
      (wellFormed_reference.1 hw).chars (List.cons.inj h).2
    exact ⟨by rw [String.ext ht], he⟩
  | quotation body, quotation body' =>
    exact quotation_append_inj (wellFormed_quotation.1 hv) (wellFormed_quotation.1 hw)
      (isFinite_of_wellFormed hv hfv) (isFinite_of_wellFormed hw hfw) h
  | sequence items, sequence items' =>
    rw [text, text] at h
    simp only [List.cons_append, List.append_assoc, List.nil_append, List.cons.injEq,
      true_and] at h
    obtain ⟨hitems, he⟩ := items_append_inj items items' (wellFormed_sequence.1 hv)
      (wellFormed_sequence.1 hw) (fun _ => hfv.item) (fun _ => hfw.item) h
    exact ⟨by rw [unplaced, unplaced, hitems], he⟩
  | number _, sequence _ | number _, quotation _ | number _, reference _
  | sequence _, number _ | sequence _, quotation _ | sequence _, reference _
  | quotation _, number _ | quotation _, sequence _ | quotation _, reference _
  | reference _, number _ | reference _, sequence _ | reference _, quotation _ =>
    exact absurd hmark (by simp [mark, Token.quoteMark])

/-- The text of items ends at the first closing bracket that is no part of one of them. -/
theorem items_append_inj (items items' : List Value) {r r' : List Char}
    (hv : ∀ item ∈ items, item.WellFormed) (hw : ∀ item ∈ items', item.WellFormed)
    (hfv : ∀ item ∈ items, item.FreeOfInfinity) (hfw : ∀ item ∈ items', item.FreeOfInfinity)
    (h : itemsText items ++ ']' :: r = itemsText items' ++ ']' :: r') :
    unplacedItems items = unplacedItems items' ∧ r = r' := by
  match items, items' with
  | [], [] => exact ⟨rfl, (List.cons.inj h).2⟩
  | [], item :: rest =>
    rw [itemsText_cons, List.append_assoc] at h
    exact absurd h.symm (text_append_ne_closer _ _ _)
  | item :: rest, [] =>
    rw [itemsText_cons, List.append_assoc] at h
    exact absurd h (text_append_ne_closer _ _ _)
  | item :: rest, item' :: rest' =>
    obtain ⟨hv, hvs⟩ := List.forall_mem_cons.1 hv
    obtain ⟨hw, hws⟩ := List.forall_mem_cons.1 hw
    obtain ⟨hfv, hfvs⟩ := List.forall_mem_cons.1 hfv
    obtain ⟨hfw, hfws⟩ := List.forall_mem_cons.1 hfw
    rw [itemsText_cons, itemsText_cons, List.append_assoc, List.append_assoc] at h
    obtain ⟨hitem, hfurther⟩ := text_append_inj item item' hv hw hfv hfw
      (endsItem_furtherText rest r) (endsItem_furtherText rest' r') h
    -- behind the first items both sequences go on with a comma, or both end
    obtain ⟨hrest, he⟩ : unplacedItems rest = unplacedItems rest' ∧ r = r' := by
      match rest, rest' with
      | [], [] => exact ⟨rfl, (List.cons.inj hfurther).2⟩
      | [], _ :: _ => cases (List.cons.inj hfurther).1
      | _ :: _, [] => cases (List.cons.inj hfurther).1
      | next :: rest, next' :: rest' =>
        exact items_append_inj (next :: rest) (next' :: rest') hvs hws hfvs hfws
          (List.cons.inj (List.cons.inj hfurther).2).2
    exact ⟨by rw [unplacedItems, unplacedItems, hitem, hrest], he⟩

end

end Value

/-- Two values that sessions which hosts can come by have on their stacks, or within sequences
there, and whose quotations hold no infinite number, are the same when their texts are, but for
where their tokens once stood. -/
theorem render_injective {s t : Session} (hs : s.Reachable) (ht : t.Reachable)
    {top top' v w : Value} (htop : top ∈ s.stack.values) (htop' : top' ∈ t.stack.values)
    (hv : v.Within top) (hw : w.Within top') (hfv : v.FreeOfInfinity) (hfw : w.FreeOfInfinity)
    (h : v.render = w.render) : v.unplaced = w.unplaced :=
  (Value.text_append_inj v w ((hs.wellFormed.stack top htop).of_within hv)
    ((ht.wellFormed.stack top' htop').of_within hw) hfv hfw .nothing .nothing
    (by rw [String.ofList_injective h])).1

/-- The tokens of `sampleBody` with two blanks in front of each. -/
def spreadBody : List Token :=
  [⟨.word "dup", ⟨1, 4⟩⟩, ⟨.quoted "x", ⟨1, 9⟩⟩, ⟨.number (-2.5), ⟨1, 13⟩⟩]

/-- One quotation, typed in two ways. -/
theorem render_injective_spread :
    (Value.quotation sampleBody).render = (Value.quotation spreadBody).render ∧
      (Value.quotation sampleBody).unplaced = (Value.quotation spreadBody).unplaced := by
  have hs : (Session.bare.perform (.load "{ dup ,x -2.5 }")).2.stack.values =
      [.quotation sampleBody] := by
    decide +kernel
  have ht : (Session.bare.perform (.load "{  dup  ,x  -2.5 }")).2.stack.values =
      [.quotation spreadBody] := by
    decide +kernel
  have hrender : (Value.quotation sampleBody).render = (Value.quotation spreadBody).render := by
    decide +kernel
  exact ⟨hrender, render_injective (.perform (.load "{ dup ,x -2.5 }") .bare)
    (.perform (.load "{  dup  ,x  -2.5 }") .bare) (hs ▸ List.mem_singleton_self _)
    (ht ▸ List.mem_singleton_self _) (.self _) (.self _)
    (Value.freeOfInfinity_quotation (by decide +kernel))
    (Value.freeOfInfinity_quotation (by decide +kernel)) hrender⟩

/-- An infinite number among the tokens looks like a word. -/
example : (Value.quotation [⟨.number (1 / 0), {}⟩]).render =
    (Value.quotation [⟨.word "inf", {}⟩]).render := by
  decide +kernel

end StackCalc
