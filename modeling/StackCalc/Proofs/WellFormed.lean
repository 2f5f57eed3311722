import StackCalc.Proofs.Literals
import StackCalc.Proofs.Outcome
import StackCalc.Session

/-!
What the reader guarantees of tokens, and what it is to hold of all tokens and names that a session
stores: brackets are properly nested, and names can be written down and read back.
-/
namespace StackCalc

namespace Token

/-- A name that can stand in a text. -/
structure IsName (name : String) : Prop where
  nonempty : name.toList ≠ []
  chars : ∀ c ∈ name.toList, isNameChar c = true

/-- The token reads as itself: its name can stand in a text, and a word neither looks like a number
nor starts with a quote mark. What is not a number cannot be written as one. -/
def Kind.IsLegible : Kind → Prop
  | .number value => value.isNaN = false
  | .quoted name => IsName name
  | .word name =>
    IsName name ∧ name.toList.head? ≠ some quoteMark ∧ Literal.read? name.toList = none
  | _ => True

/-- Tokens as the reader makes them. -/
structure IsProgram (tokens : List Token) : Prop where
  nested : Nested tokens
  legible : ∀ token ∈ tokens, token.kind.IsLegible

section Reader
variable {p : Piece} {text : List Char}

theorem Piece.IsRun.isName (h : p.IsRun) {content : List Char} (hne : content ≠ [])
    (hc : ∀ c ∈ content, c ∈ p.content) : IsName (String.ofList content) := by
  constructor
  · rwa [String.toList_ofList]
  · rw [String.toList_ofList]
    exact fun c hmem => h.names c (hc c hmem)

theorem Piece.IsBracket.isLegible (h : p.IsBracket) : p.kind.IsLegible := by
  obtain ⟨c, hc, hs⟩ := h.single
  simp only [isBracket, Bool.or_eq_true, decide_eq_true_eq] at hc
  rw [Piece.kind, hs]
  rcases hc with ((rfl | rfl) | rfl) | rfl <;> trivial

theorem Piece.IsRun.isLegible (h : p.IsRun) (hl : ¬ p.IsLone) : p.kind.IsLegible := by
  unfold Piece.kind
  split
  next => trivial
  next => trivial
  next => trivial
  next => trivial
  next name hc =>
    have hne : name ≠ [] := by
      rintro rfl
      exact hl hc
    exact h.isName hne fun c hmem => hc ▸ List.mem_cons_of_mem _ hmem
  next hq =>
    split
    next hr => exact Literal.isNaN_of_read? hr
    next hr =>
      refine ⟨h.isName h.nonempty fun _ => id, ?_, ?_⟩
      · rw [String.toList_ofList]
        intro hhead
        obtain ⟨name, hc⟩ := List.head?_eq_some_iff.1 hhead
        exact hq name hc
      · rwa [String.toList_ofList]

end Reader

theorem isProgram_of_tokenize {source : String} {tokens : List Token}
    (h : tokenize source = .ok tokens) : IsProgram tokens := by
  obtain ⟨pieces, hp, hm⟩ := exists_piecesOf source.toList
  obtain ⟨hl, rfl, hn⟩ := tokens_of_tokenize hp hm h
  refine ⟨hn, fun token hmem => ?_⟩
  obtain ⟨p, hpiece, rfl⟩ := List.mem_map.1 hmem
  rcases ((hp.complete p).1 hpiece).kind with hr | hb
  · exact hr.isLegible (hl p hpiece)
  · exact hb.isLegible

section Program
variable {bracket : Bracket} {p : Text.Position} {token : Token} {rest : List Token}

theorem IsProgram.head (h : IsProgram (token :: rest)) : token.kind.IsLegible :=
  h.legible token List.mem_cons_self

theorem IsProgram.of_plain (h : IsProgram (token :: rest)) (hk : token.kind.isBracket = false) :
    IsProgram rest :=
  ⟨h.nested.of_plain hk, fun t ht => h.legible t (List.mem_cons_of_mem _ ht)⟩

theorem IsProgram.splitAtCloser (h : IsProgram (⟨.opener bracket, p⟩ :: rest)) :
    ∃ body after, Token.splitAtCloser 0 rest = some (body, after) ∧ IsProgram body ∧
      IsProgram after := by
  obtain ⟨body, q, after, rfl, hb, ha, hs⟩ := h.nested.splitAtCloser
  refine ⟨body, after, hs, ⟨hb, fun t ht => ?_⟩, ⟨ha, fun t ht => ?_⟩⟩
  · exact h.legible t (List.mem_cons_of_mem _ (List.mem_append_left _ ht))
  · exact h.legible t (List.mem_cons_of_mem _ (List.mem_append_right _ (List.mem_cons_of_mem _ ht)))

end Program

end Token

namespace Value

/-- The first value is the second one, or occurs somewhere in it. -/
inductive Within : Value → Value → Prop
  | self (v : Value) : Within v v
  | item {v item : Value} {items : List Value} : item ∈ items → Within v item →
      Within v (.sequence items)

/-- The value itself, whatever its items are, can be written down and read back. -/
def IsLegible : Value → Prop
  | .quotation body => Token.IsProgram body
  | .reference name => Token.IsName name
  | _ => True

/-- All that occurs in the value can be written down and read back. -/
def WellFormed (v : Value) : Prop :=
  ∀ w : Value, w.Within v → w.IsLegible

theorem wellFormed_number (x : Float) : (number x).WellFormed := by
  rintro w ⟨⟩
  trivial

theorem wellFormed_quotation {body : List Token} :
    (quotation body).WellFormed ↔ Token.IsProgram body := by
  refine ⟨fun h => h _ (.self _), ?_⟩
  rintro h w ⟨⟩
  exact h

theorem wellFormed_reference {name : String} : (reference name).WellFormed ↔ Token.IsName name := by
  refine ⟨fun h => h _ (.self _), ?_⟩
  rintro h w ⟨⟩
  exact h

theorem wellFormed_sequence {items : List Value} :
    (sequence items).WellFormed ↔ ∀ item ∈ items, item.WellFormed := by
  constructor
  · intro h item hi w hw
    exact h w (.item hi hw)
  · intro h w hw
    cases hw with
    | self => trivial
    | item hi hw => exact h _ hi w hw

end Value

/-- All values of the stack are well formed. -/
def Stack.WellFormed (s : Stack) : Prop :=
  ∀ v ∈ s.values, v.WellFormed

/-- All bound names and all the tokens that they stand for are such as the reader makes. -/
structure Dictionary.WellFormed (d : Dictionary) : Prop where
  names : ∀ {name definition}, d.lookup? name = some definition → Token.IsName name
  bodies : ∀ {name body}, d.lookup? name = some (.user body) → Token.IsProgram body

/-- Whatever the session stores is well formed, also the stacks that scopes have set aside. -/
structure Session.WellFormed (s : Session) : Prop where
  stack : s.stack.WellFormed
  enclosing : ∀ outer ∈ s.enclosing, outer.WellFormed
  dictionary : s.dictionary.WellFormed

namespace Stack
variable {s t : Stack} {value : Value}

theorem wellFormed_empty : empty.WellFormed :=
  List.forall_mem_nil _

theorem WellFormed.pushed (h : s.WellFormed) (hv : value.WellFormed) :
    (s.pushed value).WellFormed :=
  List.forall_mem_cons.2 ⟨hv, h⟩

theorem WellFormed.of_subset (h : s.WellFormed) (hs : ∀ v ∈ t.values, v ∈ s.values) :
    t.WellFormed :=
  fun v hv => h v (hs v hv)

theorem WellFormed.pop (h : s.WellFormed) (hp : Stack.pop s = .ok value t) :
    value.WellFormed ∧ t.WellFormed := by
  cases hs : s.values with
  | nil =>
    rw [pop_of_nil hs] at hp
    cases hp
  | cons top rest =>
    obtain ⟨u, hu, hv, -⟩ := pop_of_cons hs
    rw [hu] at hp
    cases hp
    refine ⟨h value (by rw [hs]; exact List.mem_cons_self), h.of_subset fun v hm => ?_⟩
    rw [hs]
    exact List.mem_cons_of_mem _ (hv ▸ hm)

theorem mem_of_mem_bringToFront {places : Nat} {values : List Value} {v : Value}
    (h : v ∈ bringToFront places values) : v ∈ values := by
  unfold bringToFront at h
  split at h
  next top ht =>
    rcases List.mem_cons.1 h with rfl | hm
    · exact List.mem_of_getElem? ht
    · exact List.mem_of_mem_eraseIdx hm
  next => exact h

end Stack

namespace Dictionary
variable {d e : Dictionary} {name source : String}

theorem WellFormed.define (h : d.WellFormed) {body : List Token} (hn : Token.IsName name)
    (hb : Token.IsProgram body) : (d.define name (.user body)).WellFormed := by
  constructor
  · intro word definition hl
    rw [lookup?_define] at hl
    split at hl
    next hw => exact hw ▸ hn
    next => exact h.names hl
  · intro word tokens hl
    rw [lookup?_define] at hl
    split at hl
    next => cases hl; exact hb
    next => exact h.bodies hl

theorem WellFormed.addAlias (h : d.WellFormed) (hn : Token.IsName name)
    (ha : d.addAlias name source = .ok e) : e.WellFormed := by
  constructor
  · intro word definition hl
    rw [lookup?_addAlias ha] at hl
    split at hl
    next hw => exact hw ▸ hn
    next => exact h.names hl
  · intro word tokens hl
    rw [lookup?_addAlias ha] at hl
    split at hl
    next => exact h.bodies hl
    next => exact h.bodies hl

/-- The words of a new session are the primitives under their own names. -/
theorem exists_primitive_of_lookup? {definition : Definition}
    (h : primitives.lookup? name = some definition) :
    ∃ operation : Primitive, operation.name = name ∧ .primitive operation = definition := by
  have hfold (operations : List Primitive) (bound : Std.TreeMap String Definition)
      (hb : ∀ k d, bound[k]? = some d →
        ∃ operation : Primitive, operation.name = k ∧ .primitive operation = d)
      (k : String) (d : Definition)
      (hl : (operations.foldl (fun bound operation =>
        bound.insert operation.name (.primitive operation)) bound)[k]? = some d) :
      ∃ operation : Primitive, operation.name = k ∧ .primitive operation = d := by
    induction operations generalizing bound with
    | nil => exact hb k d hl
    | cons operation rest ih =>
      refine ih _ (fun k d hk => ?_) hl
      rw [Std.TreeMap.getElem?_insert] at hk
      split at hk
      next hc => exact ⟨operation, Std.LawfulEqCmp.eq_of_compare hc, Option.some.inj hk⟩
      next => exact hb k d hk
  exact hfold Primitive.all ∅ (by simp) name definition h

theorem wellFormed_primitives : primitives.WellFormed := by
  constructor
  · intro name definition h
    obtain ⟨operation, rfl, -⟩ := exists_primitive_of_lookup? h
    cases operation <;> exact ⟨by decide, List.all_eq_true.1 (by decide)⟩
  · intro name body h
    obtain ⟨operation, -, hd⟩ := exists_primitive_of_lookup? h
    cases hd

end Dictionary

end StackCalc
