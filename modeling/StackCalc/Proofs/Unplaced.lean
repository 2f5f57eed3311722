import StackCalc.Proofs.Nesting
import StackCalc.Session

/-!
What is left when the places of tokens are left out. Values, sessions and results are the same but
for places if they store tokens of the same kinds.
-/
namespace StackCalc

def Token.unplaced (token : Token) : Token :=
  ⟨token.kind, {}⟩

theorem Token.map_unplaced_of_kinds {tokens tokens' : List Token}
    (h : tokens.map (·.kind) = tokens'.map (·.kind)) :
    tokens.map unplaced = tokens'.map unplaced := by
  have hcomp := congrArg (List.map fun kind => (⟨kind, {}⟩ : Token)) h
  rwa [List.map_map, List.map_map] at hcomp

/-- Places do not matter for nesting. -/
theorem Token.Nested.of_kinds {tokens tokens' : List Token} (h : Nested tokens)
    (hk : tokens'.map (·.kind) = tokens.map (·.kind)) : Nested tokens' := by
  induction h generalizing tokens' with
  | nil => exact List.map_eq_nil_iff.1 hk ▸ .nil
  | plain hb _ ih =>
    obtain ⟨token, rest, rfl, hkind, hkinds⟩ := List.map_eq_cons_iff.1 hk
    exact .plain (hkind ▸ hb) (ih hkinds)
  | enclosed _ _ ihi ihr =>
    obtain ⟨⟨_, p⟩, tail, rfl, rfl, htail⟩ := List.map_eq_cons_iff.1 hk
    rw [List.map_append] at htail
    obtain ⟨inner, after, rfl, hinner, hafter⟩ := List.map_eq_append_iff.1 htail
    obtain ⟨⟨_, q⟩, rest, rfl, rfl, hrest⟩ := List.map_eq_cons_iff.1 hafter
    exact .enclosed (ihi hinner) (ihr hrest)

namespace Value

mutual

/-- The value with all its tokens at one place. -/
def unplaced : Value → Value
  | number x => number x
  | sequence items => sequence (unplacedItems items)
  | quotation body => quotation (body.map Token.unplaced)
  | reference name => reference name

def unplacedItems : List Value → List Value
  | [] => []
  | item :: rest => item.unplaced :: unplacedItems rest

end

theorem unplacedItems_eq_map (items : List Value) : unplacedItems items = items.map unplaced := by
  induction items with
  | nil => rfl
  | cons item rest ih => rw [unplacedItems, ih, List.map_cons]

end Value

def Definition.unplaced : Definition → Definition
  | .primitive operation => .primitive operation
  | .user body => .user (body.map Token.unplaced)

def Stack.unplaced (s : Stack) : Stack where
  values := s.values.map Value.unplaced
  height := s.height
  mark := s.mark
  height_eq := by rw [List.length_map, s.height_eq]

/-- The dictionaries bind the same words to the same meanings but for places, and they list the same
aliases. -/
structure Dictionary.SameUnplaced (d d' : Dictionary) : Prop where
  lookup : ∀ name,
    (d'.lookup? name).map Definition.unplaced = (d.lookup? name).map Definition.unplaced
  aliases : ∀ source, d'.aliasesOf source = d.aliasesOf source

/-- The sessions differ only in the places of tokens that they store. -/
structure Session.SameUnplaced (s s' : Session) : Prop where
  settings : s'.settings = s.settings
  dictionary : s.dictionary.SameUnplaced s'.dictionary
  stack : s'.stack.unplaced = s.stack.unplaced
  enclosing : s'.enclosing.map Stack.unplaced = s.enclosing.map Stack.unplaced
  depth : s'.depth = s.depth
  input : s'.input = s.input
  output : s'.output = s.output

theorem Session.SameUnplaced.refl (s : Session) : s.SameUnplaced s where
  settings := rfl
  dictionary := ⟨fun _ => rfl, fun _ => rfl⟩
  stack := rfl
  enclosing := rfl
  depth := rfl
  input := rfl
  output := rfl

/-- The results are values that `Q` relates or one and the same error, and the sessions that are
left differ in places only. -/
inductive SameResult {α : Type} (Q : α → α → Prop) :
    EStateM.Result EvalError Session α → EStateM.Result EvalError Session α → Prop where
  | ok {a a' : α} {t t' : Session} : Q a a' → t.SameUnplaced t' → SameResult Q (.ok a t) (.ok a' t')
  | error {e : EvalError} {t t' : Session} :
      t.SameUnplaced t' → SameResult Q (.error e t) (.error e t')

namespace Dictionary
variable {d d' e : Dictionary} {name source : String}

/-- What a new meaning of `name` leaves of the aliases of a word. -/
def aliasesWithout (d : Dictionary) (name source : String) : List String :=
  if name = source then [] else (d.aliasesOf source).filter (· ≠ name)

theorem aliases_linksWithout (d : Dictionary) (name source : String) :
    ((d.linksWithout name).filter (·.source = source)).map (·.name) =
      d.aliasesWithout name source := by
  rw [linksWithout, aliasesWithout, aliasesOf, List.filter_filter, List.filter_map,
    List.filter_filter]
  split
  next heq =>
    rw [List.map_eq_nil_iff, List.filter_eq_nil_iff]
    intro link _ hkept
    simp only [Bool.and_eq_true, decide_eq_true_eq] at hkept
    exact hkept.2.2 (hkept.1.trans heq.symm)
  next hne =>
    congr 1
    apply List.filter_congr
    intro link _
    by_cases hs : link.source = source
    · simp [hs, Ne.symm hne]
    · simp [hs]

theorem aliasesOf_define (d : Dictionary) (name : String) (definition : Definition)
    (source : String) :
    (d.define name definition).aliasesOf source = d.aliasesWithout name source :=
  aliases_linksWithout d name source

/-- An alias of another word comes last among the aliases of that word. -/
theorem aliasesOf_addAlias (h : d.addAlias name source = .ok e) (hne : name ≠ source)
    (word : String) :
    e.aliasesOf word = d.aliasesWithout name word ++ if source = word then [name] else [] := by
  rw [addAlias] at h
  cases hs : d.lookup? source with
  | none =>
    rw [hs] at h
    cases h
  | some definition =>
    simp only [hs, if_neg hne] at h
    cases h
    rw [aliasesOf, List.filter_append, List.map_append, aliases_linksWithout]
    by_cases hw : source = word
    · simp [hw]
    · simp [hw]

theorem SameUnplaced.aliasesWithout (h : d.SameUnplaced d') (name source : String) :
    d'.aliasesWithout name source = d.aliasesWithout name source := by
  rw [Dictionary.aliasesWithout, Dictionary.aliasesWithout, h.aliases]

theorem SameUnplaced.define (h : d.SameUnplaced d') (name : String)
    {definition definition' : Definition} (hd : definition'.unplaced = definition.unplaced) :
    (d.define name definition).SameUnplaced (d'.define name definition') where
  lookup word := by
    rw [lookup?_define, lookup?_define]
    split
    · rw [Option.map_some, Option.map_some, hd]
    · exact h.lookup word
  aliases source := by
    rw [aliasesOf_define, aliasesOf_define, h.aliasesWithout]

theorem SameUnplaced.addAlias (h : d.SameUnplaced d') (he : d.addAlias name source = .ok e) :
    ∃ e', d'.addAlias name source = .ok e' ∧ e.SameUnplaced e' := by
  have hs := h.lookup source
  cases hd : d.lookup? source with
  | none =>
    simp only [Dictionary.addAlias, hd] at he
    cases he
  | some definition =>
    obtain ⟨definition', hd', -⟩ : ∃ definition', d'.lookup? source = some definition' ∧
        definition'.unplaced = definition.unplaced := by
      rw [hd] at hs
      exact Option.map_eq_some_iff.1 hs
    by_cases hne : name = source
    · -- an alias of itself changes neither dictionary
      simp only [Dictionary.addAlias, hd, if_pos hne] at he
      cases he
      refine ⟨d', ?_, h⟩
      simp only [Dictionary.addAlias, hd', if_pos hne]
    · obtain ⟨e', he'⟩ : ∃ e', d'.addAlias name source = .ok e' := by
        simp only [Dictionary.addAlias, hd', if_neg hne]
        exact ⟨_, rfl⟩
      refine ⟨e', he', fun word => ?_, fun word => ?_⟩
      · rw [lookup?_addAlias he, lookup?_addAlias he']
        split
        · exact hs
        · exact h.lookup word
      · rw [aliasesOf_addAlias he hne, aliasesOf_addAlias he' hne, h.aliasesWithout]

end Dictionary

end StackCalc
