import Mathlib.Data.List.Induction
import StackCalc.Dictionary

/-!
What a dictionary keeps of its history. A word means what the last change that bound it gave it, and
an alias is listed under its source as long as neither of the two has been bound anew. So the
history alone decides all that can be looked up and all that is listed.
-/
namespace StackCalc

/-- A change of what words mean: a definition, or an alias. -/
inductive Change where
  | define (name : String) (definition : Definition)
  | addAlias (name source : String)
  deriving DecidableEq

/-- The link that the change leaves behind if it can be made. -/
def Change.links : Change → List AliasLink
  | .define _ _ => []
  | .addAlias name source => [⟨name, source⟩]

namespace Dictionary

/-- Makes the change, if it can be made. -/
def change (d : Dictionary) : Change → Except ErrorKind Dictionary
  | .define name definition => .ok (d.define name definition)
  | .addAlias name source => d.addAlias name source

/-- The dictionary after the change, which is the same if the change cannot be made. -/
def changed (d : Dictionary) (c : Change) : Dictionary :=
  match d.change c with
  | .ok e => e
  | .error _ => d

/-- The dictionary after changes that are made one after another. -/
def changedAll (d : Dictionary) (history : List Change) : Dictionary :=
  history.foldl changed d

/-- The definition that the change gives to the word that it binds: for an alias, the one that the
source has at that moment. -/
def given? (d : Dictionary) : Change → Option Definition
  | .define _ definition => some definition
  | .addAlias _ source => d.lookup? source

/-- The change binds the word. -/
def Binds (name : String) (d : Dictionary) : Change → Prop
  | .define bound _ => bound = name
  | .addAlias bound source => bound = name ∧ d.contains source = true

/-- The change binds the word, and not just to what it means already as an alias of itself. -/
def Rebinds (name : String) (d : Dictionary) (c : Change) : Prop :=
  d.Binds name c ∧ c ≠ .addAlias name name

/-- `P` holds of none of the changes and the dictionary that it is made to. -/
def Never (d : Dictionary) (P : Dictionary → Change → Prop) (history : List Change) : Prop :=
  ∀ before c later, history = before ++ c :: later → ¬ P (d.changedAll before) c

/-- The change `c`, which comes after `before`, is the last one of which `P` holds. -/
def IsLast (d : Dictionary) (P : Dictionary → Change → Prop) (history before : List Change)
    (c : Change) : Prop :=
  ∃ later, history = before ++ c :: later ∧ P (d.changedAll before) c ∧
    (d.changedAll (before ++ [c])).Never P later

/-- The alias that was made after `before` still stands: it is the last binding of the name, and the
source has not been bound anew since. -/
structure Stands (d : Dictionary) (history before : List Change) (name source : String) :
    Prop where
  ne : name ≠ source
  last : d.IsLast (Rebinds name) history before (.addAlias name source)
  source : ∀ later, history = before ++ .addAlias name source :: later →
    (d.changedAll (before ++ [.addAlias name source])).Never (Rebinds source) later

/-- The listing has the name among the aliases of the source. -/
def Lists (d : Dictionary) (source name : String) : Prop :=
  ∃ aliases, (source, aliases) ∈ d.words ∧ name ∈ aliases

section Change
variable {d : Dictionary} {c : Change} {name source word : String} {definition : Definition}

theorem contains_eq_isSome (d : Dictionary) (name : String) :
    d.contains name = (d.lookup? name).isSome :=
  Std.TreeMap.contains_eq_isSome_getElem?

theorem addAlias_of_unbound (h : d.lookup? source = none) :
    d.addAlias name source = .error (.unknownWord source) := by
  rw [addAlias, h]

theorem changed_of_unbound (h : d.lookup? source = none) :
    d.changed (.addAlias name source) = d := by
  rw [changed, change, addAlias_of_unbound h]

theorem changed_self (h : d.lookup? name = some definition) :
    d.changed (.addAlias name name) = d := by
  simp only [changed, change, addAlias, h, if_true]

theorem changed_addAlias (h : d.lookup? source = some definition) (hne : name ≠ source) :
    d.changed (.addAlias name source) =
      { definitions := d.definitions.insert name definition
        links := d.linksWithout name ++ [⟨name, source⟩] } := by
  simp only [changed, change, addAlias, h, if_neg hne]

theorem lookup?_changed_of_binds (h : d.Binds word c) :
    (d.changed c).lookup? word = d.given? c := by
  cases c with
  | define bound definition =>
    obtain rfl : bound = word := h
    exact (lookup?_define d bound definition bound).trans (if_pos rfl)
  | addAlias bound source =>
    obtain ⟨rfl, hs⟩ := h
    rw [contains_eq_isSome, Option.isSome_iff_exists] at hs
    obtain ⟨definition, hs⟩ := hs
    obtain ⟨e, he⟩ : ∃ e, d.addAlias bound source = .ok e := by
      simp only [addAlias, hs]
      split <;> exact ⟨_, rfl⟩
    rw [changed, change, he, lookup?_addAlias he, if_pos rfl, given?]

theorem lookup?_changed_of_not_binds (h : ¬ d.Binds word c) :
    (d.changed c).lookup? word = d.lookup? word := by
  cases c with
  | define bound definition =>
    exact (lookup?_define d bound definition word).trans (if_neg h)
  | addAlias bound source =>
    cases hs : d.lookup? source with
    | none => rw [changed_of_unbound hs]
    | some definition =>
      have hb : bound ≠ word := by
        rintro rfl
        exact h ⟨rfl, by rw [contains_eq_isSome, hs, Option.isSome_some]⟩
      obtain ⟨e, he⟩ : ∃ e, d.addAlias bound source = .ok e := by
        simp only [addAlias, hs]
        split <;> exact ⟨_, rfl⟩
      rw [changed, change, he, lookup?_addAlias he, if_neg hb]

theorem lookup?_changed_of_not_rebinds (h : ¬ d.Rebinds word c) :
    (d.changed c).lookup? word = d.lookup? word := by
  by_cases hb : d.Binds word c
  · -- an alias of itself gives a word the meaning that it has
    obtain rfl : c = .addAlias word word := by
      by_contra hc
      exact h ⟨hb, hc⟩
    exact lookup?_changed_of_binds hb
  · exact lookup?_changed_of_not_binds hb

/-- What a change does to the links. Either it binds no word anew and all is as before; or it binds
one word, the links that mention it are gone, and the alias that it made comes last. -/
theorem changed_cases (d : Dictionary) (c : Change) :
    ((∀ word, ¬ d.Rebinds word c) ∧ d.changed c = d) ∨
      ∃ name, (∀ word, d.Rebinds word c ↔ word = name) ∧
        (∀ link ∈ c.links, link.name = name ∧ link.source ≠ name ∧
          d.contains link.source = true) ∧
        (d.changed c).links = d.linksWithout name ++ c.links := by
  cases c with
  | define bound definition =>
    refine .inr ⟨bound, fun word => ⟨fun h => h.1.symm, ?_⟩, List.forall_mem_nil _, ?_⟩
    · rintro rfl
      exact ⟨rfl, nofun⟩
    · exact (List.append_nil _).symm
  | addAlias bound source =>
    cases hs : d.lookup? source with
    | none =>
      refine .inl ⟨fun word h => ?_, changed_of_unbound hs⟩
      have hc := h.1.2
      rw [contains_eq_isSome, hs] at hc
      cases hc
    | some definition =>
      have hc : d.contains source = true := by rw [contains_eq_isSome, hs, Option.isSome_some]
      by_cases hne : bound = source
      · subst hne
        refine .inl ⟨?_, changed_self hs⟩
        rintro word ⟨⟨rfl, -⟩, hself⟩
        exact hself rfl
      · refine .inr ⟨bound, fun word => ⟨fun h => h.1.1.symm, ?_⟩, ?_, ?_⟩
        · rintro rfl
          refine ⟨⟨rfl, hc⟩, fun h => hne ?_⟩
          exact (Change.addAlias.inj h).2.symm
        · intro link hl
          obtain rfl := List.mem_singleton.1 hl
          exact ⟨rfl, Ne.symm hne, hc⟩
        · rw [changed_addAlias hs hne]
          rfl

theorem mem_linksWithout {link : AliasLink} :
    link ∈ d.linksWithout name ↔ link ∈ d.links ∧ link.name ≠ name ∧ link.source ≠ name := by
  simp [linksWithout]

/-- A link is there after the change if it was there and neither of its words was bound anew, or if
the change has made it. -/
theorem mem_links_changed (d : Dictionary) (c : Change) (link : AliasLink) :
    link ∈ (d.changed c).links ↔
      (link ∈ d.links ∧ ¬ d.Rebinds link.name c ∧ ¬ d.Rebinds link.source c) ∨
        (c = .addAlias link.name link.source ∧ link.name ≠ link.source ∧
          d.Rebinds link.name c) := by
  rcases changed_cases d c with ⟨hnone, heq⟩ | ⟨name, hname, hmade, hlinks⟩
  · rw [heq]
    constructor
    · exact fun h => .inl ⟨h, hnone _, hnone _⟩
    · rintro (⟨h, -, -⟩ | ⟨-, -, h⟩)
      · exact h
      · exact absurd h (hnone _)
  · rw [hlinks, List.mem_append, mem_linksWithout, hname, hname]
    refine or_congr Iff.rfl ⟨fun h => ?_, ?_⟩
    · obtain ⟨hn, hs, -⟩ := hmade link h
      refine ⟨?_, fun he => hs (he.symm.trans hn), hn⟩
      cases c with
      | define bound definition => cases h
      | addAlias bound source => rw [List.mem_singleton.1 h]
    · rintro ⟨rfl, -, -⟩
      exact List.mem_singleton_self _

end Change

/-! Histories, taken apart at their last change. -/

section History
variable {d : Dictionary} {P : Dictionary → Change → Prop} {history before before' : List Change}
  {c c' : Change} {name source : String}

theorem changedAll_concat (d : Dictionary) (history : List Change) (c : Change) :
    d.changedAll (history ++ [c]) = (d.changedAll history).changed c :=
  List.foldl_append

theorem changedAll_append (d : Dictionary) (history later : List Change) :
    d.changedAll (history ++ later) = (d.changedAll history).changedAll later :=
  List.foldl_append

/-- A change within a longer history is the last one of it, or is within what comes before. -/
theorem concat_eq_append_cons {later : List Change} (h : history ++ [c] = before ++ c' :: later) :
    (later = [] ∧ before = history ∧ c' = c) ∨
      ∃ later', later = later' ++ [c] ∧ history = before ++ c' :: later' := by
  rcases List.eq_nil_or_concat later with rfl | ⟨later', last, rfl⟩
  · obtain ⟨rfl, hc⟩ := List.append_inj' h rfl
    exact .inl ⟨rfl, rfl, (List.cons.inj hc).1.symm⟩
  · rw [List.concat_eq_append, ← List.cons_append, ← List.append_assoc] at h
    obtain ⟨rfl, hc⟩ := List.append_inj' h rfl
    rw [List.concat_eq_append]
    exact .inr ⟨later', by rw [(List.cons.inj hc).1], rfl⟩

theorem never_nil (d : Dictionary) (P : Dictionary → Change → Prop) : d.Never P [] := by
  intro before c later h
  cases (List.append_eq_nil_iff.1 h.symm).2

theorem never_concat :
    d.Never P (history ++ [c]) ↔ d.Never P history ∧ ¬ P (d.changedAll history) c := by
  constructor
  · intro h
    refine ⟨fun before c' later he => h before c' (later ++ [c]) ?_, h history c [] rfl⟩
    rw [he, List.append_assoc, List.cons_append]
  · rintro ⟨hn, hc⟩ before c' later he
    rcases concat_eq_append_cons he with ⟨-, rfl, rfl⟩ | ⟨later', -, rfl⟩
    · exact hc
    · exact hn before c' later' rfl

theorem not_isLast_nil : ¬ d.IsLast P [] before c := by
  rintro ⟨later, h, -⟩
  cases (List.append_eq_nil_iff.1 h.symm).2

/-- The last such change is the last change, or it is the last one before and the last change is
not such a one. -/
theorem isLast_concat : d.IsLast P (history ++ [c]) before c' ↔
    (before = history ∧ c' = c ∧ P (d.changedAll history) c) ∨
      (d.IsLast P history before c' ∧ ¬ P (d.changedAll history) c) := by
  constructor
  · rintro ⟨later, he, hp, hn⟩
    rcases concat_eq_append_cons he with ⟨-, rfl, rfl⟩ | ⟨later', rfl, rfl⟩
    · exact .inl ⟨rfl, rfl, hp⟩
    · obtain ⟨hn, hc⟩ := never_concat.1 hn
      rw [← changedAll_append, List.append_assoc, List.singleton_append] at hc
      exact .inr ⟨⟨later', rfl, hp, hn⟩, hc⟩
  · rintro (⟨rfl, rfl, hp⟩ | ⟨⟨later, rfl, hp, hn⟩, hc⟩)
    · exact ⟨[], rfl, hp, never_nil _ P⟩
    · refine ⟨later ++ [c], by rw [List.append_assoc, List.cons_append], hp, ?_⟩
      refine never_concat.2 ⟨hn, ?_⟩
      rwa [← changedAll_append, List.append_assoc, List.singleton_append]

theorem IsLast.unique (h : d.IsLast P history before c) (h' : d.IsLast P history before' c') :
    before = before' ∧ c = c' := by
  induction history using List.reverseRecOn with
  | nil => exact absurd h not_isLast_nil
  | append_singleton history last ih =>
    rcases isLast_concat.1 h with ⟨rfl, rfl, hp⟩ | ⟨h, hn⟩ <;>
      rcases isLast_concat.1 h' with ⟨rfl, rfl, hp'⟩ | ⟨h', hn'⟩
    · exact ⟨rfl, rfl⟩
    · exact absurd hp hn'
    · exact absurd hp' hn
    · exact ih h h'

theorem stands_concat : d.Stands (history ++ [c]) before name source ↔
    (d.Stands history before name source ∧ ¬ (d.changedAll history).Rebinds name c ∧
        ¬ (d.changedAll history).Rebinds source c) ∨
      (before = history ∧ c = .addAlias name source ∧ name ≠ source ∧
        (d.changedAll history).Rebinds name c) := by
  constructor
  · rintro ⟨hne, hl, hs⟩
    rcases isLast_concat.1 hl with ⟨rfl, rfl, hp⟩ | ⟨hl, hn⟩
    · exact .inr ⟨rfl, rfl, hne, hp⟩
    · obtain ⟨later, rfl, -, -⟩ := id hl
      have hlater := hs (later ++ [c]) (by rw [List.append_assoc, List.cons_append])
      obtain ⟨hold, hlast⟩ := never_concat.1 hlater
      rw [← changedAll_append, List.append_assoc, List.singleton_append] at hlast
      refine .inl ⟨⟨hne, hl, fun later' he => ?_⟩, hn, hlast⟩
      obtain ⟨-, rfl⟩ := List.cons.inj (List.append_cancel_left he)
      exact hold
  · rintro (⟨⟨hne, hl, hs⟩, hn, hc⟩ | ⟨rfl, rfl, hne, hp⟩)
    · refine ⟨hne, isLast_concat.2 (.inr ⟨hl, hn⟩), fun later he => ?_⟩
      rcases concat_eq_append_cons he with ⟨-, rfl, -⟩ | ⟨later', rfl, rfl⟩
      · -- an alias that is made last does not stand before
        obtain ⟨later, he, -⟩ := hl
        exact absurd (List.self_eq_append_right.1 he) (List.cons_ne_nil _ _)
      · refine never_concat.2 ⟨hs later' rfl, ?_⟩
        rwa [← changedAll_append, List.append_assoc, List.singleton_append]
    · refine ⟨hne, isLast_concat.2 (.inl ⟨rfl, rfl, hp⟩), fun later he => ?_⟩
      obtain ⟨-, rfl⟩ := List.cons.inj (List.append_cancel_left he)
      exact never_nil _ _

end History

/-! What the history decides. -/

section Law
variable {d : Dictionary} {history : List Change} {name source word : String}

/-- A word keeps its meaning until a change binds it. -/
theorem lookup?_changedAll_of_never (h : d.Never (Binds word) history) :
    (d.changedAll history).lookup? word = d.lookup? word := by
  induction history using List.reverseRecOn with
  | nil => rfl
  | append_singleton history c ih =>
    obtain ⟨hn, hc⟩ := never_concat.1 h
    rw [changedAll_concat, lookup?_changed_of_not_binds hc, ih hn]

theorem lookup?_changedAll_of_isLast {before : List Change} {c : Change}
    (h : d.IsLast (Binds word) history before c) :
    (d.changedAll history).lookup? word = (d.changedAll before).given? c := by
  induction history using List.reverseRecOn with
  | nil => exact absurd h not_isLast_nil
  | append_singleton history last ih =>
    rw [changedAll_concat]
    rcases isLast_concat.1 h with ⟨rfl, rfl, hb⟩ | ⟨h, hn⟩
    · exact lookup?_changed_of_binds hb
    · rw [lookup?_changed_of_not_binds hn, ih h]

/-- The links are the aliases that still stand. -/
theorem mem_links_changedAll (hd : d.links = []) (history : List Change) (name source : String) :
    ⟨name, source⟩ ∈ (d.changedAll history).links ↔
      ∃ before, d.Stands history before name source := by
  induction history using List.reverseRecOn with
  | nil =>
    constructor
    · intro h
      have hmem : (⟨name, source⟩ : AliasLink) ∈ d.links := h
      rw [hd] at hmem
      cases hmem
    · rintro ⟨before, h⟩
      exact absurd h.last not_isLast_nil
  | append_singleton history c ih =>
    rw [changedAll_concat, mem_links_changed, ih]
    simp only [stands_concat]
    constructor
    · rintro (⟨⟨before, h⟩, hn, hs⟩ | ⟨hc, hne, hb⟩)
      · exact ⟨before, .inl ⟨h, hn, hs⟩⟩
      · exact ⟨history, .inr ⟨rfl, hc, hne, hb⟩⟩
    · rintro ⟨before, ⟨h, hn, hs⟩ | ⟨-, hc, hne, hb⟩⟩
      · exact .inl ⟨⟨before, h⟩, hn, hs⟩
      · exact .inr ⟨hc, hne, hb⟩

theorem Stands.length_lt {before : List Change} (h : d.Stands history before name source) :
    before.length < history.length := by
  obtain ⟨later, he, -⟩ := h.last
  rw [he, List.length_append, List.length_cons]
  omega

/-- One alias was made earlier than another one, if both of them stand. -/
def Earlier (d : Dictionary) (history : List Change) (link link' : AliasLink) : Prop :=
  ∀ before before', d.Stands history before link.name link.source →
    d.Stands history before' link'.name link'.source → before.length < before'.length

/-- The links are in the order in which the aliases were made. -/
theorem pairwise_links_changedAll (hd : d.links = []) (history : List Change) :
    (d.changedAll history).links.Pairwise (d.Earlier history) := by
  induction history using List.reverseRecOn with
  | nil =>
    have hnil : (d.changedAll []).links = [] := hd
    rw [hnil]
    exact .nil
  | append_singleton history c ih =>
    rw [changedAll_concat]
    rcases changed_cases (d.changedAll history) c with ⟨hnone, heq⟩ | ⟨name, hname, hmade, hlinks⟩
    · rw [heq]
      refine ih.imp fun h before before' hb hb' => h before before' ?_ ?_
      · rcases stands_concat.1 hb with ⟨hb, -⟩ | ⟨-, -, -, hr⟩
        · exact hb
        · exact absurd hr (hnone _)
      · rcases stands_concat.1 hb' with ⟨hb', -⟩ | ⟨-, -, -, hr⟩
        · exact hb'
        · exact absurd hr (hnone _)
    · -- an alias that is kept was made before, one that is new is made now
      have hold : ∀ link ∈ (d.changedAll history).linksWithout name, ∀ before,
          d.Stands (history ++ [c]) before link.name link.source →
            d.Stands history before link.name link.source := by
        intro link hl before hb
        rcases stands_concat.1 hb with ⟨hb, -⟩ | ⟨-, -, -, hr⟩
        · exact hb
        · exact absurd ((hname _).1 hr) (mem_linksWithout.1 hl).2.1
      have hnew : ∀ link ∈ c.links, ∀ before,
          d.Stands (history ++ [c]) before link.name link.source → before = history := by
        intro link hl before hb
        rcases stands_concat.1 hb with ⟨-, hn, -⟩ | ⟨rfl, -⟩
        · exact absurd ((hname _).2 (hmade link hl).1) hn
        · rfl
      rw [hlinks, List.pairwise_append]
      refine ⟨?_, ?_, ?_⟩
      · refine (ih.filter _).imp_of_mem fun hl hl' h before before' hb hb' => ?_
        exact h before before' (hold _ hl before hb) (hold _ hl' before' hb')
      · cases c with
        | define bound definition => exact .nil
        | addAlias bound source => exact List.pairwise_singleton _ _
      · intro link hl link' hl' before before' hb hb'
        rw [hnew link' hl' before' hb']
        exact (hold link hl before hb).length_lt

/-- A linked name means what its source means, and the source is bound. -/
def Linked (d : Dictionary) : Prop :=
  ∀ link ∈ d.links, d.lookup? link.name = d.lookup? link.source ∧
    (d.lookup? link.source).isSome = true

theorem Linked.changed (h : d.Linked) (c : Change) : (d.changed c).Linked := by
  intro link hl
  rcases (mem_links_changed d c link).1 hl with ⟨hl, hn, hs⟩ | ⟨rfl, hne, hr⟩
  · rw [lookup?_changed_of_not_rebinds hn, lookup?_changed_of_not_rebinds hs]
    exact h link hl
  · have hs : ¬ d.Binds link.source (.addAlias link.name link.source) := fun hb => hne hb.1
    have hbound := hr.1.2
    rw [contains_eq_isSome] at hbound
    rw [lookup?_changed_of_binds hr.1, lookup?_changed_of_not_binds hs]
    exact ⟨rfl, hbound⟩

theorem linked_changedAll (h : d.Linked) (history : List Change) :
    (d.changedAll history).Linked := by
  induction history generalizing d with
  | nil => exact h
  | cons c history ih => exact ih (h.changed c)

/-! The listing. -/

theorem map_fst_words (d : Dictionary) : d.words.map Prod.fst = d.definitions.keys := by
  rw [words, List.map_map]
  exact List.map_id _

theorem mem_keys_definitions : word ∈ d.definitions.keys ↔ (d.lookup? word).isSome = true := by
  rw [Std.TreeMap.mem_keys, ← contains_eq_isSome, contains, Std.TreeMap.mem_iff_contains]

/-- The listing is in the order of the code points of the words. -/
theorem pairwise_words (d : Dictionary) : (d.words.map Prod.fst).Pairwise (· < ·) := by
  have hordered : d.definitions.keys.Pairwise fun m n => compare m n = .lt :=
    Std.TreeMap.ordered_keys
  rw [map_fst_words]
  exact hordered.imp compareOfLessAndEq_eq_lt.1

theorem mem_words {aliases : List String} :
    (source, aliases) ∈ d.words ↔
      (d.lookup? source).isSome = true ∧ aliases = d.aliasesOf source := by
  rw [words, List.mem_map, ← mem_keys_definitions]
  constructor
  · rintro ⟨word, hw, ⟨⟩⟩
    exact ⟨hw, rfl⟩
  · rintro ⟨hw, rfl⟩
    exact ⟨source, hw, rfl⟩

theorem mem_aliasesOf : name ∈ d.aliasesOf source ↔ ⟨name, source⟩ ∈ d.links := by
  rw [aliasesOf, List.mem_map]
  constructor
  · rintro ⟨⟨_, _⟩, hl, rfl⟩
    obtain ⟨hl, hs⟩ := List.mem_filter.1 hl
    exact of_decide_eq_true hs ▸ hl
  · intro hl
    exact ⟨_, List.mem_filter.2 ⟨hl, decide_eq_true rfl⟩, rfl⟩

theorem Linked.lists_iff (h : d.Linked) : d.Lists source name ↔ ⟨name, source⟩ ∈ d.links := by
  constructor
  · rintro ⟨aliases, hw, hn⟩
    rw [(mem_words.1 hw).2] at hn
    exact mem_aliasesOf.1 hn
  · intro hl
    exact ⟨_, mem_words.2 ⟨(h _ hl).2, rfl⟩, mem_aliasesOf.2 hl⟩

/-- The aliases of a word are listed in the order in which they were made. -/
theorem pairwise_aliasesOf (hd : d.links = []) (history : List Change) (source : String) :
    ((d.changedAll history).aliasesOf source).Pairwise fun name name' =>
      d.Earlier history ⟨name, source⟩ ⟨name', source⟩ := by
  rw [aliasesOf, List.pairwise_map]
  refine ((pairwise_links_changedAll hd history).filter _).imp_of_mem ?_
  rintro ⟨name, first⟩ ⟨name', second⟩ hl hl' h
  have hfirst : first = source := of_decide_eq_true (List.mem_filter.1 hl).2
  have hsecond : second = source := of_decide_eq_true (List.mem_filter.1 hl').2
  subst hfirst
  subst hsecond
  exact h

end Law

/-- In a history that starts with no words, or with the primitives, a word means what the last
change that bound it gave it, which for an alias is what its source meant at that moment. An alias
of an unbound word fails, and changes nothing. All bound words are listed, once each and in the
order of their code points. A name is listed under a source exactly if the last binding of the name
made it an alias of that other word, which has not been bound anew since; then it means the same. It
is listed once and under no other word, and aliases are in the order in which they were made. -/
theorem words_of_history {start : Dictionary} (hs : start = .empty ∨ start = .primitives)
    (history : List Change) :
    let d := start.changedAll history
    (∀ word, (start.Never (Binds word) history → d.lookup? word = start.lookup? word) ∧
      ∀ before c, start.IsLast (Binds word) history before c →
        d.lookup? word = (start.changedAll before).given? c) ∧
    (∀ name source, d.lookup? source = none →
      d.change (.addAlias name source) = .error (.unknownWord source) ∧
        start.changedAll (history ++ [.addAlias name source]) = d) ∧
    (d.words.map Prod.fst).Pairwise (· < ·) ∧
    (∀ word, word ∈ d.words.map Prod.fst ↔ (d.lookup? word).isSome = true) ∧
    (∀ source name, d.Lists source name ↔ ∃ before, start.Stands history before name source) ∧
    (∀ source name, d.Lists source name → d.lookup? name = d.lookup? source ∧
      ∀ other, d.Lists other name → other = source) ∧
    ∀ source aliases, (source, aliases) ∈ d.words → aliases.Nodup ∧
      aliases.Pairwise fun name name' =>
        start.Earlier history ⟨name, source⟩ ⟨name', source⟩ := by
  intro d
  have hempty : start.links = [] := by
    rcases hs with rfl | rfl <;> rfl
  have hlinked : d.Linked := by
    apply linked_changedAll
    intro link hl
    rw [hempty] at hl
    cases hl
  have hlists (source name : String) :
      d.Lists source name ↔ ∃ before, start.Stands history before name source :=
    hlinked.lists_iff.trans (mem_links_changedAll hempty history name source)
  refine ⟨fun word => ⟨lookup?_changedAll_of_never, fun _ _ => lookup?_changedAll_of_isLast⟩,
    fun name source h => ⟨addAlias_of_unbound h, ?_⟩, pairwise_words d, fun word => ?_, hlists,
    fun source name h => ⟨(hlinked _ (hlinked.lists_iff.1 h)).1, fun other h' => ?_⟩,
    fun source aliases hw => ?_⟩
  · rw [changedAll_concat]
    exact changed_of_unbound h
  · rw [map_fst_words, mem_keys_definitions]
  · -- both are the last binding of the name
    obtain ⟨before, hb⟩ := (hlists source name).1 h
    obtain ⟨before', hb'⟩ := (hlists other name).1 h'
    exact (Change.addAlias.inj (hb'.last.unique hb.last).2).2
  · obtain ⟨-, rfl⟩ := mem_words.1 hw
    have horder := pairwise_aliasesOf hempty history source
    refine ⟨horder.imp_of_mem ?_, horder⟩
    rintro name _ hn - he rfl
    obtain ⟨before, hb⟩ := (mem_links_changedAll hempty history name source).1 (mem_aliasesOf.1 hn)
    exact Nat.lt_irrefl _ (he before before hb hb)

/-- An alias of `add` means the primitive also after `add` itself has been defined anew. -/
theorem alias_keeps_meaning :
    (primitives = .empty ∨ primitives = .primitives) ∧
      (primitives.changedAll [.addAlias "plus" "add", .define "add" (.user [])]).lookup? "plus" =
        some (.primitive .add) := by
  refine ⟨.inr rfl, ?_⟩
  have hlaw := words_of_history (.inr rfl) [.addAlias "plus" "add", .define "add" (.user [])]
  -- the alias is the last change that binds the name
  have hlast : primitives.IsLast (Binds "plus") [.addAlias "plus" "add", .define "add" (.user [])]
      [] (.addAlias "plus" "add") := by
    refine ⟨[.define "add" (.user [])], rfl, ⟨rfl, by decide +kernel⟩, ?_⟩
    exact never_concat.2 ⟨never_nil _ _, by simp [Binds]⟩
  rw [(hlaw.1 "plus").2 [] _ hlast]
  decide +kernel

end Dictionary

end StackCalc
