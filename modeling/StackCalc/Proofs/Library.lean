import StackCalc.Prelude
import StackCalc.Proofs.BodyCalls
import StackCalc.Proofs.Grammar
import StackCalc.Proofs.Reachable

/-!
The standard word library binds words and does nothing else, so every session starts: it is loaded
without an error, whatever the settings and the streams of the session are, and leaves no trace but
in the dictionary.
-/
namespace StackCalc

open Eval Token

/-- A name that a library may bind: binding words still means what it meant afterwards. -/
def leavesBinders (name : String) : Bool :=
  name ≠ Primitive.define.name && name ≠ Primitive.addAlias.name

/-- Whether the tokens bind words and do nothing else: each word is defined by a quotation, or made
an alias of a word that is bound by then. The names in `bound` are bound before. -/
def bindsOnly (bound : List String) (tokens : List Token) : Bool :=
  match tokens with
  | [] => true
  | ⟨.quoted name, _⟩ :: ⟨.opener .brace, _⟩ :: rest =>
    match _h : splitAtCloser 0 rest with
    | some (_, ⟨.word word, _⟩ :: after) =>
      word = Primitive.define.name && leavesBinders name && bindsOnly (name :: bound) after
    | _ => false
  | ⟨.quoted name, _⟩ :: ⟨.quoted source, _⟩ :: ⟨.word word, _⟩ :: after =>
    word = Primitive.addAlias.name && leavesBinders name && bound.contains source &&
      bindsOnly (name :: bound) after
  | _ => false
termination_by tokens.length
decreasing_by
  · have := length_of_splitAtCloser _h
    simp only [List.length_cons] at this ⊢
    omega
  · simp only [List.length_cons]
    omega

/-- The binding words are bound to their primitives, and the names in `bound` to something. -/
structure Dictionary.Provides (d : Dictionary) (bound : List String) : Prop where
  define : d.lookup? Primitive.define.name = some (.primitive .define)
  addAlias : d.lookup? Primitive.addAlias.name = some (.primitive .addAlias)
  names : ∀ name ∈ bound, ∃ definition, d.lookup? name = some definition

section Binding
variable {d e : Dictionary} {bound : List String} {name source : String}

theorem Dictionary.Provides.of_lookup {definition : Definition} (h : d.Provides bound)
    (hname : leavesBinders name = true)
    (he : ∀ word, e.lookup? word = if name = word then some definition else d.lookup? word) :
    e.Provides (name :: bound) := by
  simp only [leavesBinders, Bool.and_eq_true, decide_eq_true_eq] at hname
  refine ⟨?_, ?_, fun word hw => ?_⟩
  · rw [he, if_neg hname.1]
    exact h.define
  · rw [he, if_neg hname.2]
    exact h.addAlias
  · rw [he]
    split
    · exact ⟨definition, rfl⟩
    next hne =>
      rcases List.mem_cons.1 hw with rfl | hm
      · exact absurd rfl hne
      · exact h.names word hm

theorem Dictionary.exists_addAlias {definition : Definition}
    (h : d.lookup? source = some definition) (name : String) :
    ∃ e, d.addAlias name source = .ok e := by
  rw [Dictionary.addAlias, h]
  simp only
  split
  · exact ⟨d, rfl⟩
  · exact ⟨_, rfl⟩

variable {s : Session}

theorem execute_define (call : Caller) (name : String) (body : List Token)
    (hs : s.stack = .empty)
    (hd : s.dictionary.lookup? Primitive.define.name = some (.primitive .define)) :
    execute call Primitive.define.name ((s.pushed (.reference name)).pushed (.quotation body)) =
      .ok () { s with dictionary := s.dictionary.define name (.user body) } := by
  obtain ⟨settings, dictionary, stack, enclosing, depth, input, output⟩ := s
  cases hs
  exact execute_primitive_ok hd rfl

theorem execute_addAlias (call : Caller) (hs : s.stack = .empty)
    (hd : s.dictionary.lookup? Primitive.addAlias.name = some (.primitive .addAlias))
    (ha : s.dictionary.addAlias name source = .ok e) :
    execute call Primitive.addAlias.name
        ((s.pushed (.reference name)).pushed (.reference source)) =
      .ok () { s with dictionary := e } := by
  obtain ⟨settings, dictionary, stack, enclosing, depth, input, output⟩ := s
  cases hs
  refine execute_primitive_ok hd (only_eq_ok.2 ⟨?_, rfl⟩)
  -- the two names come off, and the dictionary answers
  let t : Session := ⟨settings, dictionary, .empty, enclosing, depth, input, output⟩
  have ht : t.dictionary.addAlias name source = .ok e := ha
  rw [Eval.addAlias]
  refine (bind_of_ok (a := (name, source)) (t := t) ?_).trans ?_
  · rfl
  · simp only [get_bind_apply, ht]
    rfl

end Binding

/-- What binds words only is run without an error, and changes the dictionary alone. -/
theorem run_of_bindsOnly {bound : List String} {tokens : List Token}
    (h : bindsOnly bound tokens = true) {d : Dictionary} (hd : d.Provides bound) :
    ∃ e : Dictionary, ∀ (call : Caller) (s : Session), s.stack = .empty → s.dictionary = d →
      run call tokens s = .ok () { s with dictionary := e } := by
  fun_induction bindsOnly bound tokens generalizing d with
  | case1 bound =>
    refine ⟨d, fun call s hs hsd => ?_⟩
    rw [run_nil, ← hsd]
    rfl
  | case2 bound name _ _ rest body word _ after hsplit ih =>
    -- a definition: name and quotation go on the stack, and the word takes them off
    simp only [Bool.and_eq_true, decide_eq_true_eq] at h
    obtain ⟨⟨rfl, hname⟩, hafter⟩ := h
    obtain ⟨e, he⟩ := ih hafter (hd.of_lookup hname (d.lookup?_define name (.user body)))
    refine ⟨e, fun call s hs hsd => ?_⟩
    subst hsd
    have hdefine := execute_define call name body hs hd.define
    rw [run_quoted]
    refine (bind_of_ok (t := s.pushed (.reference name)) rfl).trans ?_
    rw [run_opener call .brace _ hsplit]
    refine (bind_of_ok (t := (s.pushed (.reference name)).pushed (.quotation body)) rfl).trans ?_
    rw [run_word, bind_of_ok hdefine]
    exact he call _ hs rfl
  | case4 bound name _ source _ word _ after ih =>
    -- an alias: its source is bound by now
    simp only [Bool.and_eq_true, decide_eq_true_eq, List.contains_iff_mem] at h
    obtain ⟨⟨⟨rfl, hname⟩, hsource⟩, hafter⟩ := h
    obtain ⟨definition, hlookup⟩ := hd.names source hsource
    obtain ⟨e, hadd⟩ := Dictionary.exists_addAlias hlookup name
    have hbinds : e.Provides (name :: bound) :=
      hd.of_lookup hname fun w => hlookup ▸ Dictionary.lookup?_addAlias hadd w
    obtain ⟨e', he'⟩ := ih hafter hbinds
    refine ⟨e', fun call s hs hsd => ?_⟩
    subst hsd
    have halias := execute_addAlias call hs hd.addAlias hadd
    rw [run_quoted]
    refine (bind_of_ok (t := s.pushed (.reference name)) rfl).trans ?_
    rw [run_quoted]
    refine (bind_of_ok
      (t := (s.pushed (.reference name)).pushed (.reference source)) rfl).trans ?_
    rw [run_word, bind_of_ok halias]
    exact he' call _ hs rfl
  | case3 => cases h
  | case5 => cases h

/-- The kinds of the tokens that a word stands for. -/
def Definition.kinds? : Definition → Option (List Kind)
  | .primitive _ => none
  | .user body => some (body.map (·.kind))

namespace Prelude

/-- The primitives that the standard word library makes aliases of. -/
def aliased : List Primitive :=
  [.add, .subtract, .multiply, .divide, .remainder]

theorem provides_primitives : Dictionary.primitives.Provides (aliased.map Primitive.name) where
  define := by decide +kernel
  addAlias := by decide +kernel
  names := by
    have h : ∀ operation ∈ aliased, Dictionary.primitives.lookup? operation.name =
        some (.primitive operation) := by decide +kernel
    exact List.forall_mem_map.2 fun operation hop => ⟨_, h operation hop⟩

/-- Words of the standard word library, and what they stand for. -/
def bodies : List (String × List Kind) :=
  [("sign", [.number 0, .word "cmp"]),
    ("abs", [.word "dup", .word "sign", .word "mul"]),
    ("eq", [.word "cmp", .word "dup", .word "mul", .number 1, .word "swap", .word "sub"]),
    ("gt", [.word "cmp", .number 0, .word "max"]),
    ("not", [.number 0, .word "eq"]),
    ("and", [.word "mul", .number 0, .word "eq", .word "not"]),
    ("or", [.word "abs", .word "swap", .word "abs", .word "add", .number 0, .word "gt"]),
    ("lt", [.word "swap", .word "gt"]),
    ("ne", [.word "eq", .word "not"]),
    ("ge", [.word "lt", .word "not"]),
    ("le", [.word "gt", .word "not"]),
    ("++", [.number 1, .word "add"]),
    ("range", [.opener .square, .word "arg", .word "arg", .word "swap", .word "over", .word "sub",
      .opener .brace, .word "dup", .word "++", .closer .brace, .word "swap", .number 0,
      .word "max", .word "repeat", .closer .square]),
    ("seq", [.number 1, .word "swap", .word "range"]),
    ("sq", [.word "dup", .word "mul"]),
    ("sqrt", [.number 0.5, .word "pow"]),
    ("avg", [.word "dup", .opener .brace, .word "add", .closer .brace, .word "fold1", .word "swap",
      .word "len", .word "div"]),
    ("var", [.word "dup", .word "avg", .word "swap", .opener .brace, .word "over", .word "sub",
      .word "sq", .closer .brace, .word "map", .word "swap", .word "pop", .word "avg"]),
    ("stddev", [.word "var", .word "sqrt"])]

/-- The words of `bodies` stand for these tokens, and the primitives for themselves. -/
def isHeldBy (d : Dictionary) : Bool :=
  bodies.all (fun word => (d.lookup? word.1).bind Definition.kinds? = some word.2) &&
    Primitive.all.all fun operation => d.lookup? operation.name = some (.primitive operation)

/-- The standard word library is a program, and binds words only: those of `bodies` among others,
and no primitive. -/
theorem exists_tokens : ∃ tokens, tokenize source = .ok tokens ∧
    bindsOnly (aliased.map Primitive.name) tokens = true ∧
    isHeldBy (finalState (evaluate tokens {})).dictionary = true := by
  have hread : (scan text).toOption.any (fun tokens =>
      (checkNesting tokens).toBool && bindsOnly (aliased.map Primitive.name) tokens &&
        isHeldBy (finalState (evaluate tokens {})).dictionary) = true := by
    decide +kernel
  cases hscan : scan text with
  | error fault =>
    rw [hscan] at hread
    cases hread
  | ok tokens =>
    rw [hscan] at hread
    obtain ⟨hfirst, hheld⟩ := Bool.and_eq_true_iff.1 hread
    obtain ⟨hnesting, hbinds⟩ := Bool.and_eq_true_iff.1 hfirst
    refine ⟨tokens, ?_, hbinds, hheld⟩
    have hsource : scan source.toList = .ok tokens := by rw [source, String.toList_ofList, hscan]
    rw [tokenize_of_scan hsource]
    cases hcheck : checkNesting tokens with
    | error fault =>
      rw [hcheck] at hnesting
      cases hnesting
    | ok => rfl

/-- The words of `bodies` stand for tokens of these kinds. -/
theorem exists_body {d : Dictionary} (hd : isHeldBy d = true) {name : String} {kinds : List Kind}
    (h : bodies.lookup name = some kinds) :
    ∃ body, d.lookup? name = some (.user body) ∧ body.map (·.kind) = kinds := by
  obtain ⟨before, after, hbodies, -⟩ := List.lookup_eq_some_iff.1 h
  have hm : (name, kinds) ∈ bodies := by simp [hbodies]
  have hword := of_decide_eq_true (List.all_eq_true.1 (Bool.and_eq_true_iff.1 hd).1 _ hm)
  obtain ⟨definition, hl, hk⟩ := Option.bind_eq_some_iff.1 hword
  cases definition with
  | primitive operation => cases hk
  | user body => exact ⟨body, hl, Option.some.inj hk⟩

theorem lookup?_primitive {d : Dictionary} (hd : isHeldBy d = true) (operation : Primitive) :
    d.lookup? operation.name = some (.primitive operation) :=
  of_decide_eq_true (List.all_eq_true.1 (Bool.and_eq_true_iff.1 hd).2 _ operation.mem_all)

end Prelude

/-- What the standard word library has bound does not depend on the session that starts, and nothing
else has changed. -/
theorem Session.exists_start_held : ∃ d : Dictionary, Prelude.isHeldBy d = true ∧
    ∀ settings input output, Session.start settings input output = .ok
      { settings, input, output,
        dictionary := if settings.loadPrelude then d else .primitives } := by
  obtain ⟨tokens, ht, hb, hheld⟩ := Prelude.exists_tokens
  -- one dictionary for all sessions
  obtain ⟨d, hd⟩ := run_of_bindsOnly hb Prelude.provides_primitives
  rw [evaluate, hd _ {} rfl rfl] at hheld
  refine ⟨d, hheld, fun settings input output => ?_⟩
  rw [Session.start]
  cases settings.loadPrelude with
  | false => rfl
  | true =>
    have hl := load_of_tokens ht { settings, input, output }
    simp only [↓reduceIte]
    rw [hl, evaluate, hd _ _ rfl rfl]

/-- Every session starts. -/
theorem Session.exists_start : ∃ d : Dictionary, ∀ settings input output,
    Session.start settings input output = .ok
      { settings, input, output,
        dictionary := if settings.loadPrelude then d else .primitives } := by
  obtain ⟨d, -, hd⟩ := Session.exists_start_held
  exact ⟨d, hd⟩

/-- A session that starts with the standard word library has its words. -/
theorem Session.isHeldBy_of_start {settings : Settings} {input : List UInt8} {output : Output}
    {s : Session} (hp : settings.loadPrelude = true)
    (h : Session.start settings input output = .ok s) :
    Prelude.isHeldBy s.dictionary = true := by
  obtain ⟨d, hheld, hd⟩ := Session.exists_start_held
  rw [hd, hp] at h
  cases h
  exact hheld

end StackCalc
