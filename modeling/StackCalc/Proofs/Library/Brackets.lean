import StackCalc.Proofs.Library.Words
import StackCalc.Proofs.Traversal

/-!
Brackets in the words of the library. What stands between braces becomes a quotation, which `map`,
`fold1` and `repeat` call; what stands between square brackets draws its operands, and goes on with
them on a stack of its own.
-/
namespace StackCalc

open Eval

namespace Token

/-- Tokens of these kinds are a pair of brackets and what it encloses, and others behind them. -/
theorem exists_enclosed {bracket : Bracket} {kinds rest : List Kind} {tokens : List Token}
    (hn : Nested (kinds.map fun kind => ⟨kind, {}⟩))
    (hk : tokens.map (·.kind) = .opener bracket :: (kinds ++ .closer bracket :: rest)) :
    ∃ p body q after,
      tokens = ⟨.opener bracket, p⟩ :: (body ++ ⟨.closer bracket, q⟩ :: after) ∧
      Nested body ∧ body.map (·.kind) = kinds ∧ after.map (·.kind) = rest := by
  obtain ⟨⟨_, p⟩, tail, rfl, rfl, htail⟩ := List.map_eq_cons_iff.1 hk
  obtain ⟨body, closing, rfl, hbody, hclosing⟩ := List.map_eq_append_iff.1 htail
  obtain ⟨⟨_, q⟩, after, rfl, rfl, hafter⟩ := List.map_eq_cons_iff.1 hclosing
  refine ⟨p, body, q, after, rfl, hn.of_kinds ?_, hbody, hafter⟩
  rw [hbody, List.map_map]
  exact (List.map_id kinds).symm

end Token

theorem Stack.Rewritten.dropped {s : Stack} {operands below : List Value}
    (h : s.values = operands ++ below) :
    s.Rewritten (s.dropped operands.length) operands [] below := by
  refine ⟨h, ?_, ?_⟩
  · change s.values.drop operands.length = below
    rw [h, List.drop_left]
  · have hh := s.height_eq
    rw [h, List.length_append] at hh
    change min s.mark below.length ≤ min s.mark (s.height - operands.length)
    omega

namespace Dictionary
variable {d : Dictionary} {levels : Nat} {rest : List Token.Kind} {name : String}
  {before after below : List Value} {body : List Token}

/-- A pair of braces leaves a quotation of what it encloses. -/
theorem Rewrites.quotation (kinds : List Token.Kind)
    (hn : Token.Nested (kinds.map fun kind => ⟨kind, {}⟩))
    (h : ∀ body : List Token, body.map (·.kind) = kinds →
      d.Rewrites levels rest (.quotation body :: before) after) :
    d.Rewrites levels (.opener .brace :: (kinds ++ .closer .brace :: rest)) before after := by
  intro s tokens below hd hroom hk hs
  obtain ⟨p, body, q, behind, rfl, hb, hbody, hbehind⟩ := Token.exists_enclosed hn hk
  have hpush := Stack.Rewritten.pushed hs (.quotation body)
  obtain ⟨left, hleft, hrun⟩ :=
    h body hbody (s.pushed (.quotation body)) behind below hd hroom hbehind hpush.after
  refine ⟨left, hpush.trans hleft, ?_⟩
  rw [evaluate_quotation hb, hrun]
  rfl

theorem Fails.quotation (kinds : List Token.Kind) {error : EvalError}
    (hn : Token.Nested (kinds.map fun kind => ⟨kind, {}⟩))
    (h : ∀ body : List Token, body.map (·.kind) = kinds →
      d.Fails levels rest (.quotation body :: before) error) :
    d.Fails levels (.opener .brace :: (kinds ++ .closer .brace :: rest)) before error := by
  intro s tokens below hd hroom hk hs
  obtain ⟨p, body, q, behind, rfl, hb, hbody, hbehind⟩ := Token.exists_enclosed hn hk
  obtain ⟨t, hrun⟩ := h body hbody (s.pushed (.quotation body)) behind below hd hroom hbehind
    (congrArg _ hs)
  exact ⟨t, (evaluate_quotation hb p q behind s).trans hrun⟩

/-- So many calls, each of which starts from what the one before it has left. -/
theorem Rewrites.times {values : Nat → List Value} {count : Nat} {s : Session}
    (h : ∀ i < count, s.dictionary.Rewrites levels (body.map (·.kind)) (values i) (values (i + 1)))
    (hroom : levels + 1 ≤ s.room) (hs : s.stack.values = values 0 ++ below) (frame : String) :
    ∃ left : Stack, s.stack.Rewritten left (values 0) (values count) below ∧
      times (callWithin s.room frame body) count s = .ok () { s with stack := left } := by
  -- on the number of calls, for values that begin anywhere
  induction count generalizing s values with
  | zero => exact ⟨s.stack, .refl hs, rfl⟩
  | succ count ih =>
    obtain ⟨t, ht, hcall⟩ := (h 0 (Nat.succ_pos _)).call hroom hs frame
    have hlater : ∀ i < count, s.dictionary.Rewrites levels (body.map (·.kind))
        (values (i + 1)) (values (i + 1 + 1)) := fun i hi => h (i + 1) (Nat.succ_lt_succ hi)
    obtain ⟨left, hleft, htimes⟩ := ih (s := { s with stack := t }) hlater hroom ht.after
    refine ⟨left, ht.trans hleft, ?_⟩
    rw [Eval.times, bind_of_ok hcall]
    exact htimes

end Dictionary

theorem Session.foldl_pushed (operands : List Value) (s : Session) :
    operands.foldl Session.pushed s = { s with stack := operands.foldl Stack.pushed s.stack } := by
  induction operands generalizing s with
  | nil => rfl
  | cons operand operands ih => exact ih (s.pushed operand)

theorem Stack.values_foldl_pushed (operands : List Value) (s : Stack) :
    (operands.foldl Stack.pushed s).values = operands.reverse ++ s.values := by
  induction operands generalizing s with
  | nil => rfl
  | cons operand operands ih =>
    rw [List.foldl_cons, ih, List.reverse_cons, List.append_assoc]
    rfl

/-- A body computes what its tokens put in the place of the operands. -/
theorem Session.Computes.of_rewritten {t : Session} {body : List Token} {operands : List Value}
    {result : Value} (hroom : 0 < t.room)
    (h : let u := { watchEntered (operands.foldl Session.pushed t) with depth := t.depth + 1 }
      ∃ left : Stack, u.stack.Rewritten left operands.reverse [result] t.stack.values ∧
        evaluate body u = .ok () { u with stack := left }) :
    t.Computes body operands result := by
  obtain ⟨left, hleft, hrun⟩ := h
  have hheight : t.stack.height ≤
      (watchEntered (operands.foldl Session.pushed t)).stack.height := by
    rw [Stack.height_eq, Stack.height_eq, watchEntered, Session.foldl_pushed]
    change _ ≤ (operands.foldl Stack.pushed t.stack).values.length
    rw [Stack.values_foldl_pushed, List.length_append]
    exact Nat.le_add_left _ _
  refine ⟨Nat.lt_of_sub_pos hroom, left, hleft.after, ?_, ?_⟩
  · -- the watch has begun above the operands
    refine (Nat.le_min.2 ⟨hheight, ?_⟩).trans hleft.mark
    exact t.stack.height_eq.le
  · rw [hrun, watchEntered, Session.foldl_pushed]

namespace Dictionary
variable {d : Dictionary} {levels : Nat} {name : String} {body : List Token}

/-- `map` with a body that computes a function of the item, and of the values below it. -/
theorem rewrites_map (upper : List Value) {items : List Value} {F : Value → Value}
    (hl : d.lookup? name = some (.primitive .map))
    (hF : ∀ (t : Session) (below : List Value), t.dictionary = d → levels ≤ t.room →
      t.stack.values = upper ++ below → ∀ item ∈ items, t.Computes body [item] (F item)) :
    d.Rewrites levels [.word name] (.quotation body :: .sequence items :: upper)
      (.sequence (items.map F) :: upper) := by
  refine .of_execute (fun s below hd hroom hs => ?_) .nil
  subst hd
  have hvalues : (s.dropped 2).stack.values = upper ++ below := congrArg (List.drop 2) hs
  have hinvoke := (Traverses.map hs).invoke_of_computes (fun _ => F) (by
    rintro done item later rfl
    rw [Harvest.after_mapped]
    exact hF (s.dropped 2) below rfl hroom hvalues item
      (List.mem_append_right _ List.mem_cons_self))
  rw [Harvest.after_mapped] at hinvoke
  have hoperands : s.stack.values = [.quotation body, .sequence items] ++ (upper ++ below) := hs
  have hdropped := Stack.Rewritten.dropped hoperands
  exact ⟨_, (hdropped.trans (.pushed hdropped.after _)).framed, execute_primitive_ok hl hinvoke⟩

/-- A count and the quotation below it are taken off. -/
theorem iterate_of_operands {s : Session} {count : Nat} {x : Float} {below : List Value}
    (hs : s.stack.values = .number x :: .quotation body :: below)
    (hx : Arithmetic.count? x = some count) (call : Caller) (frame : String) :
    iterate call frame s = times (call frame body) count (s.dropped 2) := by
  have hh := s.stack.height_eq
  rw [hs, List.length_cons, List.length_cons] at hh
  have htwo : Stack.require 2 s.stack = .ok () s.stack :=
    Stack.require_eq_ok.2 ⟨by omega, rfl⟩
  have hnumber : Stack.popNumber s.stack = .ok x (s.stack.dropped 1) :=
    bind_of_ok (Stack.pop_eq_ok.2 ⟨_, hs, rfl⟩)
  have hcount : Stack.popCount s.stack = .ok count (s.stack.dropped 1) := by
    rw [Stack.popCount, bind_of_ok hnumber, hx]
    rfl
  have hbody : Stack.popQuotation (s.stack.dropped 1) = .ok body (s.stack.dropped 2) :=
    Stack.popQuotation_eq_ok.2 (Stack.pop_eq_ok.2
      ⟨below, congrArg (List.drop 1) hs, (Stack.dropped_dropped 1 1 s.stack).symm⟩)
  rw [iterate]
  refine bind_of_ok (a := (count, body)) (onStack_eq_ok.2 ⟨s.stack.dropped 2, ?_, rfl⟩)
  rw [bind_of_ok htwo, bind_of_ok hcount, bind_of_ok hbody]
  rfl

/-- `repeat` takes the values on top through so many steps, each of them a call of the body. -/
theorem rewrites_iterate (values : Nat → List Value) {count : Nat} {x : Float}
    (hl : d.lookup? name = some (.primitive .iterate)) (hx : Arithmetic.count? x = some count)
    (h : ∀ i < count, d.Rewrites levels (body.map (·.kind)) (values i) (values (i + 1))) :
    d.Rewrites (levels + 1) [.word name] (.number x :: .quotation body :: values 0)
      (values count) := by
  refine .of_execute (fun s below hd hroom hs => ?_) .nil
  subst hd
  obtain ⟨left, hleft, htimes⟩ := Rewrites.times (s := s.dropped 2) h hroom
    (congrArg (List.drop 2) hs) Primitive.iterate.name
  refine ⟨left, ?_, execute_primitive_ok hl (only_eq_ok.2 ⟨?_, rfl⟩)⟩
  · have hoperands : s.stack.values = [.number x, .quotation body] ++ (values 0 ++ below) := hs
    exact (Stack.Rewritten.dropped hoperands).framed.trans hleft
  · rw [iterate_of_operands hs hx]
    exact htimes

/-! Array scopes. -/

/-- Words that draw move the operands of a scope to the stack of the scope, the top first. -/
theorem evaluate_draws {s : Session} {outer : Stack} {further : List Stack}
    {operands below : List Value} {draws : List Token}
    (hl : s.dictionary.lookup? name = some (.primitive .draw))
    (he : s.enclosing = outer :: further) (ho : outer.values = operands ++ below)
    (hk : draws.map (·.kind) = List.replicate operands.length (.word name)) (rest : List Token) :
    ∃ left : Stack, outer.Rewritten left operands [] below ∧
      evaluate (draws ++ rest) s = evaluate rest
        { s with stack := operands.foldl Stack.pushed s.stack, enclosing := left :: further } := by
  induction operands generalizing s outer draws with
  | nil =>
    obtain rfl := List.map_eq_nil_iff.1 hk
    refine ⟨outer, .refl ho, ?_⟩
    rw [List.nil_append, List.foldl_nil, ← he]
  | cons value operands ih =>
    obtain ⟨⟨_, p⟩, later, rfl, rfl, hlater⟩ := List.map_eq_cons_iff.1 hk
    obtain ⟨t, hpop, ht, hmark⟩ := Stack.pop_of_cons ho
    have hfirst : outer.Rewritten t [value] [] (operands ++ below) :=
      ⟨ho, ht, hmark.ge⟩
    have hx : execute (callWithin s.room) name s = .ok () _ :=
      execute_primitive_ok hl (only_eq_ok.2 ⟨draw_of_pop he hpop, rfl⟩)
    obtain ⟨left, hleft, hrun⟩ := ih
      (s := { s with stack := s.stack.pushed value, enclosing := t :: further }) hl rfl ht hlater
    refine ⟨left, hfirst.framed.trans hleft, ?_⟩
    rw [List.cons_append, evaluate, run_word, bind_of_ok hx]
    exact hrun

/-- A scope draws its operands, and leaves in their place what its tokens make of them. -/
theorem Rewrites.scope {kinds : List Token.Kind} (operands : List Value) {results : List Value}
    (hl : d.lookup? name = some (.primitive .draw))
    (hn : Token.Nested ((List.replicate operands.length (Token.Kind.word name) ++ kinds).map
      fun kind => ⟨kind, {}⟩))
    (h : d.Rewrites levels kinds operands.reverse results) :
    d.Rewrites levels
      (.opener .square ::
        (List.replicate operands.length (.word name) ++ kinds ++ [.closer .square]))
      operands [.sequence results.reverse] := by
  intro s tokens below hd hroom hk hs
  subst hd
  obtain ⟨p, body, q, behind, rfl, hb, hbody, hbehind⟩ := Token.exists_enclosed hn hk
  obtain rfl := List.map_eq_nil_iff.1 hbehind
  obtain ⟨draws, inner, rfl, hdraws, hkinds⟩ := List.map_eq_append_iff.1 hbody
  obtain ⟨outer, houter, hdrawn⟩ := evaluate_draws (s := scopeEntered s) hl rfl hs hdraws inner
  -- inside, nothing lies below the operands
  obtain ⟨t, ht, hrun⟩ := h { scopeEntered s with
    stack := operands.foldl Stack.pushed .empty, enclosing := outer :: s.enclosing } inner [] rfl
    hroom hkinds (Stack.values_foldl_pushed operands .empty)
  have hresults : t.fromBottom = results.reverse := by
    rw [Stack.fromBottom, ht.after, List.append_nil]
  have hscope := arrayScope_of_ok (hdrawn.trans hrun) rfl
  refine ⟨_, houter.trans (.pushed houter.after (.sequence results.reverse)), ?_⟩
  rw [evaluate, run_opener _ _ _ (hb.splitAtCloser_append .square q []), enclosed, run_nil,
    bind_pure_unit, ← hresults]
  exact hscope

end Dictionary

end StackCalc
