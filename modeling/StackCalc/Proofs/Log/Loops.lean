import StackCalc.Proofs.Log.Evaluation

/-!
Bodies under a watch. A combinator that accepts what a body did has its stack back as it was, once
the result is taken off, whatever the body ran; so a loop over such bodies leaves the stack as it
found it, and touches nothing that was there before.
-/
namespace StackCalc

open Eval

namespace Eval
variable {call : Caller} {frame : String} {body : List Token} {base : Nat} {s t : Session}

theorem watching_of_ok {act : Eval Unit} (h : act (watchEntered s) = .ok () t) :
    watching act s = .ok t.stack.mark (watchLeft s.stack.mark t) := by
  rw [watching, h]

theorem watching_of_error {act : Eval Unit} {error : EvalError}
    (h : act (watchEntered s) = .error error t) :
    watching act s = .error error (watchLeft s.stack.mark t) := by
  rw [watching, h]

/-- What a combinator does with a body that ends without an error. -/
theorem singleResult_of_ok (h : call frame body (watchEntered s) = .ok () t) :
    singleResult call frame body base s =
      if t.stack.mark < base ∨ t.stack.height ≠ base + 1 then
        .error { kind := .arity 1 (t.stack.height - min t.stack.mark base) }
          (watchLeft s.stack.mark t)
      else onStack Stack.pop (watchLeft s.stack.mark t) := by
  rw [singleResult, bind_of_ok (watching_of_ok h)]
  have hl : height (watchLeft s.stack.mark t) = .ok t.stack.height (watchLeft s.stack.mark t) := rfl
  rw [bind_of_ok hl]
  simp only [bne_iff_ne, Bool.or_eq_true, decide_eq_true_eq]
  split <;> rfl

theorem singleResult_of_error {error : EvalError}
    (h : call frame body (watchEntered s) = .error error t) :
    singleResult call frame body base s = .error error (watchLeft s.stack.mark t) := by
  rw [singleResult, bind_of_error (watching_of_error h)]

/-- A result is taken where the watch has seen nothing below `base`, and one value stands there. -/
theorem of_singleResult_eq_ok {value : Value}
    (h : singleResult call frame body base s = .ok value t) :
    ∃ u, call frame body (watchEntered s) = .ok () u ∧ base ≤ u.stack.mark ∧
      u.stack.height = base + 1 ∧ u.stack.values = value :: t.stack.values ∧
      t.stack.mark = min (min s.stack.mark u.stack.mark) base := by
  cases hr : call frame body (watchEntered s) with
  | error error u =>
    rw [singleResult_of_error hr] at h
    cases h
  | ok _ u =>
    rw [singleResult_of_ok hr] at h
    split at h
    · cases h
    next hn =>
      have hheight : u.stack.height = base + 1 := by omega
      obtain ⟨v, hp, rfl⟩ := onStack_eq_ok.1 h
      obtain ⟨rest, hv, rfl⟩ := Stack.pop_eq_ok.1 hp
      have hvalues : u.stack.values = value :: rest := hv
      refine ⟨u, rfl, by omega, hheight, ?_, ?_⟩
      · rw [Stack.values_dropped, hv, List.drop_succ_cons, List.drop_zero, hvalues]
      · simp only [Stack.mark_dropped, watchLeft, Stack.unwatched, hheight, Nat.add_sub_cancel]

end Eval

namespace Log

section Watch
variable {call : Caller} {log : CallLog call} {frame : String} {body : List Token} {base : Nat}
  {s t : Session}

theorem singleResult_apply (s : Session) :
    singleResult log frame body base s = log frame body (watchEntered s) :=
  bind_silent s

/-- The watch has seen a value below `base` taken off or moved exactly if the log says so. -/
theorem mark_lt_iff (hc : Sound (log frame body)) (hb : base ≤ s.stack.height)
    (h : call frame body (watchEntered s) = .ok () t) :
    t.stack.mark < base ↔
      ∃ i ∈ touchedAt s.enclosing.length (log frame body (watchEntered s)), i < base := by
  have hk := (hc.keeps h (Nat.le_refl _)).mark_eq
  have hm : base ≤ t.stack.mark ↔ base ≤ s.stack.height ∧
      ∀ i ∈ touchedAt s.enclosing.length (log frame body (watchEntered s)), base ≤ i := by
    rw [hk]
    exact Stack.le_foldl_min
  rw [← Nat.not_le, hm]
  simp only [hb, true_and, Classical.not_forall, Nat.not_le, exists_prop]

end Watch

theorem Accounts.watching {act : Eval Unit} {log : Log act} (h : Accounts log) :
    Accounts (watching log) := by
  intro s
  have ha := h (watchEntered s)
  rw [Log.watching]
  cases hr : act (watchEntered s) with
  | ok _ t =>
    rw [watching_of_ok hr]
    rw [hr] at ha
    exact ⟨ha.settings, ha.depth, ha.levels, ha.enclosing⟩
  | error error t =>
    rw [watching_of_error hr]
    rw [hr] at ha
    exact ⟨ha.settings, ha.depth, ha.levels, ha.enclosing⟩

/-- From a stack of height `base`, the computation leaves that stack as it was, and touches nothing
below. -/
structure Steady {α : Type} {x : Eval α} (base : Nat) (log : Log x) : Prop where
  accounts : Accounts log
  keeps : ∀ {s t : Session} {a : α}, x s = .ok a t → s.stack.height = base →
    s.stack.mark ≤ base → t.stack = s.stack ∧
      ∀ i ∈ touchedAt s.enclosing.length (log s), base ≤ i

/-- From any stack that is as high as `base`, the computation leaves its lowest `base` values, and
touches nothing below. -/
structure Settles {α : Type} {x : Eval α} (base : Nat) (log : Log x) : Prop where
  accounts : Accounts log
  keeps : ∀ {s t : Session} {a : α}, x s = .ok a t → base ≤ s.stack.height →
    s.stack.mark ≤ base → t.stack.values = s.stack.values.drop (s.stack.height - base) ∧
      t.stack.mark = s.stack.mark ∧ ∀ i ∈ touchedAt s.enclosing.length (log s), base ≤ i

namespace Settles
variable {α β : Type} {x : Eval α} {f : α → Eval β} {base : Nat}

/-- A result that is accepted stands alone on what lay below `base`. -/
theorem singleResult {call : Caller} {log : CallLog call} {frame : String} {body : List Token}
    (hc : Sound (log frame body)) : Settles base (singleResult log frame body base) := by
  refine ⟨hc.accounts.watching.bind fun low => ?_, ?_⟩
  · intro s
    have hl : Eval.height s = .ok s.stack.height s := rfl
    rw [StackCalc.bind_of_ok hl]
    split
    · exact .refl s
    · exact Still.accounted_onStack Stack.pop s
  intro s t value h hb hm
  rw [singleResult_apply]
  obtain ⟨u, hr, hlow, hleft, hv, hmark⟩ := of_singleResult_eq_ok h
  have hk := hc.keeps hr (Nat.le_refl _)
  have htouched : ¬ ∃ i ∈ touchedAt s.enclosing.length (log frame body (watchEntered s)),
      i < base := by
    rw [← mark_lt_iff hc hb hr]
    omega
  refine ⟨?_, ?_, ?_⟩
  · -- whatever the body ran, it put its result on the values below `base`
    have hbase : base = t.stack.values.length := by
      have hh := u.stack.height_eq
      rw [hv, List.length_cons] at hh
      omega
    have hsplit : u.stack.values = [value] ++ t.stack.values := hv
    have hd := hk.drop_eq (Nat.le_refl _) hsplit (by omega)
    rw [hbase]
    exact hd.symm
  · omega
  · intro i hi
    rcases Nat.lt_or_ge i base with hlt | hge
    · exact absurd ⟨i, hi, hlt⟩ htouched
    · exact hge

theorem push (value : Value) {g : Unit → Eval β} {next : ∀ a, Log (g a)}
    (hf : ∀ a, Settles base (next a)) :
    Settles base (Log.bind (silent (x := Eval.push value)) next) := by
  refine ⟨(Sound.silent (.push value)).accounts.bind fun a => (hf a).accounts, ?_⟩
  intro s u b h hb hm
  obtain ⟨hv, hmark, hi⟩ := (hf ()).keeps (s := { s with stack := s.stack.pushed value }) h
    (Nat.le_succ_of_le hb) hm
  refine ⟨?_, hmark, hi⟩
  rw [hv]
  simp only [Stack.pushed, Nat.succ_sub hb, List.drop_succ_cons]

theorem bind {log : Log x} {next : ∀ a, Log (f a)} (hx : Settles base log)
    (hf : ∀ a, Steady base (next a)) : Settles base (bind log next) := by
  refine ⟨hx.accounts.bind fun a => (hf a).accounts, ?_⟩
  intro s u b h hb hm
  obtain ⟨a, t, hr, ht⟩ := bind_eq_ok.1 h
  have hl : t.enclosing.length = s.enclosing.length := (hx.accounts.ok hr).enclosing.length_eq
  obtain ⟨hv, hmark, hi⟩ := hx.keeps hr hb hm
  have hh : t.stack.height = base := by
    rw [t.stack.height_eq, hv, List.length_drop, ← s.stack.height_eq]
    omega
  obtain ⟨htu, hj⟩ := (hf a).keeps ht hh (hmark ▸ hm)
  rw [bind_of_ok hr, touchedAt_append, htu, ← hl]
  refine ⟨hv, hmark, ?_⟩
  intro i hmem
  rcases List.mem_append.1 hmem with hmem | hmem
  · exact hi i (hl ▸ hmem)
  · exact hj i hmem

theorem steady {log : Log x} (h : Settles base log) : Steady base log := by
  refine ⟨h.accounts, ?_⟩
  intro s t a hr hs hm
  obtain ⟨hv, hmark, hi⟩ := h.keeps hr (Nat.le_of_eq hs.symm) hm
  rw [hs, Nat.sub_self, List.drop_zero] at hv
  exact ⟨Stack.ext hv hmark, hi⟩

end Settles

namespace Steady
variable {α β ι : Type} {x : Eval α} {f : α → Eval β} {base : Nat}

theorem pure (a : α) : Steady base (silent : Log (Pure.pure a)) := by
  refine ⟨(Still.pure a).accounts, ?_⟩
  intro s t a' h _ _
  cases h
  exact ⟨rfl, nofun⟩

theorem bind {log : Log x} {next : ∀ a, Log (f a)} (hx : Steady base log)
    (hf : ∀ a, Steady base (next a)) : Steady base (bind log next) := by
  refine ⟨hx.accounts.bind fun a => (hf a).accounts, ?_⟩
  intro s u b h hs hm
  obtain ⟨a, t, hr, ht⟩ := bind_eq_ok.1 h
  have hl : t.enclosing.length = s.enclosing.length := (hx.accounts.ok hr).enclosing.length_eq
  obtain ⟨hst, hi⟩ := hx.keeps hr hs hm
  obtain ⟨htu, hj⟩ := (hf a).keeps ht (hst ▸ hs) (hst ▸ hm)
  refine ⟨htu.trans hst, ?_⟩
  rw [bind_of_ok hr, touchedAt_append, ← hl]
  intro i hmem
  rcases List.mem_append.1 hmem with hmem | hmem
  · exact hi i (hl ▸ hmem)
  · exact hj i hmem

theorem of_eq {y : Eval α} {log : Log x} (h : Steady base log) (hxy : x = y) :
    Steady (x := y) base log := by
  subst hxy
  exact h

theorem mapM {g : ι → Eval β} {log : ∀ item, Log (g item)} (h : ∀ item, Steady base (log item))
    (items : List ι) : Steady base (mapM log items) := by
  induction items with
  | nil => exact pure []
  | cons item rest ih =>
    have hb := (h item).bind fun b => ih.bind fun bs => pure (b :: bs)
    exact hb.of_eq List.mapM_cons.symm

theorem foldlM {g : β → ι → Eval β} {log : ∀ b item, Log (g b item)}
    (h : ∀ b item, Steady base (log b item)) (items : List ι) (b : β) :
    Steady base (foldlM log items b) := by
  induction items generalizing b with
  | nil => exact pure b
  | cons item rest ih => exact (h b item).bind ih

section Steps
variable {call : Caller} {log : CallLog call} {frame : String} {body : List Token}
  (hc : Sound (log frame body))
include hc

theorem mapStep (item : Value) : Steady base (mapStep log frame body base item) :=
  (Settles.push item fun _ => .singleResult hc).steady

theorem filterStep (item : Value) : Steady base (filterStep log frame body base item) :=
  (Settles.push item fun _ => (Settles.singleResult hc).bind fun _ => .pure _).steady

theorem reduceStep (accumulator item : Value) :
    Steady base (reduceStep log frame body base accumulator item) :=
  (Settles.push accumulator fun _ => .push item fun _ => .singleResult hc).steady

end Steps

end Steady

end Log

end StackCalc
