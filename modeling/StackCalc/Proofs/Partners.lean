import StackCalc.Proofs.Nesting

/-!
The partner of an opening bracket. The check of the nesting keeps the brackets that are open and
compares their kinds; the split of a list at a partner only counts. On tokens that the check accepts
the two agree: the count is that of the brackets which the check has opened since.
-/
namespace StackCalc.Token

open Text

/-- The brackets that the check has open after the tokens, the innermost first. There is no answer
where it has failed by then. -/
def keptOpen : List (Bracket × Position) → List Token → Option (List (Bracket × Position))
  | opened, [] => some opened
  | opened, token :: rest =>
    match token.kind with
    | .opener bracket => keptOpen ((bracket, token.position) :: opened) rest
    | .closer bracket =>
      match opened with
      | [] => none
      | (opener, _) :: outer => if opener = bracket then keptOpen outer rest else none
    | _ => keptOpen opened rest

/-- How many more brackets the tokens open than they close, of whatever kind. -/
def bracketDepth : List Token → Int
  | [] => 0
  | token :: rest =>
    match token.kind with
    | .opener _ => bracketDepth rest + 1
    | .closer _ => bracketDepth rest - 1
    | _ => bracketDepth rest

section Steps
variable {opened outer : List (Bracket × Position)} {token : Token} {rest : List Token}

theorem keptOpen_plain (h : token.kind.isBracket = false) :
    keptOpen opened (token :: rest) = keptOpen opened rest := by
  obtain ⟨kind, position⟩ := token
  cases kind with
  | opener bracket => cases h
  | closer bracket => cases h
  | _ => rfl

theorem keptOpen_opener (bracket : Bracket) (p : Position) :
    keptOpen opened (⟨.opener bracket, p⟩ :: rest) = keptOpen ((bracket, p) :: opened) rest := rfl

/-- A closing bracket that the check passes ends the innermost open bracket, which is of its
kind. -/
theorem keptOpen_closer_eq_some {bracket : Bracket} {q : Position}
    {left : List (Bracket × Position)} :
    keptOpen opened (⟨.closer bracket, q⟩ :: rest) = some left ↔
      ∃ p outer, opened = (bracket, p) :: outer ∧ keptOpen outer rest = some left := by
  cases opened with
  | nil => simp [keptOpen]
  | cons last outer =>
    obtain ⟨opener, p⟩ := last
    simp only [keptOpen]
    split
    next hb =>
      subst hb
      constructor
      · intro h
        exact ⟨p, outer, rfl, h⟩
      · rintro ⟨_, _, ⟨⟩, h⟩
        exact h
    next hb =>
      constructor
      · intro h
        cases h
      · rintro ⟨_, _, ⟨⟩, -⟩
        exact absurd rfl hb

theorem bracketDepth_plain (h : token.kind.isBracket = false) :
    bracketDepth (token :: rest) = bracketDepth rest := by
  obtain ⟨kind, position⟩ := token
  cases kind with
  | opener bracket => cases h
  | closer bracket => cases h
  | _ => rfl

theorem splitAtCloser_plain {depth : Nat} (h : token.kind.isBracket = false) :
    splitAtCloser depth (token :: rest) =
      (splitAtCloser depth rest).map fun (body, after) => (token :: body, after) := by
  obtain ⟨kind, position⟩ := token
  cases kind with
  | opener bracket => cases h
  | closer bracket => cases h
  | _ => rfl

end Steps

section Prefixes
variable {opened left : List (Bracket × Position)} {front tokens : List Token}

theorem keptOpen_append (opened : List (Bracket × Position)) (front rest : List Token) :
    keptOpen opened (front ++ rest) = (keptOpen opened front).bind (keptOpen · rest) := by
  induction front generalizing opened with
  | nil => rfl
  | cons token front ih =>
    rw [List.cons_append]
    rcases token.plain_or_bracket with hk | ⟨bracket, position, rfl⟩ | ⟨bracket, position, rfl⟩
    · rw [keptOpen_plain hk, keptOpen_plain hk, ih]
    · rw [keptOpen_opener, keptOpen_opener, ih]
    · cases opened with
      | nil => rfl
      | cons last outer =>
        simp only [keptOpen]
        split
        · exact ih outer
        · rfl

/-- The check never looks below the brackets that it has open. -/
theorem keptOpen_above (h : keptOpen opened front = some left)
    (base : List (Bracket × Position)) :
    keptOpen (opened ++ base) front = some (left ++ base) := by
  induction front generalizing opened with
  | nil =>
    cases h
    rfl
  | cons token front ih =>
    rcases token.plain_or_bracket with hk | ⟨bracket, position, rfl⟩ | ⟨bracket, position, rfl⟩
    · rw [keptOpen_plain hk] at h ⊢
      exact ih h
    · exact ih h
    · obtain ⟨p, outer, rfl, hr⟩ := keptOpen_closer_eq_some.1 h
      exact keptOpen_closer_eq_some.2 ⟨p, outer ++ base, rfl, ih hr⟩

/-- What is kept open is what the check goes on with. -/
theorem checkNestingFrom_of_keptOpen (h : keptOpen opened front = some left)
    (rest : List Token) :
    checkNestingFrom opened (front ++ rest) = checkNestingFrom left rest := by
  induction front generalizing opened with
  | nil =>
    cases h
    rfl
  | cons token front ih =>
    rw [List.cons_append]
    rcases token.plain_or_bracket with hk | ⟨bracket, position, rfl⟩ | ⟨bracket, position, rfl⟩
    · rw [keptOpen_plain hk] at h
      rw [checkNestingFrom_plain hk, ih h]
    · rw [checkNestingFrom_opener, ih h]
    · obtain ⟨p, outer, rfl, hr⟩ := keptOpen_closer_eq_some.1 h
      rw [checkNestingFrom_closer, ih hr]

/-- Where nothing is kept open any more, and only there, the check accepts. -/
theorem checkNestingFrom_eq_ok_iff :
    checkNestingFrom opened tokens = .ok () ↔ keptOpen opened tokens = some [] := by
  constructor
  · intro h
    induction tokens generalizing opened with
    | nil =>
      cases opened with
      | nil => rfl
      | cons last outer => cases h
    | cons token rest ih =>
      rcases token.plain_or_bracket with hk | ⟨bracket, position, rfl⟩ | ⟨bracket, position, rfl⟩
      · rw [checkNestingFrom_plain hk] at h
        rw [keptOpen_plain hk]
        exact ih h
      · rw [checkNestingFrom_opener] at h
        exact ih h
      · cases opened with
        | nil => cases h
        | cons last outer =>
          simp only [checkNestingFrom] at h
          simp only [keptOpen]
          split at h
          next hb =>
            rw [if_pos hb]
            exact ih h
          next => cases h
  · intro h
    have hrest := checkNestingFrom_of_keptOpen h []
    rwa [List.append_nil] at hrest

theorem checkNesting_iff_keptOpen : checkNesting tokens = .ok () ↔ keptOpen [] tokens = some [] :=
  checkNestingFrom_eq_ok_iff

/-- The kinds aside, the check counts. -/
theorem length_of_keptOpen (h : keptOpen opened front = some left) :
    (left.length : Int) = opened.length + bracketDepth front := by
  induction front generalizing opened with
  | nil =>
    cases h
    exact (Int.add_zero _).symm
  | cons token front ih =>
    rcases token.plain_or_bracket with hk | ⟨bracket, position, rfl⟩ | ⟨bracket, position, rfl⟩
    · rw [keptOpen_plain hk] at h
      rw [ih h, bracketDepth_plain hk]
    · have hlen := ih (keptOpen_opener bracket position ▸ h)
      simp only [List.length_cons, bracketDepth] at hlen ⊢
      omega
    · obtain ⟨p, outer, rfl, hr⟩ := keptOpen_closer_eq_some.1 h
      have hlen := ih hr
      simp only [List.length_cons, bracketDepth]
      omega

/-- As long as the check passes the tokens, the split goes on through them with the number of
brackets that the check has open. -/
theorem splitAtCloser_of_keptOpen (h : keptOpen opened front = some left) (rest : List Token) :
    splitAtCloser opened.length (front ++ rest) =
      (splitAtCloser left.length rest).map fun (body, after) => (front ++ body, after) := by
  -- over the tokens in front: a bracket changes the counter and the open brackets by one each
  induction front generalizing opened with
  | nil =>
    cases h
    exact Option.map_id'.symm
  | cons token front ih =>
    rw [List.cons_append]
    rcases token.plain_or_bracket with hk | ⟨bracket, position, rfl⟩ | ⟨bracket, position, rfl⟩
    · rw [keptOpen_plain hk] at h
      rw [splitAtCloser_plain hk, ih h, Option.map_map]
      rfl
    · have hsplit := ih (keptOpen_opener bracket position ▸ h)
      rw [List.length_cons] at hsplit
      simp only [splitAtCloser, hsplit, Option.map_map]
      rfl
    · obtain ⟨p, outer, rfl, hr⟩ := keptOpen_closer_eq_some.1 h
      simp only [List.length_cons, splitAtCloser, ih hr, Option.map_map]
      rfl

end Prefixes

/-- In tokens that the check accepts, every opening bracket is split at the closing bracket of its
own kind that ends it in the check as well. On the way there, the counter of the split stays above
zero and is the number of open brackets from the one in question on; at the closing bracket it
becomes zero. The tokens in between are accepted, and so are those before and those after if the
opening bracket stands in no other. -/
theorem partner_of_checkNesting {before rest : List Token} {bracket : Bracket} {p : Position}
    (h : checkNesting (before ++ ⟨.opener bracket, p⟩ :: rest) = .ok ()) :
    ∃ body q after opened,
      rest = body ++ ⟨.closer bracket, q⟩ :: after ∧
      splitAtCloser 0 rest = some (body, after) ∧
      keptOpen [] before = some opened ∧
      (∀ front back, body = front ++ back → ∃ above,
        keptOpen [] (before ++ ⟨.opener bracket, p⟩ :: front) =
          some (above ++ (bracket, p) :: opened) ∧
        splitAtCloser 0 rest =
          (splitAtCloser above.length (back ++ ⟨.closer bracket, q⟩ :: after)).map
            (fun (body, after) => (front ++ body, after)) ∧
        bracketDepth (⟨.opener bracket, p⟩ :: front) = above.length + 1) ∧
      keptOpen [] (before ++ ⟨.opener bracket, p⟩ :: body) = some ((bracket, p) :: opened) ∧
      keptOpen [] (before ++ ⟨.opener bracket, p⟩ :: (body ++ [⟨.closer bracket, q⟩])) =
        some opened ∧
      bracketDepth (⟨.opener bracket, p⟩ :: (body ++ [⟨.closer bracket, q⟩])) = 0 ∧
      checkNesting body = .ok () ∧
      (opened = [] → checkNesting before = .ok () ∧ checkNesting after = .ok ()) := by
  rw [checkNesting_iff_keptOpen, keptOpen_append, Option.bind_eq_some_iff] at h
  obtain ⟨opened, hbefore, hrest⟩ := h
  rw [keptOpen_opener] at hrest
  -- the rest is accepted with the bracket open, so that it ends it somewhere
  obtain ⟨body, q, after, rfl, hbody, -⟩ :=
    closes_of_checkNestingFrom (checkNestingFrom_eq_ok_iff.2 hrest)
  have hclosed : checkNesting body = .ok () := checkNesting_eq_ok_iff.2 hbody
  have hkept := checkNesting_iff_keptOpen.1 hclosed
  -- what is kept open behind the opening bracket stands on top of what was open before it
  have hopen {inner : List Token} {above : List (Bracket × Position)}
      (hi : keptOpen [] inner = some above) :
      keptOpen [] (before ++ ⟨.opener bracket, p⟩ :: inner) =
        some (above ++ (bracket, p) :: opened) := by
    rw [keptOpen_append, hbefore, Option.bind_some, keptOpen_opener]
    exact keptOpen_above hi _
  have hpaired : keptOpen [] (before ++ ⟨.opener bracket, p⟩ :: (body ++ [⟨.closer bracket, q⟩])) =
      some opened := by
    rw [← List.cons_append, ← List.append_assoc, keptOpen_append, hopen hkept, Option.bind_some]
    exact keptOpen_closer_eq_some.2 ⟨p, opened, rfl, rfl⟩
  refine ⟨body, q, after, opened, rfl, hbody.splitAtCloser_append bracket q after, hbefore, ?_,
    hopen hkept, hpaired, ?_, hclosed, ?_⟩
  · -- part of the way, the check of the body alone has `above` open, and the counter is its length
    rintro front back rfl
    rw [keptOpen_append, Option.bind_eq_some_iff] at hkept
    obtain ⟨above, hfront, -⟩ := hkept
    have hsplit := splitAtCloser_of_keptOpen hfront (back ++ ⟨.closer bracket, q⟩ :: after)
    have hlen := length_of_keptOpen hfront
    refine ⟨above, hopen hfront, ?_, ?_⟩
    · rw [List.append_assoc]
      exact hsplit
    · simp only [bracketDepth, List.length_nil] at hlen ⊢
      omega
  · have hpair : keptOpen [] (⟨.opener bracket, p⟩ :: (body ++ [⟨.closer bracket, q⟩])) =
        some [] :=
      checkNesting_iff_keptOpen.1 (checkNesting_eq_ok_iff.2 (.enclosed hbody .nil))
    have hlen := length_of_keptOpen hpair
    simp only [List.length_nil] at hlen
    omega
  · -- an outermost pair leaves nothing open on either side
    rintro rfl
    refine ⟨checkNesting_iff_keptOpen.2 hbefore, checkNesting_iff_keptOpen.2 ?_⟩
    have habove : keptOpen [(bracket, p)] body = some [(bracket, p)] :=
      keptOpen_above hkept [(bracket, p)]
    rw [keptOpen_append, habove, Option.bind_some] at hrest
    obtain ⟨_, _, ⟨⟩, hafter⟩ := keptOpen_closer_eq_some.1 hrest
    exact hafter

/-- Between square brackets, a brace around an empty array finds its own partner. -/
theorem partner_of_enclosed :
    checkNesting ([⟨.opener .square, {}⟩] ++ ⟨.opener .brace, {}⟩ :: [⟨.opener .square, {}⟩,
        ⟨.closer .square, {}⟩, ⟨.closer .brace, {}⟩, ⟨.closer .square, {}⟩]) = .ok () ∧
      ∃ body q after,
        splitAtCloser 0 [⟨.opener .square, {}⟩, ⟨.closer .square, {}⟩, ⟨.closer .brace, {}⟩,
          ⟨.closer .square, {}⟩] = some (body, after) ∧
        [⟨.opener .square, {}⟩, ⟨.closer .square, {}⟩, ⟨.closer .brace, {}⟩,
          ⟨.closer .square, {}⟩] = body ++ ⟨.closer .brace, q⟩ :: after ∧
        checkNesting body = .ok () := by
  have h : checkNesting ([⟨.opener .square, {}⟩] ++ ⟨.opener .brace, {}⟩ ::
      [⟨.opener .square, {}⟩, ⟨.closer .square, {}⟩, ⟨.closer .brace, {}⟩,
        ⟨.closer .square, {}⟩]) = .ok () := rfl
  obtain ⟨body, q, after, _, hrest, hsplit, -, -, -, -, -, hbody, -⟩ := partner_of_checkNesting h
  exact ⟨h, body, q, after, hsplit, hrest, hbody⟩

end StackCalc.Token
