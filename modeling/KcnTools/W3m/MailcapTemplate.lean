import KcnTools.W3m.Mailcap

/-! Mailcap command templates as they are meant to be read, and what the loop of
`unquote_mailcap` makes of them. -/

namespace KcnTools.W3m

inductive McToken
  | char (c : UInt8)
  /-- a backslash and the byte behind it -/
  | escaped (c : UInt8)
  /-- two percent signs -/
  | percent
  | directive (directive : McDirective)
  /-- a percent sign or a backslash that begins none of the others -/
  | stray (c : UInt8)
  deriving DecidableEq

/-- What a template asks for: a byte, or the quoted value of a directive. -/
inductive McPart
  | char (c : UInt8)
  | directive (directive : McDirective)
  deriving DecidableEq

def McToken.part : McToken → McPart
  | .char c | .escaped c | .stray c => .char c
  | .percent => .char 37
  | .directive d => .directive d

def McPiece.part : McPiece → McPart
  | .char c => .char c
  | .quoted directive _ _ => .directive directive

/-- The attribute name up to its closing brace, and the template behind it. Braces in the name
are balanced, and a backslash takes the next byte into the name. -/
def attrName : Nat → List UInt8 → Option (List UInt8 × List UInt8)
  | _, [] => none
  | sp, c :: template =>
      if c = 92 then
        match template with
        | [] => none
        | d :: template => (attrName sp template).map fun (name, rest) => (d :: name, rest)
      else if c = 125 ∧ sp = 0 then some ([], template)
      else
        (attrName (if c = 123 then sp + 1 else if c = 125 then sp - 1 else sp) template).map
          fun (name, rest) => (c :: name, rest)

theorem attrName_length {sp : Nat} {template name rest : List UInt8}
    (found : attrName sp template = some (name, rest)) :
    rest.length < template.length := by
  induction sp, template using attrName.induct generalizing name rest with
  | case1 => cases found
  | case2 => simp [attrName] at found
  | case3 sp d template ih =>
      simp only [attrName, if_true, Option.map_eq_some_iff, Prod.exists, Prod.mk.injEq] at found
      obtain ⟨_, _, found, _, rfl⟩ := found
      have shorter := ih found
      simp only [List.length_cons]
      omega
  | case4 sp c template plain closing =>
      rw [attrName.eq_def] at found
      simp only [if_neg plain, if_pos closing, Option.some.injEq, Prod.mk.injEq] at found
      rw [← found.2]
      exact Nat.lt_succ_self _
  | case5 sp c template plain inside ih =>
      rw [attrName.eq_def] at found
      simp only [if_neg plain, if_neg inside, Option.map_eq_some_iff, Prod.exists, Prod.mk.injEq] at found
      obtain ⟨_, _, found, _, rfl⟩ := found
      have shorter := ih found
      rw [List.length_cons]
      omega

/-- The constructs of a template: `\c`, two percent signs, `%s`, `%t` and `%{attr}`. -/
def tokens : List UInt8 → List McToken
  | [] => []
  | c :: template =>
      if c = 92 then
        match template with
        | [] => [.stray 92]
        | d :: template => .escaped d :: tokens template
      else if c = 37 then
        match template with
        | [] => [.stray 37]
        | d :: rest =>
            if d = 37 then .percent :: tokens rest
            else if d = 115 then .directive .name :: tokens rest
            else if d = 116 then .directive .type :: tokens rest
            else if d = 123 then
              match _found : attrName 0 rest with
              | some (name, rest) => .directive (.attr name) :: tokens rest
              | none => .stray 37 :: tokens (d :: rest)
            else .stray 37 :: tokens (d :: rest)
      else .char c :: tokens template
termination_by template => template.length
decreasing_by
  all_goals simp only [List.length_cons]
  all_goals first
    | omega
    | (have shorter := attrName_length _found; omega)

section Tokens

variable {c d : UInt8} {template name rest : List UInt8}

@[simp] theorem tokens_nil : tokens [] = [] := by rw [tokens.eq_def]

@[simp] theorem tokens_backslash : tokens [92] = [.stray 92] := by rw [tokens.eq_def]; simp

@[simp] theorem tokens_escaped : tokens (92 :: d :: template) = .escaped d :: tokens template := by
  rw [tokens.eq_def]
  simp

@[simp] theorem tokens_last : tokens [37] = [.stray 37] := by rw [tokens.eq_def]; simp

@[simp] theorem tokens_percent : tokens (37 :: 37 :: template) = .percent :: tokens template := by
  rw [tokens.eq_def]
  simp

@[simp] theorem tokens_name : tokens (37 :: 115 :: template) = .directive .name :: tokens template := by
  rw [tokens.eq_def]
  simp

@[simp] theorem tokens_type : tokens (37 :: 116 :: template) = .directive .type :: tokens template := by
  rw [tokens.eq_def]
  simp

theorem tokens_attr (found : attrName 0 template = some (name, rest)) :
    tokens (37 :: 123 :: template) = .directive (.attr name) :: tokens rest := by
  rw [tokens.eq_def]
  dsimp only
  rw [if_neg (by decide), if_pos rfl, if_neg (by decide), if_neg (by decide), if_neg (by decide), if_pos rfl]
  split
  next found' =>
    rw [found, Option.some.injEq, Prod.mk.injEq] at found'
    rw [found'.1, found'.2]
  next found' =>
    rw [found] at found'
    cases found'

theorem tokens_open (found : attrName 0 template = none) :
    tokens (37 :: 123 :: template) = .stray 37 :: tokens (123 :: template) := by
  rw [tokens.eq_def]
  dsimp only
  rw [if_neg (by decide), if_pos rfl, if_neg (by decide), if_neg (by decide), if_neg (by decide), if_pos rfl]
  split
  next found' =>
    rw [found] at found'
    cases found'
  · rfl

theorem tokens_stray (percent : d ≠ 37) (name : d ≠ 115) (type : d ≠ 116) (attr : d ≠ 123) :
    tokens (37 :: d :: template) = .stray 37 :: tokens (d :: template) := by
  rw [tokens.eq_def]
  simp [percent, name, type, attr]

theorem tokens_char (backslash : c ≠ 92) (percent : c ≠ 37) :
    tokens (c :: template) = .char c :: tokens template := by
  rw [tokens.eq_def]
  simp [backslash, percent]

end Tokens

/-- What the loop adds behind a percent sign (`prec`) or elsewhere, as it reads the template. -/
def emitted (args : McArgs) (flag0 : McFlag) : Bool → McFlag → List UInt8 → List McPiece
  | _, _, [] => []
  | prec, flag, c :: template =>
      if c = 92 then
        match template with
        | [] => []
        | d :: template => .char d :: emitted args flag0 prec flag template
      else if prec then
        if isAlphaByte c then
          (if c = 115 then [.quoted .name args.name flag]
            else if c = 116 then [.quoted .type args.type flag] else []) ++ emitted args flag0 false flag template
        else if c = 123 then
          match _found : attrName 0 template with
          | some (name, rest) =>
              .quoted (.attr name) (attrValue args.attr name) flag :: emitted args flag0 false flag rest
          | none => []
        else if c = 37 then .char c :: emitted args flag0 true flag template
        else emitted args flag0 true flag template
      else if c = 37 then emitted args flag0 true flag template
      else .char c :: emitted args flag0 false (trackQuote flag0 flag c) template
termination_by _ _ template => template.length
decreasing_by
  all_goals simp only [List.length_cons]
  all_goals first
    | omega
    | (have shorter := attrName_length _found; omega)

section Emitted

variable {args : McArgs} {flag0 flag : McFlag} {prec : Bool} {c d : UInt8} {template name rest : List UInt8}

@[simp] theorem emitted_nil : emitted args flag0 prec flag [] = [] := by rw [emitted.eq_def]

@[simp] theorem emitted_backslash : emitted args flag0 prec flag [92] = [] := by rw [emitted.eq_def]; simp

@[simp] theorem emitted_escaped :
    emitted args flag0 prec flag (92 :: d :: template) = .char d :: emitted args flag0 prec flag template := by
  rw [emitted.eq_def]
  simp

@[simp] theorem emitted_percent :
    emitted args flag0 false flag (37 :: template) = emitted args flag0 true flag template := by
  rw [emitted.eq_def]
  simp

theorem emitted_char (backslash : c ≠ 92) (percent : c ≠ 37) :
    emitted args flag0 false flag (c :: template) =
      .char c :: emitted args flag0 false (trackQuote flag0 flag c) template := by
  rw [emitted.eq_def]
  simp [backslash, percent]

@[simp] theorem emitted_percents :
    emitted args flag0 true flag (37 :: template) = .char 37 :: emitted args flag0 true flag template := by
  rw [emitted.eq_def]
  simp [isAlphaByte]

@[simp] theorem emitted_name :
    emitted args flag0 true flag (115 :: template) =
      .quoted .name args.name flag :: emitted args flag0 false flag template := by
  rw [emitted.eq_def]
  simp [isAlphaByte]

@[simp] theorem emitted_type :
    emitted args flag0 true flag (116 :: template) =
      .quoted .type args.type flag :: emitted args flag0 false flag template := by
  rw [emitted.eq_def]
  simp [isAlphaByte]

theorem emitted_letter (letter : isAlphaByte c = true) (name : c ≠ 115) (type : c ≠ 116) :
    emitted args flag0 true flag (c :: template) = emitted args flag0 false flag template := by
  have backslash : c ≠ 92 := by
    rintro rfl
    exact absurd letter (by decide)
  rw [emitted.eq_def]
  simp [backslash, letter, name, type]

/-- Anything else behind a percent sign is dropped, and the sign is still open. -/
theorem emitted_other (letter : isAlphaByte c = false) (backslash : c ≠ 92) (percent : c ≠ 37) (attr : c ≠ 123) :
    emitted args flag0 true flag (c :: template) = emitted args flag0 true flag template := by
  rw [emitted.eq_def]
  simp [backslash, letter, percent, attr]

theorem emitted_attr (found : attrName 0 template = some (name, rest)) :
    emitted args flag0 true flag (123 :: template) =
      .quoted (.attr name) (attrValue args.attr name) flag :: emitted args flag0 false flag rest := by
  rw [emitted.eq_def]
  dsimp only
  rw [if_neg (by decide), if_pos rfl, if_neg (by decide), if_pos rfl]
  split
  next found' =>
    rw [found, Option.some.injEq, Prod.mk.injEq] at found'
    rw [found'.1, found'.2]
  next found' =>
    rw [found] at found'
    cases found'

theorem emitted_open (found : attrName 0 template = none) : emitted args flag0 true flag (123 :: template) = [] := by
  rw [emitted.eq_def]
  dsimp only
  rw [if_neg (by decide), if_pos rfl, if_neg (by decide), if_pos rfl]
  split
  next found' =>
    rw [found] at found'
    cases found'
  · rfl

end Emitted

section Loop

variable {args : McArgs} {flag0 : McFlag} {sp : Nat} {c d : UInt8} {template name rest : List UInt8} {s : McState}

theorem step_escaped (status : s.status ≠ .quoted) :
    (92 :: d :: template).foldl (unquoteMailcapStep args flag0) s =
      template.foldl (unquoteMailcapStep args flag0)
        (if s.status = .prec2 then { s with tmp := s.tmp ++ [d], prevStatus := s.status }
          else { s with str := s.str ++ [.char d], prevStatus := s.status }) := by
  rw [List.foldl_cons, List.foldl_cons]
  congr 1
  by_cases inside : s.status = .prec2 <;> simp [unquoteMailcapStep, status, inside]

theorem step_inside (args : McArgs) (flag0 : McFlag) (status : s.status = .prec2) (depth : s.sp = sp) (plain : c ≠ 92)
    (inside : ¬(c = 125 ∧ sp = 0)) :
    unquoteMailcapStep args flag0 s c =
      { s with
        tmp := s.tmp ++ [c]
        sp := if c = 123 then sp + 1 else if c = 125 then sp - 1 else sp } := by
  rw [unquoteMailcapStep, if_neg (by simp [status]), if_neg plain, status]
  dsimp only
  by_cases deep : s.sp > 0 ∨ c = 123
  · rw [if_pos deep, depth]
  · have flat : sp = 0 := by omega
    have other : c ≠ 123 := fun same => deep (Or.inr same)
    have content : c ≠ 125 := fun same => inside ⟨same, flat⟩
    simp [other, content, depth, flat]

/-- The loop reads an attribute name up to its brace and adds the quoted value. -/
theorem foldl_attrName (args : McArgs) (flag0 : McFlag) (found : attrName sp template = some (name, rest))
    (status : s.status = .prec2) (depth : s.sp = sp) :
    ∃ after : McState, template.foldl (unquoteMailcapStep args flag0) s =
        rest.foldl (unquoteMailcapStep args flag0) after ∧
      after.status = .normal ∧ after.sp = 0 ∧ after.flag = s.flag ∧
      after.str = s.str ++ [.quoted (.attr (s.tmp ++ name)) (attrValue args.attr (s.tmp ++ name)) s.flag] := by
  induction sp, template using attrName.induct generalizing s name rest with
  | case1 => cases found
  | case2 => simp [attrName] at found
  | case3 sp d template ih =>
      simp only [attrName, if_true, Option.map_eq_some_iff, Prod.exists, Prod.mk.injEq] at found
      obtain ⟨later, _, found, rfl, rfl⟩ := found
      rw [step_escaped (by simp [status]), if_pos status]
      obtain ⟨after, same, normal, closed, flag, added⟩ :=
        ih found (s := { s with tmp := s.tmp ++ [d], prevStatus := s.status }) status depth
      refine ⟨after, same, normal, closed, flag, ?_⟩
      rw [added, List.append_assoc, List.singleton_append]
  | case4 sp c template plain closing =>
      rw [attrName.eq_def] at found
      simp only [if_neg plain, if_pos closing, Option.some.injEq, Prod.mk.injEq] at found
      obtain ⟨rfl, rfl⟩ := found
      obtain ⟨rfl, rfl⟩ := closing
      refine ⟨_, rfl, ?_⟩
      simp [unquoteMailcapStep, status, depth]
  | case5 sp c template plain inside ih =>
      rw [attrName.eq_def] at found
      simp only [if_neg plain, if_neg inside, Option.map_eq_some_iff, Prod.exists, Prod.mk.injEq] at found
      obtain ⟨later, _, found, rfl, rfl⟩ := found
      have read := step_inside args flag0 status depth plain inside
      obtain ⟨after, same, normal, closed, flag, added⟩ :=
        ih found (s := unquoteMailcapStep args flag0 s c) (by rw [read]; exact status) (by rw [read])
      refine ⟨after, same, normal, closed, by rw [flag, read], ?_⟩
      rw [added, read]
      dsimp only
      rw [List.append_assoc, List.singleton_append]

theorem foldl_unclosed (found : attrName sp template = none) (status : s.status = .prec2) (depth : s.sp = sp) :
    (template.foldl (unquoteMailcapStep args flag0) s).str = s.str := by
  induction sp, template using attrName.induct generalizing s with
  | case1 => rfl
  | case2 => simp [unquoteMailcapStep, status]
  | case3 sp d template ih =>
      simp only [attrName, if_true, Option.map_eq_none_iff] at found
      rw [step_escaped (by simp [status]), if_pos status]
      exact ih found status depth
  | case4 sp c template plain closing =>
      rw [attrName.eq_def] at found
      simp [closing] at found
  | case5 sp c template plain inside ih =>
      rw [attrName.eq_def] at found
      simp only [if_neg plain, if_neg inside, Option.map_eq_none_iff] at found
      have read := step_inside args flag0 status depth plain inside
      rw [List.foldl_cons, ih found (by rw [read]; exact status) (by rw [read]), read]

theorem foldl_emitted (prec : Bool) {flag : McFlag} (status : s.status = if prec then .prec else .normal)
    (depth : s.sp = 0) (tracked : s.flag = flag) :
    (template.foldl (unquoteMailcapStep args flag0) s).str = s.str ++ emitted args flag0 prec flag template := by
  induction prec, flag, template using emitted.induct flag0 generalizing s with
  | case1 => simp
  | case2 prec => cases prec <;> simp [unquoteMailcapStep, status]
  | case3 prec flag d template ih =>
      have plain : s.status ≠ .quoted ∧ s.status ≠ .prec2 := by cases prec <;> simp [status]
      rw [step_escaped plain.1, if_neg plain.2,
        ih (s := { s with str := s.str ++ [.char d], prevStatus := s.status }) status depth tracked, emitted_escaped,
        List.append_assoc, List.singleton_append]
  | case4 flag c template backslash letter ih =>
      rw [List.foldl_cons]
      by_cases name : c = 115
      · subst name
        have step := ih (s := unquoteMailcapStep args flag0 s 115) (by simp [unquoteMailcapStep, status, isAlphaByte])
          (by simp [unquoteMailcapStep, status, isAlphaByte, depth])
          (by simp [unquoteMailcapStep, status, isAlphaByte, tracked])
        rw [step, emitted_name]
        simp [unquoteMailcapStep, status, isAlphaByte, tracked]
      · by_cases type : c = 116
        · subst type
          have step := ih (s := unquoteMailcapStep args flag0 s 116)
            (by simp [unquoteMailcapStep, status, isAlphaByte])
            (by simp [unquoteMailcapStep, status, isAlphaByte, depth])
            (by simp [unquoteMailcapStep, status, isAlphaByte, tracked])
          rw [step, emitted_type]
          simp [unquoteMailcapStep, status, isAlphaByte, tracked]
        · have step : unquoteMailcapStep args flag0 s c = { s with status := .normal } := by
            simp [unquoteMailcapStep, status, backslash, letter, name, type]
          rw [step, ih (s := { s with status := .normal }) rfl depth tracked, emitted_letter letter name type]
  | case5 flag template name rest found _ _ ih =>
      have opened : unquoteMailcapStep args flag0 s 123 = { s with status := .prec2, tmp := [] } := by
        simp [unquoteMailcapStep, status, isAlphaByte]
      obtain ⟨after, same, normal, closed, flags, added⟩ := foldl_attrName args flag0 found
        (s := { s with status := .prec2, tmp := [] }) rfl depth
      rw [List.foldl_cons, opened, same, ih normal closed (flags.trans tracked), added, emitted_attr found, tracked,
        List.append_assoc]
      rfl
  | case6 flag template found =>
      have opened : unquoteMailcapStep args flag0 s 123 = { s with status := .prec2, tmp := [] } := by
        simp [unquoteMailcapStep, status, isAlphaByte]
      rw [List.foldl_cons, opened, foldl_unclosed found (s := { s with status := .prec2, tmp := [] }) rfl depth,
        emitted_open found, List.append_nil]
  | case7 flag template _ _ _ ih =>
      have step : unquoteMailcapStep args flag0 s 37 = { s with str := s.str ++ [.char 37] } := by
        simp [unquoteMailcapStep, status, isAlphaByte]
      rw [List.foldl_cons, step, ih (s := { s with str := s.str ++ [.char 37] }) status depth tracked,
        emitted_percents, List.append_assoc, List.singleton_append]
  | case8 flag c template backslash letter attr percent ih =>
      have step : unquoteMailcapStep args flag0 s c = s := by
        simp [unquoteMailcapStep, status, letter, backslash, attr, percent]
      rw [List.foldl_cons, step, ih status depth tracked,
        emitted_other (by simpa using letter) backslash percent attr]
  | case9 prec flag template normal _ ih =>
      obtain rfl : prec = false := by simpa using normal
      have step : unquoteMailcapStep args flag0 s 37 = { s with status := .prec } := by
        simp [unquoteMailcapStep, status]
      rw [List.foldl_cons, step, ih (s := { s with status := .prec }) rfl depth tracked,
        emitted_percent]
  | case10 prec flag c template backslash normal percent ih =>
      obtain rfl : prec = false := by simpa using normal
      have step : unquoteMailcapStep args flag0 s c =
          { s with flag := trackQuote flag0 s.flag c, str := s.str ++ [.char c] } := by
        simp [unquoteMailcapStep, status, backslash, percent]
      rw [List.foldl_cons, step,
        ih (s := { s with flag := trackQuote flag0 s.flag c, str := s.str ++ [.char c] })
          status depth (by rw [tracked]),
        emitted_char backslash percent, List.append_assoc, List.singleton_append]

end Loop

end KcnTools.W3m
