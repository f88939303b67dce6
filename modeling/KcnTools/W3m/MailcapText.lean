import KcnTools.W3m.MailcapTemplate

/-! The templates whose text `unquote_mailcap` keeps. The loop does not leave the state behind a
percent sign when it finds a second one there, so it can fall out of step with the template. -/

namespace KcnTools.W3m

inductive McReading
  | inStep
  /-- a percent sign of the template was not added, and the loop is behind it -/
  | owing
  /-- all was added, but the loop is behind a percent sign -/
  | stuck

def keepsText : McReading → List McToken → Bool
  | .inStep, [] => true
  | .inStep, .char _ :: rest => keepsText .inStep rest
  | .inStep, .escaped _ :: rest => keepsText .inStep rest
  | .inStep, .directive _ :: rest => keepsText .inStep rest
  | .inStep, .percent :: rest => keepsText .stuck rest
  | .inStep, .stray c :: rest => c = 37 && keepsText .owing rest
  | .owing, [] => false
  | .owing, .char _ :: _ => false
  | .owing, .escaped c :: rest => c = 37 && keepsText .owing rest
  | .owing, .directive _ :: rest => keepsText .inStep rest
  | .owing, .percent :: rest => keepsText .stuck rest
  | .owing, .stray c :: rest => c = 37 && keepsText .owing rest
  | .stuck, [] => true
  | .stuck, .char _ :: _ => false
  | .stuck, .escaped _ :: rest => keepsText .stuck rest
  | .stuck, .directive _ :: _ => false
  | .stuck, .percent :: _ => false
  | .stuck, .stray c :: rest => c = 37 && keepsText .stuck rest

def McArgs.value (args : McArgs) : McDirective → Option (List UInt8)
  | .name => args.name
  | .type => args.type
  | .attr name => attrValue args.attr name

/-- The pieces that the constructs ask for, the values quoted for the quotes copied so far. -/
def expectedPieces (args : McArgs) (flag0 : McFlag) : McFlag → List McToken → List McPiece
  | _, [] => []
  | flag, .char c :: rest => .char c :: expectedPieces args flag0 (trackQuote flag0 flag c) rest
  | flag, .escaped c :: rest => .char c :: expectedPieces args flag0 flag rest
  | flag, .percent :: rest => .char 37 :: expectedPieces args flag0 flag rest
  | flag, .directive d :: rest => .quoted d (args.value d) flag :: expectedPieces args flag0 flag rest
  | flag, .stray c :: rest => .char c :: expectedPieces args flag0 flag rest

theorem expectedPieces_part (args : McArgs) (flag0 flag : McFlag) (constructs : List McToken) :
    (expectedPieces args flag0 flag constructs).map McPiece.part = constructs.map McToken.part := by
  induction constructs generalizing flag with
  | nil => rfl
  | cons construct rest ih => cases construct <;> simp [expectedPieces, McPiece.part, McToken.part, ih]

section Kept

variable {args : McArgs} {flag0 : McFlag}

/-- A template whose text is kept: the loop adds what the constructs ask for. -/
theorem emitted_of_keepsText (template : List UInt8) (flag : McFlag) :
    (keepsText .inStep (tokens template) = true →
      emitted args flag0 false flag template = expectedPieces args flag0 flag (tokens template)) ∧
    (keepsText .stuck (tokens template) = true →
      emitted args flag0 true flag template = expectedPieces args flag0 flag (tokens template)) ∧
    (keepsText .owing (tokens template) = true →
      emitted args flag0 true flag template = .char 37 :: expectedPieces args flag0 flag (tokens template)) := by
  induction template using tokens.induct generalizing flag with
  | case1 => simp [keepsText, expectedPieces]
  | case2 => simp [keepsText]
  | case3 d template ih =>
      obtain ⟨inStep, stuck, owing⟩ := ih flag
      simp only [tokens_escaped, emitted_escaped, keepsText, expectedPieces, List.cons.injEq, true_and,
        Bool.and_eq_true, decide_eq_true_eq]
      refine ⟨inStep, stuck, ?_⟩
      rintro ⟨rfl, kept⟩
      exact ⟨rfl, owing kept⟩
  | case4 => simp [keepsText, expectedPieces]
  | case5 template _ ih =>
      obtain ⟨inStep, stuck, owing⟩ := ih flag
      simp only [tokens_percent, emitted_percent, emitted_percents, keepsText, expectedPieces, List.cons.injEq,
        true_and]
      exact ⟨stuck, nofun, stuck⟩
  | case6 template _ _ ih =>
      obtain ⟨inStep, stuck, owing⟩ := ih flag
      simp only [tokens_name, emitted_percent, emitted_percents, emitted_name, keepsText, expectedPieces,
        List.cons.injEq, true_and, McArgs.value]
      exact ⟨inStep, nofun, inStep⟩
  | case7 template _ _ _ ih =>
      obtain ⟨inStep, stuck, owing⟩ := ih flag
      simp only [tokens_type, emitted_percent, emitted_percents, emitted_type, keepsText, expectedPieces,
        List.cons.injEq, true_and, McArgs.value]
      exact ⟨inStep, nofun, inStep⟩
  | case8 template name rest found _ _ _ _ ih =>
      obtain ⟨inStep, stuck, owing⟩ := ih flag
      simp only [tokens_attr found, emitted_percent, emitted_percents, emitted_attr found, keepsText, expectedPieces,
        List.cons.injEq, true_and, McArgs.value]
      exact ⟨inStep, nofun, inStep⟩
  | case9 template found _ _ _ _ ih =>
      obtain ⟨inStep, stuck, owing⟩ := ih flag
      simp only [tokens_open found, emitted_percent, emitted_percents, keepsText, expectedPieces,
        List.cons.injEq, true_and, decide_true, Bool.true_and]
      exact ⟨owing, stuck, owing⟩
  | case10 d template percent name type attr _ ih =>
      obtain ⟨inStep, stuck, owing⟩ := ih flag
      simp only [tokens_stray percent name type attr, emitted_percent, emitted_percents, keepsText, expectedPieces,
        List.cons.injEq, true_and, decide_true, Bool.true_and]
      exact ⟨owing, stuck, owing⟩
  | case11 c template backslash percent ih =>
      obtain ⟨inStep, _, _⟩ := ih (trackQuote flag0 flag c)
      simp only [tokens_char backslash percent, emitted_char backslash percent, keepsText, expectedPieces,
        List.cons.injEq, true_and]
      exact ⟨inStep, nofun, nofun⟩

end Kept

section Lost

variable {args : McArgs} {flag0 : McFlag}

/-- A name at a deeper brace is the name up to the brace, the brace, and the name from there on. -/
theorem attrName_deeper (deeper sp : Nat) (template : List UInt8) :
    (attrName (deeper + (sp + 1)) template).map Prod.snd =
      (attrName deeper template).bind fun (_, rest) => (attrName sp rest).map Prod.snd := by
  induction deeper, template using attrName.induct with
  | case1 => simp [attrName]
  | case2 => simp [attrName]
  | case3 deeper d template ih =>
      simp only [attrName, if_true, Option.map_map, Option.bind_map]
      exact ih
  | case4 deeper c template plain closing =>
      obtain ⟨rfl, rfl⟩ := closing
      rw [attrName.eq_def, attrName.eq_def 0]
      simp [Function.comp_def]
  | case5 deeper c template plain inside ih =>
      have opened : ¬(c = 125 ∧ deeper + (sp + 1) = 0) := fun same => absurd same.2 (by omega)
      have depth : (if c = 123 then deeper + (sp + 1) + 1 else if c = 125 then deeper + (sp + 1) - 1
          else deeper + (sp + 1)) =
          (if c = 123 then deeper + 1 else if c = 125 then deeper - 1 else deeper) + (sp + 1) := by
        split_ifs with brace close
        · omega
        · have positive : deeper ≠ 0 := fun flat => inside ⟨close, flat⟩
          omega
        · rfl
      rw [attrName.eq_def, attrName.eq_def deeper]
      simp only [if_neg plain, if_neg opened, if_neg inside, depth, Option.map_map, Option.bind_map]
      exact ih

def contentCount (parts : List McPart) : Nat := parts.countP (· ≠ .char 37)

theorem contentCount_cons (part : McPart) (parts : List McPart) :
    contentCount (part :: parts) = contentCount parts + if part = .char 37 then 0 else 1 := by
  rw [contentCount, List.countP_cons, ← contentCount]
  by_cases percent : part = .char 37 <;> simp [percent]

theorem attrName_inside {sp : Nat} {c : UInt8} {template name rest : List UInt8}
    (found : attrName sp (c :: template) = some (name, rest)) (backslash : c ≠ 92) (inside : ¬(c = 125 ∧ sp = 0)) :
    ∃ name, attrName (if c = 123 then sp + 1 else if c = 125 then sp - 1 else sp) template = some (name, rest) := by
  rw [attrName.eq_def] at found
  simp only [if_neg backslash, if_neg inside, Option.map_eq_some_iff, Prod.exists, Prod.mk.injEq] at found
  obtain ⟨name, _, found, _, rfl⟩ := found
  exact ⟨name, found⟩

theorem contentCount_attrName (sp : Nat) {template name rest : List UInt8}
    (found : attrName sp template = some (name, rest)) :
    contentCount ((tokens rest).map McToken.part) ≤ contentCount ((tokens template).map McToken.part) := by
  induction template using tokens.induct generalizing sp name rest with
  | case1 => simp [attrName] at found
  | case2 => simp [attrName] at found
  | case3 d template ih =>
      simp only [attrName, if_true, Option.map_eq_some_iff, Prod.exists, Prod.mk.injEq] at found
      obtain ⟨_, _, found, _, rfl⟩ := found
      rw [tokens_escaped, List.map_cons, contentCount_cons]
      exact Nat.le_add_right_of_le (ih sp found)
  | case4 => simp [attrName] at found
  | case5 template _ ih =>
      obtain ⟨_, found⟩ := attrName_inside found (by decide) (by simp)
      obtain ⟨_, found⟩ := attrName_inside found (by decide) (by simp)
      rw [tokens_percent, List.map_cons, contentCount_cons]
      exact Nat.le_add_right_of_le (ih _ found)
  | case6 template _ _ ih =>
      obtain ⟨_, found⟩ := attrName_inside found (by decide) (by simp)
      obtain ⟨_, found⟩ := attrName_inside found (by decide) (by simp)
      rw [tokens_name, List.map_cons, contentCount_cons]
      exact Nat.le_add_right_of_le (ih _ found)
  | case7 template _ _ _ ih =>
      obtain ⟨_, found⟩ := attrName_inside found (by decide) (by simp)
      obtain ⟨_, found⟩ := attrName_inside found (by decide) (by simp)
      rw [tokens_type, List.map_cons, contentCount_cons]
      exact Nat.le_add_right_of_le (ih _ found)
  | case8 template inner behind closed _ _ _ _ ih =>
      obtain ⟨_, found⟩ := attrName_inside found (by decide) (by simp)
      obtain ⟨name, found⟩ := attrName_inside found (by decide) (by simp)
      have found : attrName (sp + 1) template = some (name, rest) := by simpa using found
      -- the outer name goes on behind the brace of the inner one
      have deeper := attrName_deeper 0 sp template
      rw [Nat.zero_add, found, closed] at deeper
      obtain ⟨⟨_, _⟩, later, rfl⟩ := Option.map_eq_some_iff.mp deeper.symm
      rw [tokens_attr closed, List.map_cons, contentCount_cons]
      exact Nat.le_add_right_of_le (ih sp later)
  | case9 template unclosed _ _ _ _ ih =>
      obtain ⟨_, found⟩ := attrName_inside found (by decide) (by simp)
      rw [tokens_open unclosed, List.map_cons, contentCount_cons]
      exact Nat.le_add_right_of_le (ih _ found)
  | case10 d template percent named typed attr _ ih =>
      obtain ⟨_, found⟩ := attrName_inside found (by decide) (by simp)
      rw [tokens_stray percent named typed attr, List.map_cons, contentCount_cons]
      exact Nat.le_add_right_of_le (ih _ found)
  | case11 c template backslash percent ih =>
      rw [tokens_char backslash percent, List.map_cons, contentCount_cons]
      by_cases closing : c = 125 ∧ sp = 0
      · rw [attrName.eq_def] at found
        simp only [if_neg backslash, if_pos closing, Option.some.injEq, Prod.mk.injEq] at found
        rw [found.2]
        exact Nat.le_add_right _ _
      · obtain ⟨_, found⟩ := attrName_inside found backslash closing
        exact Nat.le_add_right_of_le (ih _ found)

theorem contentCount_emitted (prec : Bool) (flag : McFlag) (template : List UInt8) :
    contentCount ((emitted args flag0 prec flag template).map McPiece.part) ≤
      contentCount ((tokens template).map McToken.part) := by
  induction size : template.length using Nat.strongRecOn generalizing prec flag template with
  | _ size shorter =>
  subst size
  cases template using tokens.fun_cases with
  | case1 => simp
  | case2 => simp [contentCount]
  | case3 d template =>
      rw [tokens_escaped, emitted_escaped, List.map_cons, List.map_cons, contentCount_cons, contentCount_cons]
      have later := shorter _ (by simp only [List.length_cons]; omega) prec flag template rfl
      exact Nat.add_le_add_right later _
  | case4 => cases prec <;> simp [contentCount, McPiece.part, McToken.part]
  | case5 template =>
      have later := shorter _ (by simp only [List.length_cons]; omega) true flag template rfl
      rw [tokens_percent, List.map_cons, contentCount_cons]
      cases prec
      all_goals simpa [contentCount_cons, McPiece.part, McToken.part] using later
  | case6 template =>
      have later := shorter _ (by simp only [List.length_cons]; omega) false flag template rfl
      rw [tokens_name, List.map_cons, contentCount_cons]
      cases prec
      all_goals simpa [contentCount_cons, McPiece.part, McToken.part] using later
  | case7 template =>
      have later := shorter _ (by simp only [List.length_cons]; omega) false flag template rfl
      rw [tokens_type, List.map_cons, contentCount_cons]
      cases prec
      all_goals simpa [contentCount_cons, McPiece.part, McToken.part] using later
  | case8 template name rest found =>
      have smaller := attrName_length found
      have later := shorter _ (by simp only [List.length_cons]; omega) false flag rest rfl
      rw [tokens_attr found, List.map_cons, contentCount_cons]
      cases prec
      all_goals simpa [contentCount_cons, McPiece.part, McToken.part, emitted_attr found] using later
  | case9 template found =>
      have later := shorter _ (by simp) true flag (123 :: template) rfl
      rw [tokens_open found, List.map_cons, contentCount_cons]
      cases prec
      all_goals simpa [contentCount_cons, McPiece.part, McToken.part] using later
  | case10 d template percent name type attr =>
      have later := shorter _ (by simp) true flag (d :: template) rfl
      rw [tokens_stray percent name type attr, List.map_cons, contentCount_cons]
      cases prec
      all_goals simpa [contentCount_cons, McPiece.part, McToken.part] using later
  | case11 c template backslash percent =>
      have later := fun prec flag => shorter _ (by simp) prec flag template rfl
      rw [tokens_char backslash percent, List.map_cons, contentCount_cons]
      cases prec with
      | false =>
          rw [emitted_char backslash percent, List.map_cons, contentCount_cons]
          exact Nat.add_le_add_right (later false _) _
      | true =>
          by_cases letter : isAlphaByte c = true
          · by_cases name : c = 115
            · subst name
              rw [emitted_name, List.map_cons, contentCount_cons]
              exact Nat.add_le_add_right (later false flag) _
            · by_cases type : c = 116
              · subst type
                rw [emitted_type, List.map_cons, contentCount_cons]
                exact Nat.add_le_add_right (later false flag) _
              · rw [emitted_letter letter name type]
                exact Nat.le_add_right_of_le (later false flag)
          · by_cases attr : c = 123
            · subst attr
              cases found : attrName 0 template with
              | none =>
                  rw [emitted_open found]
                  exact Nat.zero_le _
              | some read =>
                  have smaller := attrName_length found
                  have behind := shorter _ (by simp only [List.length_cons]; omega) false flag read.2 rfl
                  rw [emitted_attr found, List.map_cons, contentCount_cons]
                  exact Nat.add_le_add_right (Nat.le_trans behind (contentCount_attrName 0 found)) _
            · rw [emitted_other (by simpa using letter) backslash percent attr]
              exact Nat.le_add_right_of_le (later true flag)

theorem replicate_append_self {α : Type} (count : Nat) (a : α) (rest : List α) :
    List.replicate count a ++ a :: rest = a :: (List.replicate count a ++ rest) := by
  induction count with
  | zero => rfl
  | succ count ih => rw [List.replicate_succ, List.cons_append, ih, List.cons_append]

/-- Once the loop has added a percent sign too many, its text is another to the end. -/
theorem emitted_ahead (count : Nat) (flag : McFlag) (template : List UInt8) :
    List.replicate (count + 1) (.char 37) ++ (emitted args flag0 true flag template).map McPiece.part ≠
      (tokens template).map McToken.part := by
  induction template using tokens.induct generalizing count flag with
  | case1 => simp
  | case2 => simp [List.replicate_succ, McToken.part]
  | case3 d template ih =>
      intro same
      have first : (.char 37 : McPart) = .char d := by
        simpa [List.replicate_succ, McToken.part] using congrArg List.head? same
      injection first with first
      subst first
      simp only [emitted_escaped, tokens_escaped, List.map_cons, McPiece.part, McToken.part,
        replicate_append_self, List.cons.injEq, true_and] at same
      exact ih count flag same
  | case4 => simp [List.replicate_succ, McToken.part, McPiece.part]
  | case5 template _ ih =>
      intro same
      simp only [emitted_percents, tokens_percent, List.map_cons, McPiece.part, McToken.part,
        replicate_append_self, List.cons.injEq, true_and] at same
      rw [← List.cons_append, ← List.replicate_succ] at same
      exact ih (count + 1) flag same
  | case6 template _ _ ih => simp [List.replicate_succ, McToken.part]
  | case7 template _ _ _ ih => simp [List.replicate_succ, McToken.part]
  | case8 template name rest found _ _ _ _ ih => simp [List.replicate_succ, McToken.part, tokens_attr found]
  | case9 template found _ _ _ _ ih =>
      intro same
      simp only [emitted_percents, tokens_open found, List.map_cons, McPiece.part, McToken.part,
        replicate_append_self, List.cons.injEq, true_and] at same
      exact ih count flag same
  | case10 d template percent name type attr _ ih =>
      intro same
      simp only [emitted_percents, tokens_stray percent name type attr, List.map_cons, McPiece.part, McToken.part,
        replicate_append_self, List.cons.injEq, true_and] at same
      exact ih count flag same
  | case11 c template backslash percent ih =>
      intro same
      have first : (.char 37 : McPart) = .char c := by
        simpa [List.replicate_succ, McToken.part, tokens_char backslash percent] using congrArg List.head? same
      injection first with first
      exact percent first.symm

theorem emitted_plain (args : McArgs) (flag0 : McFlag) {c : UInt8} (backslash : c ≠ 92) (percent : c ≠ 37)
    (flag : McFlag)
    (template : List UInt8) :
    (∃ d rest, (emitted args flag0 true flag (c :: template)).map McPiece.part = .directive d :: rest) ∨
      contentCount ((emitted args flag0 true flag (c :: template)).map McPiece.part) ≤
        contentCount ((tokens template).map McToken.part) := by
  by_cases letter : isAlphaByte c = true
  · by_cases name : c = 115
    · subst name
      rw [emitted_name]
      exact Or.inl ⟨_, _, rfl⟩
    · by_cases type : c = 116
      · subst type
        rw [emitted_type]
        exact Or.inl ⟨_, _, rfl⟩
      · rw [emitted_letter letter name type]
        exact Or.inr (contentCount_emitted _ _ _)
  · by_cases attr : c = 123
    · subst attr
      cases found : attrName 0 template with
      | none =>
          rw [emitted_open found]
          exact Or.inr (Nat.zero_le _)
      | some read =>
          rw [emitted_attr found]
          exact Or.inl ⟨_, _, rfl⟩
    · rw [emitted_other (by simpa using letter) backslash percent attr]
      exact Or.inr (contentCount_emitted _ _ _)

theorem keepsText_of_emitted (template : List UInt8) (flag : McFlag) :
    ((emitted args flag0 false flag template).map McPiece.part = (tokens template).map McToken.part →
      keepsText .inStep (tokens template) = true) ∧
    ((emitted args flag0 true flag template).map McPiece.part = (tokens template).map McToken.part →
      keepsText .stuck (tokens template) = true) ∧
    ((emitted args flag0 true flag template).map McPiece.part = .char 37 :: (tokens template).map McToken.part →
      keepsText .owing (tokens template) = true) := by
  induction template using tokens.induct generalizing flag with
  | case1 => simp [keepsText]
  | case2 => simp
  | case3 d template ih =>
      obtain ⟨inStep, stuck, owing⟩ := ih flag
      simp only [tokens_escaped, emitted_escaped, keepsText, List.map_cons, McPiece.part, McToken.part,
        List.cons.injEq, true_and, Bool.and_eq_true, decide_eq_true_eq, McPart.char.injEq]
      refine ⟨inStep, stuck, ?_⟩
      rintro ⟨rfl, same⟩
      exact ⟨rfl, owing same⟩
  | case4 => simp [keepsText, McPiece.part, McToken.part]
  | case5 template _ ih =>
      obtain ⟨inStep, stuck, owing⟩ := ih flag
      simp only [tokens_percent, emitted_percent, emitted_percents, keepsText, List.map_cons, McPiece.part,
        McToken.part, List.cons.injEq, true_and]
      refine ⟨stuck, fun same => ?_, stuck⟩
      exact absurd same (emitted_ahead 0 flag template)
  | case6 template _ _ ih =>
      obtain ⟨inStep, stuck, owing⟩ := ih flag
      simp only [tokens_name, emitted_percent, emitted_percents, emitted_name, keepsText, List.map_cons, McPiece.part,
        McToken.part, List.cons.injEq, true_and]
      exact ⟨inStep, nofun, inStep⟩
  | case7 template _ _ _ ih =>
      obtain ⟨inStep, stuck, owing⟩ := ih flag
      simp only [tokens_type, emitted_percent, emitted_percents, emitted_type, keepsText, List.map_cons, McPiece.part,
        McToken.part, List.cons.injEq, true_and]
      exact ⟨inStep, nofun, inStep⟩
  | case8 template name rest found _ _ _ _ ih =>
      obtain ⟨inStep, stuck, owing⟩ := ih flag
      simp only [tokens_attr found, emitted_percent, emitted_percents, emitted_attr found, keepsText, List.map_cons,
        McPiece.part, McToken.part, List.cons.injEq, true_and]
      exact ⟨inStep, nofun, inStep⟩
  | case9 template found _ _ _ _ ih =>
      obtain ⟨inStep, stuck, owing⟩ := ih flag
      simp only [tokens_open found, emitted_percent, emitted_percents, keepsText, List.map_cons, McPiece.part,
        McToken.part, List.cons.injEq, true_and, decide_true, Bool.true_and]
      exact ⟨owing, stuck, owing⟩
  | case10 d template percent name type attr _ ih =>
      obtain ⟨inStep, stuck, owing⟩ := ih flag
      simp only [tokens_stray percent name type attr, emitted_percent, emitted_percents, keepsText, List.map_cons,
        McPiece.part, McToken.part, List.cons.injEq, true_and, decide_true, Bool.true_and]
      exact ⟨owing, stuck, owing⟩
  | case11 c template backslash percent ih =>
      obtain ⟨inStep, _, _⟩ := ih (trackQuote flag0 flag c)
      simp only [tokens_char backslash percent, emitted_char backslash percent, keepsText, List.map_cons,
        McPiece.part, McToken.part, List.cons.injEq, true_and]
      have more : contentCount (.char c :: (tokens template).map McToken.part) =
          contentCount ((tokens template).map McToken.part) + 1 := by
        rw [contentCount_cons, if_neg (fun same => percent (McPart.char.inj same))]
      refine ⟨inStep, fun same => ?_, fun same => ?_⟩
      all_goals
        rcases emitted_plain args flag0 backslash percent flag template with ⟨_, _, first⟩ | few
      · rw [first] at same
        cases same
      · rw [same] at few
        omega
      · rw [first] at same
        cases same
      · rw [same, contentCount_cons] at few
        omega

end Lost

end KcnTools.W3m
