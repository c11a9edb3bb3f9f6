/-
MetadataRules/Proofs/Token/Single.lean

Lexemes one by one.

A lexeme needs nothing of what stands around it: the characters that were taken
for it are the same token again when they are all there is
(`Lexer.exists_alone`).  A string shows its own end, a word and a number end at
characters that they could not go on with, and a number right after a dot is one
without a fraction, which it is without the dot as well.  So every token of a
text can be written as a text of its own (`Lexer.isSingle_of_scanFrom`).
-/
import Mathlib.Data.List.TakeWhile
import MetadataRules.Proofs.Rule.Phrase
import MetadataRules.Proofs.Token.Number

namespace MetadataRules

namespace Lexer

variable {afterDot negative : Bool} {c : Char} {cs rest : List Char} {t : Token} {n : Number}
  {offset : Nat}

/-! ### Strings -/

/-- A string is read to its closing quote. -/
theorem exists_stringBody_alone {quote : Char} {start : Nat} {body : List Char}
    (h : stringBody quote start offset cs = .ok (body, rest)) :
    ∃ word, cs = word ++ rest ∧
      ∀ start' offset', stringBody quote start' offset' word = .ok (body, []) := by
  fun_induction stringBody quote start offset cs generalizing body rest with
  | case1 => cases h
  | case2 offset cs =>
    obtain ⟨rfl, rfl⟩ := Prod.mk.inj (Except.ok.inj h)
    refine ⟨[quote], rfl, fun start' offset' => ?_⟩
    rw [stringBody.eq_def]
    exact if_pos rfl
  | case3 => cases h
  | case4 => cases h
  | case5 => cases h
  | case6 offset e cs x hx body' behind' heq hq ih =>
    obtain ⟨rfl, rfl⟩ := Prod.mk.inj (Except.ok.inj h)
    obtain ⟨word, rfl, hword⟩ := ih heq
    refine ⟨'\\' :: e :: word, rfl, fun start' offset' => ?_⟩
    rw [stringBody.eq_def]
    simp [hq, hx, hword]
  | case7 => cases h
  | case8 offset c cs hc hb body' behind' heq ih =>
    obtain ⟨rfl, rfl⟩ := Prod.mk.inj (Except.ok.inj h)
    obtain ⟨word, rfl, hword⟩ := ih heq
    refine ⟨c :: word, rfl, fun start' offset' => ?_⟩
    rw [stringBody.eq_def]
    simp [hc, hb, hword]

/-! ### Numbers -/

/-- A text goes on with neither a digit nor a point. -/
def IsPastDigits (more : List Char) : Prop := ∀ c ∈ more.head?, isDigit c = false ∧ c ≠ '.'

theorem IsPastDigits.ne_dot {more : List Char} (h : IsPastDigits more) : more.head? ≠ some '.' :=
  fun hdot => (h '.' hdot).2 rfl

/-- A fraction is read to its last digit. -/
theorem exists_fractionPart_alone {fraction : List Char}
    (h : fractionPart cs = .ok (fraction, rest)) :
    ∃ word, cs = word ++ rest ∧ (∀ c ∈ word.head?, isDigit c = false) ∧
      ∀ more, IsPastDigits more → fractionPart (word ++ more) = .ok (fraction, more) := by
  unfold fractionPart at h
  split at h
  case h_1 d ds =>
    split at h
    · rename_i hd
      obtain ⟨-, h⟩ | ⟨-, h⟩ := ite_eq_iff.1 h <;> cases h
      refine ⟨'.' :: d :: ds.takeWhile isDigit, by simp, by simp [isDigit], fun more hmore => ?_⟩
      have hds : ∀ c ∈ ds.takeWhile isDigit, isDigit c = true := fun c => List.mem_takeWhile_imp
      rw [List.cons_append, List.cons_append]
      simp only [fractionPart, hd, if_true, takeWhile_run hds fun c hc => (hmore c hc).1,
        dropWhile_run hds fun c hc => (hmore c hc).1]
      rcases more with - | ⟨c, more⟩
      · rfl
      · simp [(hmore c rfl).2]
    · split at h <;> cases h
      exact ⟨[], rfl, by simp, fun more hmore => fractionPart_of_ne_dot hmore.ne_dot⟩
  case h_2 => cases h
  case h_3 =>
    cases h
    exact ⟨[], rfl, by simp, fun more hmore => fractionPart_of_ne_dot hmore.ne_dot⟩

/-- A sign stays a sign in front of other digits. -/
theorem exists_splitSign {sign : Bool} {d : Char} (h : splitSign cs = (sign, d :: rest))
    (hd : isDigit d = true) :
    ∃ word, cs = word ++ d :: rest ∧ ∀ more, splitSign (word ++ d :: more) = (sign, d :: more) := by
  unfold splitSign at h
  split at h <;> cases h
  · exact ⟨['-'], rfl, fun more => rfl⟩
  · exact ⟨['+'], rfl, fun more => rfl⟩
  · exact ⟨[], rfl, fun more => splitSign_of_isDigit hd more⟩

/-- An exponent is read to its last digit. -/
theorem exists_splitExponent_alone {e : Int} (h : Number.splitExponent cs = .ok (e, rest)) :
    ∃ word, cs = word ++ rest ∧ IsPastDigits word ∧ Number.splitExponent word = .ok (e, []) := by
  have hnone : IsPastDigits [] := fun c hc => by cases hc
  rcases cs with - | ⟨c, cs⟩
  · cases h
    exact ⟨[], rfl, hnone, rfl⟩
  · unfold Number.splitExponent at h
    dsimp only at h
    split at h
    · rename_i hc
      split at h
      · cases h
      · rename_i hds
        obtain ⟨rfl, rfl⟩ := Prod.mk.inj (Except.ok.inj h)
        have hpast : IsPastDigits (c :: cs) := by
          rintro c ⟨⟩
          rcases hc with rfl | rfl <;> decide
        -- there is a digit behind the sign
        obtain ⟨d, ds, hrest, hd⟩ : ∃ d ds, (splitSign cs).2 = d :: ds ∧ isDigit d = true := by
          rcases hrest : (splitSign cs).2 with - | ⟨d, ds⟩
          · simp [hrest] at hds
          · refine ⟨d, ds, rfl, ?_⟩
            by_contra hd
            simp [hrest, hd] at hds
        obtain ⟨sign, hcs, hsign⟩ := exists_splitSign (Prod.ext rfl hrest) hd
        have hrun : ∀ c ∈ ds.takeWhile isDigit, isDigit c = true := fun c => List.mem_takeWhile_imp
        refine ⟨c :: (sign ++ d :: ds.takeWhile isDigit), ?_, ?_, ?_⟩
        · rw [hrest, List.dropWhile_cons_of_pos hd]
          simp [hcs]
        · rintro c ⟨⟩
          exact hpast c rfl
        · simp [Number.splitExponent, hc, hsign, hrest, hd, List.takeWhile_eq_self_iff.2 hrun,
            List.dropWhile_eq_nil_iff.2 hrun]
    · cases h
      exact ⟨[], rfl, hnone, rfl⟩

/-- The characters of a number, its sign apart, are the same number without the dot in front. -/
theorem exists_unsignedText_alone (hc : isDigit c = true)
    (h : unsignedText afterDot negative (c :: cs) = .ok (n, rest)) :
    ∃ word, cs = word ++ rest ∧ unsignedText false negative (c :: word) = .ok (n, []) := by
  unfold unsignedText at h
  rw [List.takeWhile_cons_of_pos hc, List.dropWhile_cons_of_pos hc] at h
  split at h
  · cases h
  rename_i fraction behindFraction hfraction
  split at h
  · cases h
  rename_i exponent behind hexponent
  split at h <;> cases h
  obtain ⟨power, rfl, hpast, hpower⟩ := exists_splitExponent_alone hexponent
  -- right after a dot the fraction is empty
  obtain ⟨point, hcs, hdigit, hpoint⟩ : ∃ point, cs.dropWhile isDigit = point ++ (power ++ rest) ∧
      (∀ d ∈ point.head?, isDigit d = false) ∧
      ∀ more, IsPastDigits more → fractionPart (point ++ more) = .ok (fraction, more) := by
    cases afterDot with
    | true =>
      obtain ⟨rfl, hbehind⟩ := Prod.mk.inj (Except.ok.inj hfraction)
      exact ⟨[], hbehind, by simp, fun more hmore => fractionPart_of_ne_dot hmore.ne_dot⟩
    | false => exact exists_fractionPart_alone hfraction
  have hrun : ∀ d ∈ c :: cs.takeWhile isDigit, isDigit d = true :=
    List.forall_mem_cons.2 ⟨hc, fun d => List.mem_takeWhile_imp⟩
  have hend : ∀ d ∈ (point ++ power).head?, isDigit d = false := by
    rcases point with - | ⟨d, point⟩
    · exact fun d hd => (hpast d hd).1
    · exact hdigit
  refine ⟨cs.takeWhile isDigit ++ (point ++ power), ?_, ?_⟩
  · rw [List.append_assoc, List.append_assoc, ← hcs, List.takeWhile_append_dropWhile]
  · unfold unsignedText
    rw [← List.cons_append, takeWhile_run hrun hend, dropWhile_run hrun hend,
      if_neg Bool.false_ne_true, hpoint power hpast]
    dsimp only
    rw [hpower]
    rfl

/-- The characters of a number are the number. -/
theorem exists_number_alone (hc : (isDigit c || (c = '-' && cs.head?.any isDigit)) = true)
    (h : numberText afterDot (c :: cs) = .ok (n, rest)) :
    ∃ word, cs = word ++ rest ∧ Begins false (c :: word) (.number n) [] := by
  -- behind its sign a number begins with a digit
  have hsigned : ∀ {negative d ds}, isDigit d = true →
      unsignedText afterDot negative (d :: ds) = .ok (n, rest) →
      ∃ word, ds = word ++ rest ∧
        Begins false (if negative then '-' :: d :: word else d :: word) (.number n) [] := by
    intro negative d ds hd h
    obtain ⟨word, hds, hword⟩ := exists_unsignedText_alone hd h
    have hfirst : ∀ e ∈ (d :: word).head?, isDigit e = true := by
      rintro e ⟨⟩
      exact hd
    rw [← List.append_nil (d :: word)] at hword
    have hbegins := begins_signed (List.cons_ne_nil d word) hfirst hword
    rw [List.append_nil] at hbegins
    exact ⟨word, hds, hbegins⟩
  by_cases hminus : c = '-'
  · subst hminus
    rcases cs with - | ⟨d, ds⟩
    · cases hc
    · obtain ⟨word, rfl, hword⟩ := hsigned hc ((numberText_minus _).symm.trans h)
      exact ⟨d :: word, rfl, hword⟩
  · have hhead : (c :: cs).head? ≠ some '-' := fun heq => hminus (Option.some.inj heq)
    exact hsigned (by simpa [hminus] using hc) ((numberText_of_ne_minus hhead).symm.trans h)

/-! ### All lexemes -/

theorem exists_withEquals_alone {longer shorter : Token}
    (h : withEquals longer shorter cs = (t, rest)) :
    ∃ word, cs = word ++ rest ∧ withEquals longer shorter word = (t, []) := by
  unfold withEquals at h
  split at h <;> cases h
  · exact ⟨['='], rfl, rfl⟩
  · exact ⟨[], rfl, rfl⟩

/-- A sign that may have `=` behind it. -/
theorem exists_pair_alone {longer shorter : Token} (hblank : isBlank c = false)
    (hlexeme : ∀ place word, lexeme false place c word = .ok (withEquals longer shorter word))
    (h : withEquals longer shorter cs = (t, rest)) :
    ∃ word, cs = word ++ rest ∧ Begins false (c :: word) t [] := by
  obtain ⟨word, hcs, hword⟩ := exists_withEquals_alone h
  refine ⟨word, hcs, c, word, rfl, hblank, fun place => ?_⟩
  rw [hlexeme, hword]

/-- **The characters of a lexeme are its token**, whatever stood around them. -/
theorem exists_alone (hblank : isBlank c = false)
    (h : lexeme afterDot offset c cs = .ok (t, rest)) :
    ∃ word, cs = word ++ rest ∧ Begins false (c :: word) t [] := by
  unfold lexeme at h
  split at h
  case h_1 sign hsign =>
    obtain ⟨rfl, rfl⟩ := Prod.mk.inj (Except.ok.inj h)
    exact ⟨[], rfl, begins_sign hsign []⟩
  case h_2 hnone =>
    by_cases heq : c = '='
    · subst heq
      rw [if_pos rfl] at h
      exact exists_pair_alone hblank (fun _ _ => rfl) (Except.ok.inj h)
    rw [if_neg heq] at h
    by_cases hlt : c = '<'
    · subst hlt
      rw [if_pos rfl] at h
      exact exists_pair_alone hblank (fun _ _ => rfl) (Except.ok.inj h)
    rw [if_neg hlt] at h
    by_cases hgt : c = '>'
    · subst hgt
      rw [if_pos rfl] at h
      exact exists_pair_alone hblank (fun _ _ => rfl) (Except.ok.inj h)
    rw [if_neg hgt] at h
    by_cases hbang : c = '!'
    · subst hbang
      rw [if_pos rfl] at h
      split at h <;> cases h
      exact ⟨['='], rfl, '!', ['='], rfl, hblank, fun _ => rfl⟩
    rw [if_neg hbang] at h
    by_cases hquote : (c = '"' || c = '\'') = true
    · rw [if_pos hquote] at h
      split at h <;> cases h
      rename_i hbody
      obtain ⟨word, hcs, hword⟩ := exists_stringBody_alone hbody
      refine ⟨word, hcs, c, word, rfl, hblank, fun place => ?_⟩
      rw [lexeme_quote hquote, hword]
      rfl
    rw [if_neg hquote] at h
    split at h
    · rename_i hnumber
      split at h <;> cases h
      rename_i hn
      exact exists_number_alone hnumber hn
    split at h
    · rename_i hword
      cases h
      have hcs : ∀ d ∈ cs.takeWhile continuesWord, continuesWord d = true :=
        fun d => List.mem_takeWhile_imp
      have hbegins : Begins false _ _ [] := begins_word hword hcs .nil
      rw [List.append_nil] at hbegins
      exact ⟨_, List.takeWhile_append_dropWhile.symm, hbegins⟩
    · cases h

/-! ### Texts of one token -/

/-- A token is the whole of some text. -/
def IsSingle (t : Token) : Prop := ∃ text, Begins false text t []

/-- **The tokens of a text can be written one by one.** -/
theorem isSingle_of_scanFrom {scan : Scan} (h : scanFrom offset afterDot cs = .ok scan) :
    ∀ t ∈ Placed.tokens scan.tokens, IsSingle t := by
  fun_induction scanFrom offset afterDot cs generalizing scan with
  | case1 =>
    cases h
    exact List.forall_mem_nil _
  | case2 offset afterDot c cs hblank ih => exact ih h
  | case3 => cases h
  | case4 => cases h
  | case5 offset afterDot c cs hblank t rest hlexeme scan' hscan ih =>
    cases h
    obtain ⟨word, -, hword⟩ := exists_alone (Bool.eq_false_iff.2 hblank) hlexeme
    exact List.forall_mem_cons.2 ⟨⟨_, hword⟩, ih hscan⟩

end Lexer

end MetadataRules
