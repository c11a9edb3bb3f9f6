/-
MetadataRules/Proofs/Token/Tiles.lean

The tokens of a text cover it.

White space and lexemes in turn make up a text that has tokens
(`Lexer.tiles_of_scanFrom`): only white space is skipped, nothing is read twice,
and each lexeme stands where its token says and is that token by itself.  A
lexeme is never empty, so the places of the tokens ascend to the end of the text
(`Lexer.Tiles.pairwise`).  A text without tokens is faulted at one of its
characters (`Lexer.offset_lt_of_scanFrom`).
-/
import MetadataRules.Proofs.Token.Single

namespace MetadataRules

/-- The places of the tokens of a text and, behind them, the place of its end. -/
def Scan.places (scan : Scan) : List Nat := scan.tokens.map Placed.offset ++ [scan.finish]

namespace Lexer

variable {afterDot : Bool} {offset place : Nat} {c : Char} {text cs rest : List Char} {t : Token}
  {tokens : List Placed} {err : LexError}

/-! ### Lexemes side by side -/

/-- White space and lexemes in turn make up a text that starts at a place: every lexeme has its
token at the place where it starts, and is that one token by itself. -/
inductive Tiles : Nat → List Char → List Placed → Prop
  | blanks {place : Nat} {blanks : List Char} (hblanks : ∀ w ∈ blanks, isBlank w = true) :
      Tiles place blanks []
  | lexeme {place : Nat} {blanks word rest : List Char} {t : Token} {tokens : List Placed}
      (hblanks : ∀ w ∈ blanks, isBlank w = true) (hne : word ≠ [])
      (hword : tokenize (String.ofList word) = .ok ⟨[⟨t, 0⟩], word.length⟩)
      (hrest : Tiles (place + blanks.length + word.length) rest tokens) :
      Tiles place (blanks ++ word ++ rest) (⟨t, place + blanks.length⟩ :: tokens)

theorem Tiles.cons_blank (hc : isBlank c = true) (h : Tiles (place + 1) cs tokens) :
    Tiles place (c :: cs) tokens := by
  cases h with
  | blanks hblanks => exact .blanks (List.forall_mem_cons.2 ⟨hc, hblanks⟩)
  | @lexeme _ blanks word rest t tokens hblanks hne hword hrest =>
    have hplace : place + 1 + blanks.length = place + (c :: blanks).length := by
      rw [List.length_cons]
      omega
    rw [hplace] at hrest ⊢
    exact .lexeme (List.forall_mem_cons.2 ⟨hc, hblanks⟩) hne hword hrest

theorem tokenize_of_begins (h : Begins false text t []) :
    tokenize (String.ofList text) = .ok ⟨[⟨t, 0⟩], text.length⟩ := by
  obtain ⟨c, cs, rfl, hblank, hlexeme⟩ := h
  have hplace : 0 + 1 + (cs.length - ([] : List Char).length) = (c :: cs).length := by
    simp only [List.length_cons, List.length_nil]
    omega
  rw [tokenize, String.toList_ofList,
    scanFrom_lexeme (Bool.eq_false_iff.1 hblank) (hlexeme 0), hplace, scanFrom]
  rfl

/-- **The lexemes of a text tile it.** -/
theorem tiles_of_scanFrom {scan : Scan} (h : scanFrom offset afterDot cs = .ok scan) :
    Tiles offset cs scan.tokens := by
  fun_induction scanFrom offset afterDot cs generalizing scan with
  | case1 =>
    cases h
    exact .blanks (List.forall_mem_nil _)
  | case2 offset afterDot c cs hblank ih => exact (ih h).cons_blank hblank
  | case3 => cases h
  | case4 => cases h
  | case5 offset afterDot c cs hblank t rest hlexeme scan' hscan ih =>
    cases h
    -- white space in front of the lexeme was taken by the steps before this one
    obtain ⟨word, rfl, hword⟩ := exists_alone (Bool.eq_false_iff.2 hblank) hlexeme
    have hplace : offset + 1 + ((word ++ rest).length - rest.length) =
        offset + ([] : List Char).length + (c :: word).length := by
      simp only [List.length_append, List.length_cons, List.length_nil]
      omega
    have hrest := ih hscan
    rw [hplace] at hrest
    exact .lexeme (List.forall_mem_nil _) (List.cons_ne_nil c word) (tokenize_of_begins hword) hrest

/-- The places of the tokens ascend to the end of the text. -/
theorem Tiles.pairwise {finish : Nat} (h : Tiles place text tokens)
    (hfinish : place + text.length = finish) :
    (tokens.map Placed.offset ++ [finish]).Pairwise (· < ·) ∧
      ∀ o ∈ tokens.map Placed.offset ++ [finish], place ≤ o := by
  induction h with
  | blanks =>
    rw [← hfinish]
    simp
  | @lexeme place blanks word rest t tokens _ hne _ _ ih =>
    rw [List.length_append, List.length_append] at hfinish
    obtain ⟨hascending, hle⟩ := ih (by omega)
    -- the next token stands behind at least one character
    have hlt : ∀ o ∈ tokens.map Placed.offset ++ [finish], place + blanks.length < o := by
      intro o ho
      have hpos := List.length_pos_iff.2 hne
      have hbehind := hle o ho
      omega
    rw [List.map_cons, List.cons_append, List.pairwise_cons, List.forall_mem_cons]
    refine ⟨⟨hlt, hascending⟩, Nat.le_add_right _ _, fun o ho => ?_⟩
    exact Nat.le_trans (Nat.le_add_right _ _) (Nat.le_of_lt (hlt o ho))

/-! ### Faults -/

theorem offset_of_stringBody {quote : Char} {start : Nat}
    (h : stringBody quote start offset cs = .error err) :
    err.offset = start ∨ err.offset < offset + cs.length := by
  fun_induction stringBody quote start offset cs with
  | case1 =>
    cases h
    exact .inl rfl
  | case2 => cases h
  | case3 =>
    cases h
    exact .inl rfl
  | case4 offset e rest =>
    cases h
    right
    simp
  | case5 offset e rest x hx err' herr hq ih =>
    cases h
    refine (ih herr).imp_right fun hlt => ?_
    simp only [List.length_cons]
    omega
  | case6 => cases h
  | case7 offset c cs hq hb err' herr ih =>
    cases h
    refine (ih herr).imp_right fun hlt => ?_
    simp only [List.length_cons]
    omega
  | case8 => cases h

theorem offset_lt_of_lexeme (h : lexeme afterDot offset c cs = .error err) :
    err.offset < offset + 1 + cs.length := by
  have hhere : ∀ {cause : LexCause} {e : LexError}, ⟨cause, offset⟩ = e →
      e.offset < offset + 1 + cs.length := by
    rintro cause e rfl
    show offset < _
    omega
  unfold lexeme at h
  split at h
  · cases h
  split at h
  · cases h
  split at h
  · cases h
  split at h
  · cases h
  split at h
  · split at h
    · cases h
    · exact hhere (Except.error.inj h)
  split at h
  · split at h
    · rename_i hbody
      cases h
      rcases offset_of_stringBody hbody with hstart | hlt
      · omega
      · exact hlt
    · cases h
  split at h
  · split at h
    · exact hhere (Except.error.inj h)
    · cases h
  split at h
  · cases h
  · exact hhere (Except.error.inj h)

theorem offset_lt_of_scanFrom (h : scanFrom offset afterDot cs = .error err) :
    err.offset < offset + cs.length := by
  fun_induction scanFrom offset afterDot cs with
  | case1 => cases h
  | case2 offset afterDot c cs hblank ih =>
    have hlt := ih h
    rw [List.length_cons]
    omega
  | case3 offset afterDot c cs hblank err' herr =>
    cases h
    have hlt := offset_lt_of_lexeme herr
    rw [List.length_cons]
    omega
  | case4 offset afterDot c cs hblank t rest hlexeme err' herr ih =>
    cases h
    have hlt := ih herr
    have hle := length_lexeme_le hlexeme
    rw [List.length_cons]
    omega
  | case5 => cases h

end Lexer

/-- **The tokens of a text tile it.**  The text ends behind its last token, its places ascend, and
white space and lexemes in turn make it up, every lexeme a token by itself.  A text that has no
tokens is faulted at one of its characters. -/
theorem tokenize_tiles (text : String) :
    match tokenize text with
    | .ok scan =>
      scan.finish = text.length ∧ scan.places.Pairwise (· < ·) ∧
        Lexer.Tiles 0 text.toList scan.tokens
    | .error err => err.offset < text.length := by
  unfold tokenize
  rcases h : Lexer.scanFrom 0 false text.toList with err | scan
  · have hlt := Lexer.offset_lt_of_scanFrom h
    rwa [Nat.zero_add, String.length_toList] at hlt
  · have htiles := Lexer.tiles_of_scanFrom h
    have hfinish := Lexer.finish_of_scanFrom h
    refine ⟨?_, (htiles.pairwise hfinish.symm).1, htiles⟩
    rw [hfinish, Nat.zero_add, String.length_toList]

end MetadataRules
