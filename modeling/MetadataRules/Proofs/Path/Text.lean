/-
MetadataRules/Proofs/Path/Text.lean

The text of a path, read as rule text.

A segment is written so that it ends where the next dot stands, so the text of a
path falls into the lexemes of its segments.  A word, a position and `@` are
read as they were written.  A key between quotes has its quotes escaped but not
its backslashes, and so it is read as itself exactly when it has none
(`Lexer.closes_quoteKey_iff`): behind the first backslash the string is one
character ahead of the key, and it never falls back.

Hence the text of a path stands for the path again unless a key of it holds a
backslash (`Path.ofText_text_iff`).
-/
import MetadataRules.Proofs.Rule.Embedded
import MetadataRules.Proofs.Token.Number

namespace MetadataRules

open Grammar

namespace Lexer

variable {afterDot : Bool} {more behind : List Char} {t : Token} {name : String}

/-! ### Keys between quotes -/

/-- A key as it stands between quotes. -/
def quotesEscaped (key : List Char) : List Char :=
  key.flatMap fun c => if c = '"' then ['\\', '"'] else [c]

theorem quotesEscaped_quote (key : List Char) :
    quotesEscaped ('"' :: key) = '\\' :: '"' :: quotesEscaped key := rfl

theorem quotesEscaped_of_ne {c : Char} (h : c ≠ '"') (key : List Char) :
    quotesEscaped (c :: key) = c :: quotesEscaped key := by
  rw [quotesEscaped, List.flatMap_cons, if_neg h]
  rfl

/-- A character that is no backslash is read as it is. -/
theorem closes_quotesEscaped_cons_iff {c : Char} {key body tail : List Char} (hc : c ≠ '\\') :
    Closes (quotesEscaped (c :: key) ++ tail) body behind ↔
      ∃ rest, body = c :: rest ∧ Closes (quotesEscaped key ++ tail) rest behind := by
  by_cases hquote : c = '"'
  · subst hquote
    rw [quotesEscaped_quote, List.cons_append, List.cons_append, closes_escape_iff]
    constructor
    · rintro ⟨x, rest, ⟨⟩, hbody, hrest⟩
      exact ⟨rest, hbody, hrest⟩
    · rintro ⟨rest, hbody, hrest⟩
      exact ⟨'"', rest, rfl, hbody, hrest⟩
  · rw [quotesEscaped_of_ne hquote, List.cons_append]
    exact closes_plain_iff hquote hc

theorem closes_quotesEscaped {key : List Char} (h : '\\' ∉ key) (more : List Char) :
    Closes (quotesEscaped key ++ '"' :: more) key more := by
  induction key with
  | nil => exact closes_quote_iff.2 ⟨rfl, rfl⟩
  | cons c key ih =>
    obtain ⟨hslash, hkey⟩ := not_or.1 (mt List.mem_cons.2 h)
    exact (closes_quotesEscaped_cons_iff (Ne.symm hslash)).2 ⟨key, rfl, ih hkey⟩

/-- What a backslash and another character stand for is a backslash only if both are. -/
theorem eq_of_unescape? {e : Char} (h : unescape? e = some '\\') : e = '\\' := by
  unfold unescape? at h
  split at h
  all_goals first
    | cases h
      done
    | rfl

/-- A backslash is read as one only together with what stands behind it in the key: another
backslash, or the one that a quote was escaped with. -/
theorem cases_of_closes_backslash {key rest : List Char}
    (h : Closes ('\\' :: (quotesEscaped key ++ '"' :: more)) ('\\' :: rest) behind) :
    (∃ key', key = '"' :: key' ∧ rest = []) ∨
      ∃ key', key = '\\' :: key' ∧ Closes (quotesEscaped key' ++ '"' :: more) rest behind := by
  rcases key with - | ⟨d, key⟩
  · obtain ⟨x, _, hx, hbody, -⟩ := closes_escape_iff.1 h
    obtain rfl : '"' = x := Option.some.inj hx
    cases hbody
  · by_cases hquote : d = '"'
    · subst hquote
      obtain ⟨x, _, -, hbody, hcloses⟩ := closes_escape_iff.1 h
      obtain ⟨-, rfl⟩ := List.cons.inj hbody
      exact .inl ⟨key, rfl, (closes_quote_iff.1 hcloses).1⟩
    · rw [quotesEscaped_of_ne hquote] at h
      obtain ⟨x, _, hx, hbody, hcloses⟩ := closes_escape_iff.1 h
      obtain ⟨rfl, rfl⟩ := List.cons.inj hbody
      exact .inr ⟨key, congrArg (· :: key) (eq_of_unescape? hx), hcloses⟩

theorem replicate_append_cons (n : Nat) (key : List Char) :
    List.replicate n '\\' ++ '\\' :: key = '\\' :: (List.replicate n '\\' ++ key) := by
  rw [← List.cons_append, ← List.replicate_succ, List.replicate_succ', List.append_assoc,
    List.singleton_append]

/-- A string that is `n` backslashes behind the key stays behind. -/
theorem notMem_of_closes {key : List Char} {n : Nat}
    (h : Closes (quotesEscaped key ++ '"' :: more) (List.replicate n '\\' ++ key) behind) :
    n = 0 ∧ '\\' ∉ key ∧ behind = more := by
  induction hlength : key.length using Nat.strong_induction_on generalizing key n with
  | _ length ih =>
    rcases key with - | ⟨c, key⟩
    · obtain ⟨hbody, rfl⟩ := closes_quote_iff.1 h
      rw [List.append_nil, List.replicate_eq_nil_iff] at hbody
      exact ⟨hbody, List.not_mem_nil, rfl⟩
    · by_cases hslash : c = '\\'
      · subst hslash
        rw [quotesEscaped_of_ne (by decide), replicate_append_cons] at h
        rcases cases_of_closes_backslash h with ⟨key, rfl, hnil⟩ | ⟨key, rfl, hcloses⟩
        · cases (List.append_eq_nil_iff.1 hnil).2
        · rw [replicate_append_cons, ← List.cons_append, ← List.replicate_succ] at hcloses
          have hlag := ih key.length (by simp at hlength; omega) hcloses rfl
          exact absurd hlag.1 (Nat.succ_ne_zero n)
      · obtain ⟨rest, hbody, hcloses⟩ := (closes_quotesEscaped_cons_iff hslash).1 h
        -- what stands first in the key is read first, so the string is not behind
        rcases n with - | n
        · obtain ⟨-, rfl⟩ := List.cons.inj hbody
          obtain ⟨-, hkey, hbehind⟩ :=
            ih key.length (by simp at hlength; omega) (n := 0) hcloses rfl
          refine ⟨rfl, fun hmem => ?_, hbehind⟩
          rcases List.mem_cons.1 hmem with heq | hmem
          · exact hslash heq.symm
          · exact hkey hmem
        · exact absurd (List.cons.inj hbody).1.symm hslash

/-- **A key between quotes is read as itself exactly when no backslash is in it.** -/
theorem closes_quotesEscaped_iff {key : List Char} :
    Closes (quotesEscaped key ++ '"' :: more) key behind ↔ '\\' ∉ key ∧ behind = more := by
  constructor
  · intro h
    exact (notMem_of_closes (n := 0) h).2
  · rintro ⟨hkey, rfl⟩
    exact closes_quotesEscaped hkey behind

/-! ### Segments -/

/-- What the key of a segment holds no backslash of is written so that it is read again. -/
def IsReadable (s : Segment) : Prop := ∀ name, s = .key name → '\\' ∉ name.toList

/-- A word that is no keyword and none of the words for values is a name. -/
theorem begins_plainKey (hname : Segment.isPlainKey name = true) (hmore : IsApart more) :
    Begins afterDot (name.toList ++ more) (.identifier name) more ∧ '\\' ∉ name.toList := by
  unfold Segment.isPlainKey at hname
  split at hname
  · cases hname
  · rename_i c rest hchars
    simp only [Bool.and_eq_true, Option.isNone_iff_eq_none, decide_eq_true_eq, ne_eq,
      List.all_eq_true] at hname
    obtain ⟨⟨⟨⟨⟨hc, hrest⟩, hkeyword⟩, hyes⟩, hno⟩, hnull⟩ := hname
    have hword : Token.ofWord (String.ofList (c :: rest)) = .identifier name := by
      rw [← hchars, String.ofList_toList, Token.ofWord, if_neg hyes, if_neg hno, if_neg hnull,
        hkeyword]
    rw [hchars, ← hword]
    refine ⟨begins_word hc hrest hmore, fun hmem => ?_⟩
    rcases List.mem_cons.1 hmem with rfl | hmem
    · exact absurd hc (by decide +kernel)
    · exact absurd (hrest _ hmem) (by decide +kernel)

/-- The tokens for a segment, at the beginning of a path or behind a dot. -/
def SegmentOf : Bool → Token → Segment → Prop
  | false => FirstOf
  | true => NextOf

theorem segmentOf_ne_dot {s : Segment} (h : SegmentOf afterDot t s) : (t == .dot) = false := by
  cases afterDot <;> cases h <;> rfl

theorem segmentOf_name (afterDot : Bool) (name : String) :
    SegmentOf afterDot (.identifier name) (.key name) := by
  cases afterDot
  · exact FirstOf.name name
  · exact NextOf.name name

theorem segmentOf_quoted_iff {body : String} :
    SegmentOf afterDot (.string body) (.key name) ↔ body = name := by
  constructor
  · intro h
    cases afterDot <;> cases h <;> rfl
  · rintro rfl
    cases afterDot
    · exact FirstOf.quoted body
    · exact NextOf.quoted body

/-- A segment without quotes around it is one lexeme. -/
theorem begins_unquoted {s : Segment} (hs : SegmentOf afterDot t s)
    (hplain : ∀ name, s = .key name → Segment.isPlainKey name = true) (hmore : IsApart more) :
    ∃ u, SegmentOf afterDot u s ∧ Begins afterDot (s.chars ++ more) u more ∧ IsReadable s := by
  cases s with
  | key name =>
    have hname := hplain name rfl
    obtain ⟨hbegins, hslash⟩ : Begins afterDot _ _ _ ∧ _ := begins_plainKey hname hmore
    have hchars : (Segment.key name).chars = name.toList := if_pos hname
    refine ⟨.identifier name, segmentOf_name afterDot name, hchars ▸ hbegins, ?_⟩
    rintro _ ⟨⟩
    exact hslash
  | index i =>
    cases afterDot with
    | false => cases hs
    | true =>
      obtain ⟨n, hn⟩ : ∃ n : Number, n.position? = some i := by
        cases hs with
        | position h => exact ⟨_, h⟩
      have hlt := Number.natAbs_lt_of_position? hn
      have hbegins := begins_intDigits hlt hmore (.inl rfl)
      exact ⟨_, NextOf.position (Number.position?_ofInt hn), hbegins, nofun⟩
  | current =>
    cases afterDot with
    | false => exact ⟨.at_, .current, begins_sign rfl more, nofun⟩
    | true => cases hs

theorem chars_quoted (h : ¬Segment.isPlainKey name = true) (more : List Char) :
    (Segment.key name).chars ++ more = '"' :: (quotesEscaped name.toList ++ '"' :: more) := by
  rw [Segment.chars, if_neg h, Segment.chars.quoteKey, List.cons_append, List.append_assoc]
  rfl

/-- **A segment in front of a text is a token in front of its tokens if it is readable**, and
cannot be read as itself otherwise. -/
theorem exists_scans_segment_iff {s : Segment} (us : List Token) (hs : SegmentOf afterDot t s)
    (hmore : IsApart more) :
    (∃ u, SegmentOf afterDot u s ∧ Scans afterDot (s.chars ++ more) (u :: us)) ↔
      IsReadable s ∧ Scans false more us := by
  by_cases hplain : ∀ name, s = .key name → Segment.isPlainKey name = true
  · obtain ⟨v, hv, hbegins, hread⟩ := begins_unquoted hs hplain hmore
    constructor
    · rintro ⟨u, -, hscans⟩
      obtain ⟨_, ⟨⟩, hrest⟩ := hbegins.scans_iff.1 hscans
      rw [segmentOf_ne_dot hv] at hrest
      exact ⟨hread, hrest⟩
    · rintro ⟨-, hrest⟩
      rw [← segmentOf_ne_dot hv] at hrest
      exact ⟨v, hv, hbegins.scans hrest⟩
  · push Not at hplain
    obtain ⟨name, rfl, hquoted⟩ := hplain
    rw [chars_quoted hquoted]
    constructor
    · rintro ⟨u, hu, hscans⟩
      obtain ⟨behind, hbegins, hrest⟩ := hscans.begins (by decide)
      obtain ⟨body, hcloses, rfl⟩ := begins_quote_iff.1 hbegins
      obtain rfl := segmentOf_quoted_iff.1 hu
      rw [String.toList_ofList, closes_quotesEscaped_iff] at hcloses
      obtain ⟨hslash, rfl⟩ := hcloses
      refine ⟨?_, hrest⟩
      rintro _ ⟨⟩
      rwa [String.toList_ofList]
    · rintro ⟨hread, hrest⟩
      have hcloses := closes_quotesEscaped (hread name rfl) more
      have hbegins : Begins afterDot _ _ _ := begins_quote_iff.2 ⟨_, hcloses, rfl⟩
      rw [String.ofList_toList] at hbegins
      exact ⟨_, segmentOf_quoted_iff.2 rfl, hbegins.scans hrest⟩

/-- The first token of a path is no parenthesis, readable or not. -/
theorem Scans.ne_leftParen {s : Segment} {u : Token} {us : List Token}
    (hs : SegmentOf afterDot t s) (hmore : IsApart more)
    (h : Scans afterDot (s.chars ++ more) (u :: us)) : u ≠ .leftParen := by
  rintro rfl
  by_cases hplain : ∀ name, s = .key name → Segment.isPlainKey name = true
  · obtain ⟨v, hv, hbegins, -⟩ := begins_unquoted hs hplain hmore
    obtain ⟨_, heq, -⟩ := hbegins.scans_iff.1 h
    rw [← (List.cons.inj heq).1] at hv
    cases afterDot <;> cases hv
  · push Not at hplain
    obtain ⟨name, rfl, hquoted⟩ := hplain
    rw [chars_quoted hquoted] at h
    obtain ⟨_, hbegins, -⟩ := h.begins (by decide)
    obtain ⟨body, -, heq⟩ := begins_quote_iff.1 hbegins
    cases heq

/-- The segments of a path fall apart at the dots between them. -/
theorem exists_scans_joinDots_iff {s : Segment} {ts : List Token} {ss : List Segment}
    (hs : SegmentOf afterDot t s) (hss : StepsOf ts ss) :
    (∃ u us, SegmentOf afterDot u s ∧ StepsOf us ss ∧
      Scans afterDot (Path.joinDots (s :: ss)) (u :: us)) ↔ ∀ r ∈ s :: ss, IsReadable r := by
  induction hss generalizing afterDot t s with
  | nil =>
    have hchars : Path.joinDots [s] = s.chars ++ [] := (List.append_nil _).symm
    have hsegment := exists_scans_segment_iff [] hs .nil
    rw [hchars, List.forall_mem_singleton]
    constructor
    · rintro ⟨u, _, hu, ⟨⟩, hscans⟩
      exact (hsegment.1 ⟨u, hu, hscans⟩).1
    · intro hread
      obtain ⟨u, hu, hscans⟩ := hsegment.2 ⟨hread, scans_nil.2 rfl⟩
      exact ⟨u, [], hu, .nil, hscans⟩
  | @cons v r vs rs hr hrs ih =>
    have hchars : Path.joinDots (s :: r :: rs) = s.chars ++ '.' :: Path.joinDots (r :: rs) := rfl
    have hmore : IsApart ('.' :: Path.joinDots (r :: rs)) := .cons (by decide +kernel) _
    have hdot : ∀ us, Scans false ('.' :: Path.joinDots (r :: rs)) us ↔
        ∃ ws, us = .dot :: ws ∧ Scans true (Path.joinDots (r :: rs)) ws := fun us =>
      (begins_sign rfl _).scans_iff
    have hrest := ih (show SegmentOf true v r from hr)
    rw [hchars, List.forall_mem_cons, ← hrest]
    constructor
    · rintro ⟨u, _, hu, hsteps, hscans⟩
      cases hsteps with
      | cons hw hws =>
        obtain ⟨hread, hbehind⟩ := (exists_scans_segment_iff _ hs hmore).1 ⟨u, hu, hscans⟩
        obtain ⟨_, ⟨⟩, hrest⟩ := (hdot _).1 hbehind
        exact ⟨hread, _, _, hw, hws, hrest⟩
    · rintro ⟨hread, w, ws, hw, hws, hscans⟩
      have hbehind := (hdot _).2 ⟨_, rfl, hscans⟩
      obtain ⟨u, hu, hscans⟩ := (exists_scans_segment_iff _ hs hmore).2 ⟨hread, hbehind⟩
      exact ⟨u, _, hu, .cons hw hws, hscans⟩

end Lexer

/-! ### Paths -/

namespace Path

open Lexer

variable {p : Path} {w : List Token}

theorem exists_spells_iff (h : PathOf w p) :
    (∃ u, Spells p.text u ∧ PathOf u p) ↔
      ∀ name, .key name ∈ p.segments → '\\' ∉ name.toList := by
  obtain ⟨hs, hss⟩ := h
  rename_i t s ts ss
  have hpath := exists_scans_joinDots_iff (show SegmentOf false t s from hs) hss
  have htext : Path.text ⟨s :: ss⟩ = String.ofList (joinDots (s :: ss)) := rfl
  have hread : (∀ r ∈ s :: ss, IsReadable r) ↔
      ∀ name, .key name ∈ s :: ss → '\\' ∉ name.toList := by
    constructor
    · intro h name hname
      exact h _ hname name rfl
    · rintro h r hr name rfl
      exact h name hr
  rw [← hread, ← hpath]
  simp only [spells_iff_scans, htext, String.toList_ofList]
  constructor
  · rintro ⟨_, hscans, ⟨hu, hus⟩⟩
    exact ⟨_, _, hu, hus, hscans⟩
  · rintro ⟨_, _, hu, hus, hscans⟩
    exact ⟨_, hscans, .intro hu hus⟩

/-- What stands behind the first segment of a path does not go on with a word. -/
theorem exists_joinDots_eq (s : Segment) (ss : List Segment) :
    ∃ more, IsApart more ∧ joinDots (s :: ss) = s.chars ++ more := by
  rcases ss with - | ⟨r, rs⟩
  · exact ⟨[], .nil, (List.append_nil _).symm⟩
  · exact ⟨'.' :: joinDots (r :: rs), .cons (by decide +kernel) _, rfl⟩

/-- A test of a path that is no phrase in parentheses is the path. -/
theorem pathOf_of_conditionOf {w : List Token} (h : ConditionOf w (.truthy p))
    (hw : w.head? ≠ some .leftParen) : PathOf w p := by
  obtain ⟨mark, hdisjunction⟩ := h
  cases hdisjunction with
  | single hconjunction =>
    cases hconjunction with
    | single hunary =>
      cases hunary with
      | atom hatom =>
        cases hatom with
        | paren => exact absurd rfl hw
        | test hp hpredicate =>
          cases hpredicate with
          | member h => cases h
          | truthy => rwa [List.append_nil]

/-- A reader of paths takes the path off the tokens of some rule text. -/
def IsRead (p : Path) : Prop :=
  ∃ (text : String) (scan : Scan) (front ts rest : List Placed) (what : Expectation),
    tokenize text = .ok scan ∧ scan.tokens = front ++ ts ∧ (Read.path what ts).Reads p rest

/-- **The text of a path is read as a test of that path exactly when no key of the path holds a
backslash**, whatever keys and positions rule text has named in it. -/
theorem ofText_text_iff (h : p.IsRead) :
    Condition.ofText p.text = .ok (.truthy p) ↔
      ∀ name, .key name ∈ p.segments → '\\' ∉ name.toList := by
  obtain ⟨_, _, _, _, _, _, -, -, hreads⟩ := h
  obtain ⟨used, -, hof, -⟩ := Read.reads_path_iff.1 hreads
  generalize Placed.tokens used = w at hof
  rw [← exists_spells_iff hof]
  constructor
  · intro htext
    obtain ⟨u, hspells, hcondition⟩ := Condition.exists_spells htext
    refine ⟨u, hspells, pathOf_of_conditionOf hcondition fun hparen => ?_⟩
    -- the text begins with a segment
    obtain ⟨us, rfl⟩ := List.head?_eq_some_iff.1 hparen
    obtain ⟨hs, -⟩ := hof
    rename_i s _ ss
    obtain ⟨more, hmore, hchars⟩ := exists_joinDots_eq s ss
    rw [spells_iff_scans, text, String.toList_ofList, chars, hchars] at hspells
    exact hspells.ne_leftParen (show SegmentOf false _ s from hs) hmore rfl
  · rintro ⟨u, hspells, hpath⟩
    refine Condition.ofText_of_spells hspells ⟨false, .single (.single (.atom ?_))⟩
    rw [← List.append_nil u]
    exact .test hpath .truthy

/-- A key that is no word, a keyword, a position from the end and a word. -/
theorem ofText_text_quoted :
    let p : Path := ⟨[.key "due \"date\"", .key "END", .index (-1), .key "état"]⟩
    p.IsRead ∧ Condition.ofText p.text = .ok (.truthy p) := by
  intro p
  let used : List Placed :=
    [⟨.string "due \"date\"", 4⟩, ⟨.dot, 16⟩, ⟨.keyword .end_, 17⟩, ⟨.dot, 20⟩,
      ⟨.number (.ofInt (-1)), 21⟩, ⟨.dot, 23⟩, ⟨.identifier "état", 24⟩]
  have htokens : tokenize "HAS 'due \"date\"'.END.-1.état" =
      .ok ⟨⟨.keyword .has, 0⟩ :: used, 28⟩ := by decide +kernel
  have hposition : (Number.ofInt (-1)).position? = some (-1) := by decide +kernel
  have hof : PathOf (Placed.tokens used) p :=
    .intro (.quoted _) (.cons (.keyword .end_) (.cons (.position hposition)
      (.cons (.name "état") .nil)))
  have hreads : (Read.path .pathAfterHas used).Reads p [] :=
    Read.reads_path_iff.2 ⟨used, (List.append_nil used).symm, hof, by decide⟩
  have hread : p.IsRead := ⟨_, _, [_], used, [], _, htokens, rfl, hreads⟩
  refine ⟨hread, (ofText_text_iff hread).2 fun name hname => ?_⟩
  simp only [p, List.mem_cons, Segment.key.injEq, List.not_mem_nil, or_false] at hname
  rcases hname with rfl | rfl | hname | rfl
  · decide
  · decide
  · cases hname
  · decide

/-- A key with a backslash is read from rule text, and its path is no rule text. -/
theorem text_of_backslash :
    let p : Path := ⟨[.key "a\\b"]⟩
    Condition.ofText "'a\\\\b'" = .ok (.truthy p) ∧ p.text = "\"a\\b\"" ∧
      tokenize p.text = .error ⟨.invalidEscape 'b', 2⟩ ∧
      Condition.ofText p.text ≠ .ok (.truthy p) := by
  decide +kernel

end Path

end MetadataRules
