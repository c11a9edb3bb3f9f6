/-
MetadataRules/Proofs/Clock.lean

The texts of the clock compare as the times do.

A number of fixed width stands in front of other numbers of the same width as
it does in front of texts, and so do fields that are written one after another
with a separator between them (`Clock.InStep`).  The text of a date is such a
row of fields, and the text of a date and a time goes on where that of the date
ends.  No such text looks numeric, since digits are followed by a minus
(`Number.ofText?_append_minus`), so comparisons of them are comparisons of
texts.

What a rule writes at one time can therefore be compared with the clock at
another (`Clock.compares_chronologically`).
-/
import Mathlib.Data.String.Basic
import Mathlib.Order.Compare
import MetadataRules.Number.Fixed
import MetadataRules.Proofs.Number.Text
import MetadataRules.Proofs.Run.Silence
import MetadataRules.Proofs.Token.Spelling
import MetadataRules.Proofs.Value.Comparison

namespace MetadataRules

/-! ### Comparisons in a linear order -/

/-- What a comparison says of two members of a linear order. -/
def Comparison.Relates {α : Type} [LinearOrder α] (op : Comparison) (a b : α) : Prop :=
  match op with
  | equal => a = b
  | notEqual => a ≠ b
  | less => a < b
  | lessEq => a ≤ b
  | greater => b < a
  | greaterEq => b ≤ a

theorem Comparison.ofOrdering_compare_iff {α : Type} [LinearOrder α] (op : Comparison) (a b : α) :
    op.ofOrdering (compare a b) = true ↔ op.Relates a b := by
  cases op <;>
    simp [ofOrdering, Relates, compare_lt_iff_lt, compare_gt_iff_gt]

/-- Comparisons say the same in two orders where the same are equal and the same are less. -/
theorem Comparison.relates_congr {α β : Type} [LinearOrder α] [LinearOrder β] {a b : α} {x y : β}
    (heq : a = b ↔ x = y) (hlt : a < b ↔ x < y) (op : Comparison) :
    op.Relates a b ↔ op.Relates x y := by
  have hle : a ≤ b ↔ x ≤ y := by rw [le_iff_lt_or_eq, le_iff_lt_or_eq, hlt, heq]
  cases op with
  | equal => exact heq
  | notEqual => exact not_congr heq
  | less => exact hlt
  | lessEq => exact hle
  | greater => rw [Relates, Relates, ← not_le, ← not_le, hle]
  | greaterEq => rw [Relates, Relates, ← not_lt, ← not_lt, hlt]

theorem append_lt_append_iff {α : Type} [LinearOrder α] {a b r u : List α}
    (h : a.length = b.length) : a ++ r < b ++ u ↔ a < b ∨ a = b ∧ r < u := by
  induction a generalizing b with
  | nil =>
    obtain rfl := List.length_eq_zero_iff.1 h.symm
    simp
  | cons c a ih =>
    rcases b with - | ⟨d, b⟩
    · cases h
    · rw [List.cons_append, List.cons_append, List.cons_lt_cons_iff, List.cons_lt_cons_iff,
        ih (Nat.succ.inj h), List.cons.injEq]
      tauto

namespace Clock

/-! ### Digits -/

theorem digitChar_inj {i j : Nat} (hi : i < 10) (hj : j < 10) :
    i.digitChar = j.digitChar ↔ i = j := by
  have h : ∀ i j : Fin 10, i.1.digitChar = j.1.digitChar ↔ i.1 = j.1 := by decide
  exact h ⟨i, hi⟩ ⟨j, hj⟩

theorem digitChar_lt_iff {i j : Nat} (hi : i < 10) (hj : j < 10) :
    i.digitChar < j.digitChar ↔ i < j := by
  have h : ∀ i j : Fin 10, i.1.digitChar < j.1.digitChar ↔ i.1 < j.1 := by decide
  exact h ⟨i, hi⟩ ⟨j, hj⟩

theorem padded_one {n : Nat} (h : n < 10) : padded 1 n = [n.digitChar] := by
  rw [padded, natDigits, Nat.toDigits_of_lt_base h]
  rfl

/-- The last digit stands behind a field that is one narrower. -/
theorem padded_succ {width : Nat} (h : 0 < width) (n : Nat) :
    padded (width + 1) n = padded width (n / 10) ++ [(n % 10).digitChar] := by
  obtain ⟨width, rfl⟩ := Nat.exists_eq_add_one_of_ne_zero h.ne'
  by_cases hn : n < 10
  · rw [Nat.div_eq_of_lt hn, Nat.mod_eq_of_lt hn, padded, padded, natDigits, natDigits,
      Nat.toDigits_of_lt_base hn, Nat.toDigits_of_lt_base (by decide)]
    simp [List.replicate_succ']
  · have hdigits : natDigits n = natDigits (n / 10) ++ [(n % 10).digitChar] := by
      rw [natDigits, Nat.toDigits_eq_if (by decide), if_neg hn]
      rfl
    rw [padded, padded, hdigits]
    simp

/-! ### Fields of fixed width -/

/-- Two texts that stand in front of any others as two rows of numbers stand to each other. -/
structure InStep (a b : List Char) (x y : List Int) : Prop where
  length_eq : x.length = y.length
  eq_iff : ∀ r u, a ++ r = b ++ u ↔ x = y ∧ r = u
  lt_iff : ∀ r u, a ++ r < b ++ u ↔ x < y ∨ x = y ∧ r < u

theorem singleton_inj_iff {n m : Nat} : [(n : Int)] = [(m : Int)] ↔ n = m := by simp

theorem singleton_lt_iff {n m : Nat} : [(n : Int)] < [(m : Int)] ↔ n < m := by
  simp [List.cons_lt_cons_iff]

theorem inStep_padded (width : Nat) {n m : Nat} (hwidth : 0 < width) (hn : n < 10 ^ width)
    (hm : m < 10 ^ width) : InStep (padded width n) (padded width m) [(n : Int)] [(m : Int)] := by
  suffices h : ∀ r u, (padded width n ++ r = padded width m ++ u ↔ n = m ∧ r = u) ∧
      (padded width n ++ r < padded width m ++ u ↔ n < m ∨ n = m ∧ r < u) by
    refine ⟨rfl, fun r u => ?_, fun r u => ?_⟩
    · rw [(h r u).1, singleton_inj_iff]
    · rw [(h r u).2, singleton_inj_iff, singleton_lt_iff]
  induction width, hwidth using Nat.le_induction generalizing n m with
  | base =>
    intro r u
    simp [padded_one hn, padded_one hm, digitChar_inj hn hm, digitChar_lt_iff hn hm,
      List.cons_lt_cons_iff]
  | succ width hwidth ih =>
    -- the digits before the last one are a field of their own
    intro r u
    rw [Nat.pow_succ] at hn hm
    have hfirst := ih (n := n / 10) (m := m / 10) (by omega) (by omega)
    have heq : n = m ↔ n / 10 = m / 10 ∧ n % 10 = m % 10 := by omega
    have hlt : n < m ↔ n / 10 < m / 10 ∨ n / 10 = m / 10 ∧ n % 10 < m % 10 := by omega
    have hn10 : n % 10 < 10 := Nat.mod_lt n (by decide)
    have hm10 : m % 10 < 10 := Nat.mod_lt m (by decide)
    rw [padded_succ hwidth, padded_succ hwidth, List.append_assoc, List.append_assoc,
      List.singleton_append, List.singleton_append, (hfirst _ _).1, (hfirst _ _).2,
      List.cons.injEq, List.cons_lt_cons_iff, digitChar_inj hn10 hm10, digitChar_lt_iff hn10 hm10,
      heq, hlt]
    tauto

variable {a b a' b' : List Char} {x y x' y' : List Int}

/-- Fields with a separator between them. -/
theorem InStep.append (h : InStep a b x y) (c : Char) (h' : InStep a' b' x' y') :
    InStep (a ++ c :: a') (b ++ c :: b') (x ++ x') (y ++ y') where
  length_eq := by rw [List.length_append, List.length_append, h.length_eq, h'.length_eq]
  eq_iff r u := by
    rw [List.append_assoc, List.append_assoc, h.eq_iff, List.cons_append, List.cons_append,
      List.cons.injEq, h'.eq_iff]
    constructor
    · rintro ⟨rfl, -, rfl, rfl⟩
      exact ⟨rfl, rfl⟩
    · rintro ⟨heq, rfl⟩
      obtain ⟨rfl, rfl⟩ := List.append_inj heq h.length_eq
      exact ⟨rfl, rfl, rfl, rfl⟩
  lt_iff r u := by
    rw [List.append_assoc, List.append_assoc, h.lt_iff, List.cons_append, List.cons_append,
      List.cons_lt_cons_iff, h'.lt_iff, append_lt_append_iff h.length_eq]
    constructor
    · rintro (hlt | ⟨rfl, hlt | ⟨-, hlt | ⟨rfl, hlt⟩⟩⟩)
      · exact .inl (.inl hlt)
      · exact absurd hlt (lt_irrefl c)
      · exact .inl (.inr ⟨rfl, hlt⟩)
      · exact .inr ⟨rfl, hlt⟩
    · rintro ((hlt | ⟨rfl, hlt⟩) | ⟨heq, hlt⟩)
      · exact .inl hlt
      · exact .inr ⟨rfl, .inr ⟨rfl, .inl hlt⟩⟩
      · obtain ⟨rfl, rfl⟩ := List.append_inj heq h.length_eq
        exact .inr ⟨rfl, .inr ⟨rfl, .inr ⟨rfl, hlt⟩⟩⟩

theorem InStep.relates_iff (h : InStep a b x y) (op : Comparison) :
    op.Relates a b ↔ op.Relates x y := by
  have heq := h.eq_iff [] []
  have hlt := h.lt_iff [] []
  simp only [List.append_nil, and_true] at heq
  simp only [List.append_nil, lt_irrefl, and_false, or_false] at hlt
  exact Comparison.relates_congr heq hlt op

/-! ### Dates and times -/

/-- A date and a time of day in a year of four digits.  The nanoseconds of a leap second go on
beyond those of the second before it. -/
structure IsDateTime (c : Clock) : Prop where
  year : 0 ≤ c.year ∧ c.year ≤ 9999
  month : c.month ≤ 12
  day : c.day ≤ 31
  hour : c.hour < 24
  minute : c.minute < 60
  second : c.second < 60
  nanosecond : c.nanosecond < 2 * 10 ^ 9

/-- The second of the minute; a leap second is the second after, such as second 60. -/
def wholeSecond (c : Clock) : Nat :=
  if c.nanosecond < 10 ^ 9 then c.second else c.second + 1

/-- The date, as a row of numbers that orders as dates do. -/
def calendarDay (c : Clock) : List Int := [c.year, c.month, c.day]

/-- The date and the time of day, cut to whole seconds. -/
def wholeTime (c : Clock) : List Int := c.calendarDay ++ [(c.hour : Int), c.minute, c.wholeSecond]

variable {s t : Clock}

theorem IsDateTime.shownSecond_eq (h : s.IsDateTime) : s.shownSecond = s.wholeSecond := by
  have hnano := h.nanosecond
  have htenPow : tenPow 9 = 10 ^ 9 := by decide +kernel
  unfold shownSecond wholeSecond
  rw [htenPow]
  split <;> omega

theorem IsDateTime.wholeSecond_le (h : s.IsDateTime) : s.wholeSecond ≤ 60 := by
  have hsecond := h.second
  unfold wholeSecond
  split <;> omega

theorem IsDateTime.yearText_eq (h : s.IsDateTime) : yearText s.year = padded 4 s.year.toNat := by
  rw [yearText, if_pos h.year]

theorem inStep_dateChars (hs : s.IsDateTime) (ht : t.IsDateTime) :
    InStep s.dateChars t.dateChars s.calendarDay t.calendarDay := by
  have hyear : InStep (yearText s.year) (yearText t.year) [s.year] [t.year] := by
    have hs' := hs.year
    have ht' := ht.year
    have h := inStep_padded 4 (n := s.year.toNat) (m := t.year.toNat) (by decide)
      (by omega) (by omega)
    rwa [Int.toNat_of_nonneg hs'.1, Int.toNat_of_nonneg ht'.1, ← hs.yearText_eq,
      ← ht.yearText_eq] at h
  have hmonth := inStep_padded 2 (by decide) (hs.month.trans_lt (by decide))
    (ht.month.trans_lt (by decide))
  have hday := inStep_padded 2 (by decide) (hs.day.trans_lt (by decide))
    (ht.day.trans_lt (by decide))
  exact hyear.append '-' (hmonth.append '-' hday)

theorem inStep_dateTimeChars (hs : s.IsDateTime) (ht : t.IsDateTime) :
    InStep s.dateTimeChars t.dateTimeChars s.wholeTime t.wholeTime := by
  have hhour := inStep_padded 2 (by decide) (hs.hour.trans (by decide))
    (ht.hour.trans (by decide))
  have hminute := inStep_padded 2 (by decide) (hs.minute.trans (by decide))
    (ht.minute.trans (by decide))
  have hsecond := inStep_padded 2 (by decide)
    (hs.wholeSecond_le.trans_lt (by decide)) (ht.wholeSecond_le.trans_lt (by decide))
  rw [dateTimeChars, dateTimeChars, hs.shownSecond_eq, ht.shownSecond_eq]
  exact (inStep_dateChars hs ht).append 'T' (hhour.append ':' (hminute.append ':' hsecond))

end Clock

/-! ### Comparisons of clock texts -/

/-- Digits before a minus are no number. -/
theorem Number.ofText?_append_minus {ds : List Char} (hne : ds ≠ [])
    (hds : ∀ c ∈ ds, isDigit c = true) (rest : List Char) : ofText? (ds ++ '-' :: rest) = none := by
  have hminus : ∀ c ∈ ('-' :: rest).head?, isDigit c = false := by
    rintro c ⟨⟩
    rfl
  have hwhole := takeWhile_run hds hminus
  have hrest := dropWhile_run hds hminus
  obtain ⟨d, ds, rfl⟩ := List.exists_cons_of_ne_nil hne
  have hsign := splitSign_of_isDigit (hds d List.mem_cons_self) (ds ++ '-' :: rest)
  rw [← List.cons_append] at hsign
  simp only [ofText?, hsign, hwhole, hrest]
  -- the minus is neither a point nor an exponent, so it is left over
  rfl

namespace Clock

variable {s t : Clock}

theorem isDigit_of_mem_padded {width n : Nat} {c : Char} (h : c ∈ padded width n) :
    isDigit c = true := by
  rcases List.mem_append.1 h with hzero | hdigit
  · rw [List.eq_of_mem_replicate hzero]
    rfl
  · exact isDigit_of_mem_natDigits hdigit

theorem padded_ne_nil (width n : Nat) : padded width n ≠ [] :=
  List.append_ne_nil_of_right_ne_nil _ (natDigits_ne_nil n)

/-- What begins with a date does not look numeric. -/
theorem IsDateTime.ofText?_dateChars (h : s.IsDateTime) (rest : List Char) :
    Number.ofText? (s.dateChars ++ rest) = none := by
  rw [dateChars, h.yearText_eq, List.append_assoc, List.cons_append]
  exact Number.ofText?_append_minus (padded_ne_nil 4 _) (fun c => isDigit_of_mem_padded) _

theorem IsDateTime.asNumber?_date (h : s.IsDateTime) :
    (Value.string s.date).asNumber? = none := by
  rw [Value.asNumber?, date, String.toList_ofList, ← List.append_nil s.dateChars]
  exact h.ofText?_dateChars []

theorem IsDateTime.asNumber?_dateTime (h : s.IsDateTime) :
    (Value.string s.dateTime).asNumber? = none := by
  rw [Value.asNumber?, dateTime, String.toList_ofList]
  exact h.ofText?_dateChars _

/-- Texts of the clock are compared as texts. -/
theorem holds_iff_relates {a b : List Char} (h : (Value.string (String.ofList a)).asNumber? = none)
    (op : Comparison) :
    op.holds (.string (String.ofList a)) (.string (String.ofList b)) = true ↔ op.Relates a b := by
  rw [Comparison.holds_of_texts (.inl h), Comparison.ofOrdering_compare_iff]
  refine Comparison.relates_congr String.ofList_inj ?_ op
  rw [String.lt_iff_toList_lt, String.toList_ofList, String.toList_ofList]

theorem holds_now_now (hs : s.IsDateTime) (ht : t.IsDateTime) (op : Comparison) :
    op.holds (.string s.dateTime) (.string t.dateTime) = true ↔
      op.Relates s.wholeTime t.wholeTime := by
  rw [dateTime, dateTime, holds_iff_relates hs.asNumber?_dateTime]
  exact (inStep_dateTimeChars hs ht).relates_iff op

theorem holds_today_today (hs : s.IsDateTime) (ht : t.IsDateTime) (op : Comparison) :
    op.holds (.string s.date) (.string t.date) = true ↔
      op.Relates s.calendarDay t.calendarDay := by
  rw [date, date, holds_iff_relates hs.asNumber?_date]
  exact (inStep_dateChars hs ht).relates_iff op

/-- The text of a date comes before those of all times of that day. -/
theorem holds_today_now (hs : s.IsDateTime) (ht : t.IsDateTime) :
    Comparison.less.holds (.string s.date) (.string t.dateTime) = true ↔
      s.calendarDay ≤ t.calendarDay := by
  rw [date, dateTime, holds_iff_relates hs.asNumber?_date, ← List.append_nil s.dateChars]
  refine ((inStep_dateChars hs ht).lt_iff [] _).trans ?_
  rw [le_iff_lt_or_eq]
  simp

theorem holds_now_today (hs : s.IsDateTime) (ht : t.IsDateTime) :
    Comparison.less.holds (.string s.dateTime) (.string t.date) = true ↔
      s.calendarDay < t.calendarDay := by
  rw [date, dateTime, holds_iff_relates hs.asNumber?_dateTime, ← List.append_nil t.dateChars]
  refine ((inStep_dateChars hs ht).lt_iff _ []).trans ?_
  simp

/-! ### Writing the clock -/

theorem eq_of_equal_string {v : Value} {text : String} (h : v.equal (.string text) = true) :
    v = .string text := by
  cases v with
  | string s => rw [beq_iff_eq.1 h]
  | _ => cases h

/-- A write of `NOW` that succeeds leaves the text of the clock there. -/
theorem get?_run_set_now [Decimals] {p : Path} {doc : Value}
    (h : ((⟨[.set p .now]⟩ : Action).run s doc).success = true) :
    p.get? ((⟨[.set p .now]⟩ : Action).run s doc).newData = some (.string s.dateTime) := by
  have hrun : (Run.set s p .now doc).failure = none := by
    rw [← Option.isNone_iff_eq_none, ← h]
    simp only [Action.run, Run.operations_cons_nil, Operation.apply]
  simp only [Action.run, Run.operations_cons_nil, Operation.apply]
  simp only [Run.set] at hrun ⊢
  split at hrun
  · rename_i hequal
    rw [if_pos hequal]
    obtain ⟨old, hold, hequal⟩ := (Option.any_eq_true _ _).1 hequal
    rw [eq_of_equal_string hequal] at hold
    exact hold
  · rename_i hequal
    rw [if_neg hequal]
    split at hrun
    · cases hrun
    · rename_i hold
      exact Steps.get?_set_self hold
    · rename_i hold
      exact Steps.get?_set_self hold

/-- A key of an object can be written. -/
theorem success_run_set_key [Decimals] (key : String) (fields : Fields Value) :
    ((⟨[.set ⟨[.key key]⟩ .now]⟩ : Action).run s (.object fields)).success = true := by
  have hfailure : (Run.set s ⟨[.key key]⟩ .now (.object fields)).failure = none := by
    have hanswer : (Path.set ⟨[.key key]⟩ (.object fields) (Literal.now.resolve s)).answer =
        .ok (Fields.get? fields key) := rfl
    simp only [Run.set, hanswer]
    split
    · rfl
    · split <;> first | rfl | contradiction
  simp only [Action.run, Run.operations_cons_nil, Operation.apply, hfailure]
  rfl

/-- **The texts of the clock compare chronologically.**  Of two times in years of four digits, the
texts of `NOW` compare as the times do, cut to whole seconds, those of `TODAY` as the dates do, and
the text of a date is less than that of a time just if it is not a later date.  So a field that was
set to `NOW` can be compared with the clock later on. -/
theorem compares_chronologically [Decimals] (hs : s.IsDateTime) (ht : t.IsDateTime) :
    (∀ op : Comparison, op.holds (Literal.now.resolve s) (Literal.now.resolve t) = true ↔
      op.Relates s.wholeTime t.wholeTime) ∧
    (∀ op : Comparison, op.holds (Literal.today.resolve s) (Literal.today.resolve t) = true ↔
      op.Relates s.calendarDay t.calendarDay) ∧
    (Comparison.less.holds (Literal.today.resolve s) (Literal.now.resolve t) = true ↔
      s.calendarDay ≤ t.calendarDay) ∧
    (∀ (p : Path) (doc : Value),
      ((⟨[.set p .now]⟩ : Action).run s doc).success = true →
        (∀ op : Comparison, (Condition.compare p op .now).holds t
          ((⟨[.set p .now]⟩ : Action).run s doc).newData = true ↔
            op.Relates s.wholeTime t.wholeTime) ∧
        ((Condition.compare p .less .today).holds t
          ((⟨[.set p .now]⟩ : Action).run s doc).newData = true ↔
            s.calendarDay < t.calendarDay)) ∧
    ∀ (key : String) (fields : Fields Value),
      ((⟨[.set ⟨[.key key]⟩ .now]⟩ : Action).run s (.object fields)).success = true := by
  refine ⟨holds_now_now hs ht, holds_today_today hs ht, holds_today_now hs ht, ?_,
    success_run_set_key⟩
  intro p doc h
  have hget := get?_run_set_now h
  simp only [Condition.holds, hget]
  exact ⟨holds_now_now hs ht, holds_now_today hs ht⟩

/-- A leap second is earlier than the first second of the year after it. -/
theorem compares_chronologically_leap :
    let s : Clock := ⟨2016, 12, 31, 23, 59, 59, 1500000000⟩
    let t : Clock := ⟨2017, 1, 1, 0, 0, 0, 0⟩
    let f : Path := ⟨[.key "f"]⟩
    s.IsDateTime ∧ t.IsDateTime ∧ s.dateTime = "2016-12-31T23:59:60" ∧
      (Condition.compare f .less .now).holds t
        ((⟨[.set f .now]⟩ : Action).run s (.object [])).newData = true ∧
      Comparison.less.holds (Literal.today.resolve s) (Literal.now.resolve s) = true := by
  intro s t f
  have hs : s.IsDateTime := by constructor <;> decide
  have ht : t.IsDateTime := by constructor <;> decide
  obtain ⟨-, -, -, hset, hkey⟩ := compares_chronologically hs ht
  obtain ⟨-, -, htoday, -⟩ := compares_chronologically hs hs
  refine ⟨hs, ht, by decide +kernel, ?_, htoday.2 le_rfl⟩
  have hearlier : s.wholeTime < t.wholeTime := by decide
  exact ((hset f (.object []) (hkey "f" [])).1 .less).2 hearlier

end Clock

end MetadataRules
