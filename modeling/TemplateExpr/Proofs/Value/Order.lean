import TemplateExpr.Proofs.Binary64.Rounding
import TemplateExpr.Proofs.Value.Agreement

/-!
# Order of values

Numbers can be ordered, and so can strings (`Comparable`). Two integers are compared exactly, but an integer and a float
as floats, and two integers can have the same nearest float. Then both are equal to that float, and yet one is less than
the other. The order is still transitive, since the greater of two integers does not have the smaller float:

* (rank) of two numbers the lesser has no greater rank, and a smaller one unless both are integers (`Below.rank`);
* (back) a number of smaller rank is less, also among integers (`below_of_rank_lt`).
-/

namespace TemplateExpr.Value

/-- Both are numbers, or both are strings. -/
def Comparable (a b : Value) : Prop :=
  a.kind.isNumber = true ∧ b.kind.isNumber = true ∨ a.kind = .string ∧ b.kind = .string

/-- It is a NaN, not only one that is somewhere in it. -/
def IsNaN (a : Value) : Prop := ∃ x, a = .float x ∧ x.isNaN = true

/-- The cases in which a value is less than another. -/
inductive Below : Value → Value → Prop
  | ints {m n : Int64} : m < n → Below (.int m) (.int n)
  | strings {s t : String} : s < t → Below (.string s) (.string t)
  | floats {a b : Value} {x y : Float} : Floats a b x y → x < y → Below a b

/-- The cases in which a value that can be ordered with another is equal to it. -/
inductive Level : Value → Value → Prop
  | ints (n : Int64) : Level (.int n) (.int n)
  | strings (s : String) : Level (.string s) (.string s)
  | floats {a b : Value} {x y : Float} : Floats a b x y → (x == y) = true → Level a b

variable {a b c : Value}

theorem Comparable.cases (h : Comparable a b) :
    (∃ m n, a = .int m ∧ b = .int n) ∨ (∃ s t, a = .string s ∧ b = .string t) ∨ ∃ x y, Floats a b x y := by
  obtain ⟨ha, hb⟩ | ⟨ha, hb⟩ := h
  · cases a with
    | int m =>
      cases b with
      | int n => exact .inl ⟨m, n, rfl, rfl⟩
      | float y => exact .inr (.inr ⟨_, y, rfl, rfl, nofun⟩)
      | _ => cases hb
    | float x =>
      cases b with
      | int n => exact .inr (.inr ⟨x, _, rfl, rfl, nofun⟩)
      | float y => exact .inr (.inr ⟨x, y, rfl, rfl, nofun⟩)
      | _ => cases hb
    | _ => cases ha
  · cases a with
    | string s =>
      cases b with
      | string t => exact .inr (.inl ⟨s, t, rfl, rfl⟩)
      | _ => cases hb
    | _ => cases ha

theorem Floats.comparable {x y : Float} (h : Floats a b x y) : Comparable a b := by
  obtain ⟨m, rfl, -, rfl⟩ | ⟨rfl, n, rfl, -⟩ | ⟨rfl, rfl⟩ := h.cases <;> exact .inl ⟨rfl, rfl⟩

theorem Below.comparable (h : Below a b) : Comparable a b := by
  cases h with
  | ints => exact .inl ⟨rfl, rfl⟩
  | strings => exact .inr ⟨rfl, rfl⟩
  | floats h => exact h.comparable

theorem Comparable.symm (h : Comparable a b) : Comparable b a := h.imp And.symm And.symm

/-! ### What the operators give -/

theorem order_of_not_comparable (h : ¬ Comparable a b) : a.order b = .error (.type (.incomparable a.kind b.kind)) := by
  cases a <;> cases b <;> first | rfl | exact absurd (by simp [Comparable, kind, Kind.isNumber]) h

theorem lessThan_string (s t : String) : lessThan (.string s) (.string t) = .ok (decide (s < t)) := by
  simp only [lessThan, order, Except.map, compareOfLessAndEq]
  split
  · rename_i h
    simp [h]
  · rename_i h
    split <;> simp [h]

theorem lessThanOrEqual_string (s t : String) : lessThanOrEqual (.string s) (.string t) = .ok (decide (s ≤ t)) := by
  simp only [lessThanOrEqual, order, Except.map, compareOfLessAndEq, le_iff_lt_or_eq]
  split
  · rename_i h
    simp [h]
  · rename_i h
    split <;> simp [*]

theorem lessThan_iff : a.lessThan b = .ok true ↔ Below a b := by
  constructor
  · intro h
    by_cases hcomp : Comparable a b
    · obtain ⟨m, n, rfl, rfl⟩ | ⟨s, t, rfl, rfl⟩ | ⟨x, y, hxy⟩ := hcomp.cases
      · rw [lessThan_int, Except.ok.injEq, decide_eq_true_iff] at h
        exact .ints h
      · rw [lessThan_string, Except.ok.injEq, decide_eq_true_iff] at h
        exact .strings h
      · rw [hxy.lessThan, Except.ok.injEq, decide_eq_true_iff] at h
        exact .floats hxy h
    · rw [lessThan, order_of_not_comparable hcomp] at h
      cases h
  · intro h
    cases h with
    | ints h => rw [lessThan_int, decide_eq_true h]
    | strings h => rw [lessThan_string, decide_eq_true h]
    | floats hxy h => rw [hxy.lessThan, decide_eq_true h]

theorem looseEq_iff (h : Comparable a b) : a.looseEq b = true ↔ Level a b := by
  constructor
  · intro heq
    obtain ⟨m, n, rfl, rfl⟩ | ⟨s, t, rfl, rfl⟩ | ⟨x, y, hxy⟩ := h.cases
    · obtain rfl : m = n := eq_of_beq heq
      exact .ints m
    · obtain rfl : s = t := eq_of_beq heq
      exact .strings s
    · exact .floats hxy (hxy.looseEq.symm.trans heq)
  · intro hlevel
    cases hlevel with
    | ints n => exact beq_self_eq_true n
    | strings s => exact beq_self_eq_true s
    | floats hxy heq => exact hxy.looseEq.trans heq

/-- Two values that can be ordered are compared without failing, and `<=` is `<` or `==`. -/
theorem Comparable.lessThan (h : Comparable a b) :
    ∃ lt, a.lessThan b = .ok lt ∧ a.lessThanOrEqual b = .ok (lt || a.looseEq b) := by
  obtain ⟨m, n, rfl, rfl⟩ | ⟨s, t, rfl, rfl⟩ | ⟨x, y, hxy⟩ := h.cases
  · refine ⟨_, lessThan_int m n, ?_⟩
    rw [lessThanOrEqual_int, Except.ok.injEq, Bool.eq_iff_iff]
    simp [Int64.le_iff_lt_or_eq, looseEq]
  · refine ⟨_, lessThan_string s t, ?_⟩
    rw [lessThanOrEqual_string, Except.ok.injEq, Bool.eq_iff_iff]
    simp [le_iff_lt_or_eq, looseEq]
  · refine ⟨_, hxy.lessThan, ?_⟩
    rw [hxy.lessThanOrEqual, hxy.looseEq, Except.ok.injEq, Bool.eq_iff_iff]
    simp [Binary64.le_iff]

/-! ### Laws -/

open Binary64 (rank)

/-- The lesser of two numbers has no greater rank, and if they have the same, both are integers. -/
theorem Below.rank {x y : Float} (h : Below a b) (ha : a.number? = some x) (hb : b.number? = some y) :
    x.isNaN = false ∧ y.isNaN = false ∧ rank x ≤ rank y ∧
      (rank x < rank y ∨ ∃ m n, a = .int m ∧ b = .int n ∧ m < n) := by
  cases h with
  | @ints m n h =>
    cases ha
    cases hb
    exact ⟨Binary64.isNaN_ofInt64 m, Binary64.isNaN_ofInt64 n, Binary64.rank_ofInt64_le (Int64.le_of_lt h),
      .inr ⟨m, n, rfl, rfl, h⟩⟩
  | strings => cases ha
  | floats hxy h =>
    cases hxy.left.symm.trans ha
    cases hxy.right.symm.trans hb
    obtain ⟨hx, hy, hlt⟩ := Binary64.lt_iff.1 h
    exact ⟨hx, hy, hlt.le, .inl hlt⟩

/-- A number of smaller rank is less. Of two integers, the greater would have no smaller rank. -/
theorem below_of_rank_lt {x y : Float} (ha : a.number? = some x) (hb : b.number? = some y) (hx : x.isNaN = false)
    (hy : y.isNaN = false) (h : rank x < rank y) : Below a b := by
  by_cases hints : a.kind = .int ∧ b.kind = .int
  · obtain ⟨hka, hkb⟩ := hints
    cases a <;> cases hka
    cases b <;> cases hkb
    cases ha
    cases hb
    exact .ints (Int64.not_le.1 fun hle => (Binary64.rank_ofInt64_le hle).not_gt h)
  · exact .floats ⟨ha, hb, hints⟩ (Binary64.lt_iff.2 ⟨hx, hy, h⟩)

theorem Below.strings_or_numbers (h : Below a b) :
    (∃ s t, a = .string s ∧ b = .string t ∧ s < t) ∨ ∃ x y, a.number? = some x ∧ b.number? = some y := by
  cases h with
  | ints => exact .inr ⟨_, _, rfl, rfl⟩
  | strings h => exact .inl ⟨_, _, rfl, rfl, h⟩
  | floats hxy => exact .inr ⟨_, _, hxy.left, hxy.right⟩

theorem Below.trans (hab : Below a b) (hbc : Below b c) : Below a c := by
  obtain ⟨s, t, rfl, rfl, hst⟩ | ⟨x, y, hx, hy⟩ := hab.strings_or_numbers
  · obtain ⟨t', u, heq, rfl, htu⟩ | ⟨_, _, hnone, _⟩ := hbc.strings_or_numbers
    · cases heq
      exact .strings (String.lt_trans hst htu)
    · cases hnone
  · obtain ⟨_, _, rfl, _⟩ | ⟨y', z, hy', hz⟩ := hbc.strings_or_numbers
    · cases hy
    · cases hy.symm.trans hy'
      obtain ⟨hxnum, -, hxy, hab⟩ := hab.rank hx hy
      obtain ⟨-, hznum, hyz, hbc⟩ := hbc.rank hy hz
      -- a float on either side makes the ranks differ
      obtain hlt | ⟨m, n, rfl, rfl, hmn⟩ := hab
      · exact below_of_rank_lt hx hz hxnum hznum (hlt.trans_le hyz)
      · obtain hlt | ⟨n', k, heq, rfl, hnk⟩ := hbc
        · exact below_of_rank_lt hx hz hxnum hznum (hxy.trans_lt hlt)
        · cases heq
          exact .ints (Int64.lt_trans hmn hnk)

theorem Below.irrefl (h : Below a a) : False := by
  obtain ⟨s, t, rfl, heq, hst⟩ | ⟨x, y, hx, hy⟩ := h.strings_or_numbers
  · cases heq
    exact String.lt_irrefl s hst
  · cases hx.symm.trans hy
    obtain ⟨-, -, -, hlt | ⟨m, n, rfl, heq, hmn⟩⟩ := h.rank hx hx
    · exact lt_irrefl _ hlt
    · cases heq
      exact Int64.lt_irrefl hmn

theorem Below.asymm (h : Below a b) (h' : Below b a) : False := (h.trans h').irrefl

theorem Below.not_level (h : Below a b) (heq : Level a b) : False := by
  cases heq with
  | ints => exact h.irrefl
  | strings => exact h.irrefl
  | floats hxy heq =>
    obtain ⟨-, -, -, hlt | ⟨m, n, rfl, rfl, -⟩⟩ := h.rank hxy.left hxy.right
    · exact hlt.ne (Binary64.beq_iff.1 heq).2.2
    · exact hxy.notInts ⟨rfl, rfl⟩

theorem Level.symm (h : Level a b) : Level b a := by
  cases h with
  | ints n => exact .ints n
  | strings s => exact .strings s
  | floats hxy heq =>
    obtain ⟨hx, hy, hrank⟩ := Binary64.beq_iff.1 heq
    exact .floats hxy.swap (Binary64.beq_iff.2 ⟨hy, hx, hrank.symm⟩)

/-- The float that a number is compared as is a NaN only if the number is one. -/
theorem isNaN_of_number? {x : Float} (ha : a.number? = some x) (h : ¬ a.IsNaN) : x.isNaN = false := by
  cases a with
  | int n =>
    cases ha
    exact Binary64.isNaN_ofInt64 n
  | float y =>
    cases ha
    exact Bool.not_eq_true _ ▸ fun hx => h ⟨_, rfl, hx⟩
  | _ => cases ha

theorem Comparable.trichotomy (h : Comparable a b) (ha : ¬ a.IsNaN) (hb : ¬ b.IsNaN) :
    Below a b ∨ Level a b ∨ Below b a := by
  obtain ⟨m, n, rfl, rfl⟩ | ⟨s, t, rfl, rfl⟩ | ⟨x, y, hxy⟩ := h.cases
  · obtain hlt | hle := Int64.lt_or_le m n
    · exact .inl (.ints hlt)
    · obtain hlt | rfl := Int64.le_iff_lt_or_eq.1 hle
      · exact .inr (.inr (.ints hlt))
      · exact .inr (.inl (.ints n))
  · obtain hlt | rfl | hlt := lt_trichotomy s t
    · exact .inl (.strings hlt)
    · exact .inr (.inl (.strings s))
    · exact .inr (.inr (.strings hlt))
  · have hx := isNaN_of_number? hxy.left ha
    have hy := isNaN_of_number? hxy.right hb
    obtain hlt | heq | hlt := lt_trichotomy (Binary64.rank x) (Binary64.rank y)
    · exact .inl (.floats hxy (Binary64.lt_iff.2 ⟨hx, hy, hlt⟩))
    · exact .inr (.inl (.floats hxy (Binary64.beq_iff.2 ⟨hx, hy, heq⟩)))
    · exact .inr (.inr (.floats hxy.swap (Binary64.lt_iff.2 ⟨hy, hx, hlt⟩)))

/-- `<` and `<=` fail on two values exactly if these cannot be ordered. Otherwise `<=` is `<` or `==`. At most one of
`<`, `==` and `<` the other way round holds, and exactly one if neither value is a NaN. No value is less than itself,
and `<` is transitive, whichever of three numbers are integers. -/
theorem order_laws (a b c : Value) :
    (¬ Comparable a b → a.lessThan b = .error (.type (.incomparable a.kind b.kind)) ∧
      a.lessThanOrEqual b = .error (.type (.incomparable a.kind b.kind))) ∧
    (Comparable a b → ∃ lt gt, a.lessThan b = .ok lt ∧ b.lessThan a = .ok gt ∧
      a.lessThanOrEqual b = .ok (lt || a.looseEq b) ∧
      ¬ (lt = true ∧ a.looseEq b = true) ∧ ¬ (a.looseEq b = true ∧ gt = true) ∧ ¬ (lt = true ∧ gt = true) ∧
      (¬ a.IsNaN → ¬ b.IsNaN → lt = true ∨ a.looseEq b = true ∨ gt = true)) ∧
    (Comparable a a → a.lessThan a = .ok false) ∧
    (a.lessThan b = .ok true → b.lessThan c = .ok true → a.lessThan c = .ok true) := by
  refine ⟨fun h => ?_, fun h => ?_, fun h => ?_, fun hab hbc => ?_⟩
  · rw [lessThan, lessThanOrEqual, order_of_not_comparable h]
    exact ⟨rfl, rfl⟩
  · obtain ⟨lt, hlt, hle⟩ := h.lessThan
    obtain ⟨gt, hgt, -⟩ := h.symm.lessThan
    have hlt_iff : lt = true ↔ Below a b := by rw [← lessThan_iff, hlt, Except.ok.injEq]
    have hgt_iff : gt = true ↔ Below b a := by rw [← lessThan_iff, hgt, Except.ok.injEq]
    refine ⟨lt, gt, hlt, hgt, hle, ?_⟩
    rw [hlt_iff, hgt_iff, looseEq_iff h]
    refine ⟨?_, ?_, ?_, h.trichotomy⟩
    · rintro ⟨hbelow, hlevel⟩
      exact hbelow.not_level hlevel
    · rintro ⟨hlevel, habove⟩
      exact habove.not_level hlevel.symm
    · rintro ⟨hbelow, habove⟩
      exact hbelow.asymm habove
  · obtain ⟨lt, hlt, -⟩ := h.lessThan
    cases lt with
    | false => exact hlt
    | true => exact (lessThan_iff.1 hlt).irrefl.elim
  · exact lessThan_iff.2 ((lessThan_iff.1 hab).trans (lessThan_iff.1 hbc))

/-- Two integers around 2⁵³ that lie on either side of a float: the second has no float of its own. -/
theorem order_laws_two_pow_53 :
    (Value.int 9007199254740991).lessThan (.float (Binary64.ofInt64 9007199254740992)) = .ok true ∧
      (Value.float (Binary64.ofInt64 9007199254740992)).lessThan (.int 9007199254740995) = .ok true ∧
      (Value.int 9007199254740991).lessThan (.int 9007199254740995) = .ok true := by
  have hleft : (Value.int 9007199254740991).lessThan (.float (Binary64.ofInt64 9007199254740992)) = .ok true := by
    decide +kernel
  have hright : (Value.float (Binary64.ofInt64 9007199254740992)).lessThan (.int 9007199254740995) = .ok true := by
    decide +kernel
  exact ⟨hleft, hright, (order_laws _ _ _).2.2.2 hleft hright⟩

end TemplateExpr.Value
