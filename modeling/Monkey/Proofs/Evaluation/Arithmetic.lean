import Monkey.Proofs.Evaluation.Lasting

/-!
# Arithmetic

Numbers have 64 bits, and operators between them wrap. Taking the remainder of an integer modulo 2^64
respects sums, differences, products and negation, so it does not matter in which of the steps of a
calculation it is taken: an expression has the remainder of its exact value, however deep it is. A
quotient does not respect remainders; it is that of the values of its operands, cut off towards zero, and
the only fault of arithmetic is to divide by zero.
-/

namespace Monkey

variable {μ : Type}

namespace Expr

/-- The exact value of an expression that is built from numbers with sums, differences, products and
negation. -/
inductive Exact : Expr μ → Int → Prop where
  | integer (n : Int64) : Exact (.integer n) n.toInt
  | negation {e : Expr μ} {x : Int} (operand : Exact e x) :
      Exact (.unary (.symbol .minus) e) (-x)
  | sum {d e : Expr μ} {x y : Int} (left : Exact d x) (right : Exact e y) :
      Exact (.binary d (.symbol .plus) e) (x + y)
  | difference {d e : Expr μ} {x y : Int} (left : Exact d x) (right : Exact e y) :
      Exact (.binary d (.symbol .minus) e) (x - y)
  | product {d e : Expr μ} {x y : Int} (left : Exact d x) (right : Exact e y) :
      Exact (.binary d (.symbol .asterisk) e) (x * y)

/-- An expression is built from numbers with the operators of arithmetic, quotients among them. -/
inductive Arithmetic : Expr μ → Prop where
  | integer (n : Int64) : Arithmetic (.integer n)
  | negation {e : Expr μ} (operand : Arithmetic e) : Arithmetic (.unary (.symbol .minus) e)
  | binary {d e : Expr μ} {s : Symbol} (mem : s ∈ [.plus, .minus, .asterisk, .slash])
      (left : Arithmetic d) (right : Arithmetic e) : Arithmetic (.binary d (.symbol s) e)

/-- An expression has a value in a scope of a world, and finding it changes nothing. -/
def HasValue (apply : Apply) (scope : ScopeId) (w : World) (e : Expr Site) (v : Value) : Prop :=
  (Eval.expression apply scope e).run w = some (v, w)

/-- Somewhere in an expression, a number is divided by zero. -/
def DividesByZero (apply : Apply) (scope : ScopeId) (w : World) (e : Expr Site) : Prop :=
  ∃ a b m, Within (.binary a (.symbol .slash) b) e ∧ HasValue apply scope w a (.integer m) ∧
    HasValue apply scope w b (.integer 0)

variable {apply : Apply} {scope : ScopeId} {w : World} {d e : Expr Site} {u v : Value}
  {operator : Token} {m n : Int64}

namespace HasValue

theorem unique (h : HasValue apply scope w e u) (h' : HasValue apply scope w e v) : u = v :=
  (Prod.mk.inj (Option.some.inj (Eq.trans h.symm h'))).1

theorem integer (n : Int64) : HasValue apply scope w (.integer n) (.integer n) := by
  rw [HasValue, Eval.expression]
  rfl

theorem unary (h : HasValue apply scope w e v) (plain : v.isSignal = false) :
    HasValue apply scope w (.unary operator e) (.ofResult (Value.unary operator v)) := by
  rw [HasValue, Eval.expression, StateT.run_bind, h]
  simp only [Option.bind_eq_bind, Option.bind_some, Eval.unlessSignal, plain]
  rfl

theorem operand (h : HasValue apply scope w e v) (signal : v.isSignal = true) :
    HasValue apply scope w (.unary operator e) v := by
  rw [HasValue, Eval.expression, StateT.run_bind, h]
  simp only [Option.bind_eq_bind, Option.bind_some, Eval.unlessSignal, signal]
  rfl

theorem left (h : HasValue apply scope w d v) (signal : v.isSignal = true) :
    HasValue apply scope w (.binary d operator e) v := by
  rw [HasValue, Eval.expression, StateT.run_bind, h]
  simp only [Option.bind_eq_bind, Option.bind_some, Eval.unlessSignal, signal]
  rfl

theorem right (h : HasValue apply scope w d u) (plain : u.isSignal = false)
    (h' : HasValue apply scope w e v) (signal : v.isSignal = true) :
    HasValue apply scope w (.binary d operator e) v := by
  rw [HasValue, Eval.expression, StateT.run_bind, h]
  simp only [Option.bind_eq_bind, Option.bind_some, Eval.unlessSignal, plain, Bool.false_eq_true,
    if_false, StateT.run_bind]
  rw [h']
  simp only [Option.bind_some, signal]
  rfl

theorem binary (h : HasValue apply scope w d u) (plain : u.isSignal = false)
    (h' : HasValue apply scope w e v) (plain' : v.isSignal = false) :
    HasValue apply scope w (.binary d operator e) (.ofResult (Value.binary u operator v)) := by
  rw [HasValue, Eval.expression, StateT.run_bind, h]
  simp only [Option.bind_eq_bind, Option.bind_some, Eval.unlessSignal, plain, Bool.false_eq_true,
    if_false, StateT.run_bind]
  rw [h']
  simp only [Option.bind_some, plain']
  rfl

/-- An operator between numbers. -/
theorem arithmetic (operator : Token) (h : HasValue apply scope w d (.integer m))
    (h' : HasValue apply scope w e (.integer n)) :
    HasValue apply scope w (.binary d operator e) (.ofResult (Value.arithmetic operator m n)) :=
  h.binary rfl h' rfl

end HasValue

/-- An expression has the remainder of its exact value. -/
theorem Exact.hasValue {x : Int} (h : Exact e x) :
    HasValue apply scope w e (.integer (Int64.ofInt x)) := by
  induction h with
  | integer n =>
    rw [Int64.ofInt_toInt]
    exact .integer n
  | negation _ ih =>
    rw [Int64.ofInt_neg]
    exact ih.unary rfl
  | sum _ _ ih ih' =>
    rw [Int64.ofInt_add]
    exact ih.arithmetic _ ih'
  | difference _ _ ih ih' =>
    rw [Int64.ofInt_sub]
    exact ih.arithmetic _ ih'
  | product _ _ ih ih' =>
    rw [Int64.ofInt_mul]
    exact ih.arithmetic _ ih'

theorem within_unary : d.Within (.unary operator e) ↔ d = .unary operator e ∨ d.Within e := by
  rw [within_iff]
  simp [children]

theorem within_binary {a b : Expr Site} :
    d.Within (.binary a operator b) ↔ d = .binary a operator b ∨ d.Within a ∨ d.Within b := by
  rw [within_iff]
  simp [children]

theorem not_dividesByZero_integer (n : Int64) : ¬ DividesByZero apply scope w (.integer n) := by
  rintro ⟨a, b, m, within, -⟩
  rw [within_iff] at within
  simp [children] at within

theorem dividesByZero_unary :
    DividesByZero apply scope w (.unary operator e) ↔ DividesByZero apply scope w e := by
  simp only [DividesByZero, within_unary, reduceCtorEq, false_or]

/-- Where a number is divided by zero in an expression between two operands, it is there or in one of the
operands. -/
theorem dividesByZero_binary :
    DividesByZero apply scope w (.binary d operator e) ↔
      (operator = .symbol .slash ∧
        ∃ m, HasValue apply scope w d (.integer m) ∧ HasValue apply scope w e (.integer 0)) ∨
      DividesByZero apply scope w d ∨ DividesByZero apply scope w e := by
  constructor
  · rintro ⟨a, b, m, within, ha, hb⟩
    rcases within_binary.1 within with heq | within | within
    · cases heq
      exact .inl ⟨rfl, m, ha, hb⟩
    · exact .inr (.inl ⟨a, b, m, within, ha, hb⟩)
    · exact .inr (.inr ⟨a, b, m, within, ha, hb⟩)
  · rintro (⟨rfl, m, hd, he⟩ | ⟨a, b, m, within, ha, hb⟩ | ⟨a, b, m, within, ha, hb⟩)
    · exact ⟨d, e, m, .refl _, hd, he⟩
    · exact ⟨a, b, m, within_binary.2 (.inr (.inl within)), ha, hb⟩
    · exact ⟨a, b, m, within_binary.2 (.inr (.inr within)), ha, hb⟩

/-- Where nothing is divided by zero, arithmetic gives a number, and otherwise the fault. -/
theorem Arithmetic.number_or_fault (apply : Apply) (scope : ScopeId) (w : World) (h : Arithmetic e) :
    (∃ n, HasValue apply scope w e (.integer n)) ∧ ¬ DividesByZero apply scope w e ∨
      HasValue apply scope w e (.error .divisionByZero) ∧ DividesByZero apply scope w e := by
  induction h with
  | integer n => exact .inl ⟨⟨n, .integer n⟩, not_dividesByZero_integer n⟩
  | negation _ ih =>
    rw [dividesByZero_unary]
    rcases ih with ⟨⟨n, hn⟩, hsafe⟩ | ⟨hfault, hzero⟩
    · exact .inl ⟨⟨-n, hn.unary rfl⟩, hsafe⟩
    · exact .inr ⟨hfault.operand rfl, hzero⟩
  | @binary d e s mem _ _ ih ih' =>
    rw [dividesByZero_binary]
    rcases ih with ⟨⟨m, hm⟩, hsafe⟩ | ⟨hfault, hzero⟩
    · rcases ih' with ⟨⟨n, hn⟩, hsafe'⟩ | ⟨hfault, hzero⟩
      · have hboth := hm.arithmetic (.symbol s) hn
        by_cases hdivides : s = .slash ∧ n = 0
        · obtain ⟨rfl, rfl⟩ := hdivides
          exact .inr ⟨hboth, .inl ⟨rfl, m, hm, hn⟩⟩
        · refine .inl ⟨?_, ?_⟩
          · simp only [List.mem_cons, List.not_mem_nil, or_false] at mem
            rcases mem with rfl | rfl | rfl | rfl
            · exact ⟨_, hboth⟩
            · exact ⟨_, hboth⟩
            · exact ⟨_, hboth⟩
            · have hne : n ≠ 0 := fun hn => hdivides ⟨rfl, hn⟩
              rw [Value.arithmetic, if_neg hne] at hboth
              exact ⟨_, hboth⟩
          · rintro (⟨hslash, -, -, hzero⟩ | hzero | hzero)
            · exact hdivides ⟨Token.symbol.inj hslash, Value.integer.inj (hn.unique hzero)⟩
            · exact hsafe hzero
            · exact hsafe' hzero
      · exact .inr ⟨hm.right rfl hfault rfl, .inr (.inr hzero)⟩
    · exact .inr ⟨hfault.left rfl, .inr (.inl hzero)⟩

end Expr

/-- Except for the one quotient that is too large, a quotient and its remainder make up the dividend, the
remainder is smaller than the divisor, and it has the sign of the dividend. -/
theorem exists_remainder {m n : Int64} (hn : n ≠ 0) (hfits : ¬ (m = Int64.minValue ∧ n = -1)) :
    ∃ r : Int, m.toInt = (m / n).toInt * n.toInt + r ∧ r.natAbs < n.toInt.natAbs ∧
      (r = 0 ∨ r.sign = m.toInt.sign) := by
  have hne : n.toInt ≠ 0 := fun h => hn (Int64.toInt_inj.1 h)
  have hquotient : (m / n).toInt = m.toInt.tdiv n.toInt := by
    by_cases hm : m = Int64.minValue
    · exact Int64.toInt_div_of_ne_right m n fun hminus => hfits ⟨hm, hminus⟩
    · exact Int64.toInt_div_of_ne_left m n hm
  refine ⟨m.toInt.tmod n.toInt, ?_, ?_, ?_⟩
  · rw [hquotient, Int.tdiv_mul_add_tmod]
  · rw [Int.natAbs_tmod]
    exact Nat.mod_lt _ (Int.natAbs_pos.2 hne)
  · by_cases hdvd : n.toInt ∣ m.toInt
    · exact .inl (Int.tmod_eq_zero_of_dvd hdvd)
    · exact .inr (by rw [Int.sign_tmod, if_neg hdvd])

/-- Arithmetic is exact modulo 2^64. An expression built from numbers with sums, differences, products and
negation gives the remainder of its exact value between the least and the largest number, and so the exact
value itself whenever that is a number. With quotients, an expression gives a number, or the fault of
dividing by zero, and it gives the fault exactly when somewhere in it a number is divided by zero. Any
other quotient is that of the values of its operands, cut off towards zero, except that the least number
divided by -1 is the least number. -/
theorem arithmetic_exact_modulo (apply : Apply) (scope : ScopeId) (w : World) :
    (∀ e x, Expr.Exact e x → ∃ n : Int64, e.HasValue apply scope w (.integer n) ∧
      n.toInt = x.bmod Int64.size ∧
      (Int64.minValue.toInt ≤ x → x ≤ Int64.maxValue.toInt → n.toInt = x)) ∧
    (∀ e, Expr.Arithmetic e →
      ((∃ n, e.HasValue apply scope w (.integer n)) ∨
        e.HasValue apply scope w (.error .divisionByZero)) ∧
      (e.HasValue apply scope w (.error .divisionByZero) ↔
        ∃ a b m, Expr.Within (.binary a (.symbol .slash) b) e ∧
          a.HasValue apply scope w (.integer m) ∧ b.HasValue apply scope w (.integer 0))) ∧
    ∀ (a b : Expr Site) (m n : Int64), a.HasValue apply scope w (.integer m) →
      b.HasValue apply scope w (.integer n) → n ≠ 0 →
      ∃ q : Int64, Expr.HasValue apply scope w (.binary a (.symbol .slash) b) (.integer q) ∧
        (m = Int64.minValue ∧ n = -1 → q = Int64.minValue) ∧
        (¬ (m = Int64.minValue ∧ n = -1) →
          ∃ r : Int, m.toInt = q.toInt * n.toInt + r ∧ r.natAbs < n.toInt.natAbs ∧
            (r = 0 ∨ r.sign = m.toInt.sign)) := by
  refine ⟨fun e x h => ?_, fun e h => ?_, fun a b m n ha hb hn => ?_⟩
  · refine ⟨Int64.ofInt x, h.hasValue, Int64.toInt_ofInt, fun hlow hhigh => ?_⟩
    rw [Int64.toInt_minValue] at hlow
    rw [Int64.toInt_maxValue] at hhigh
    exact Int64.toInt_ofInt_of_le hlow (by omega)
  · rcases h.number_or_fault apply scope w with ⟨⟨n, hn⟩, hsafe⟩ | ⟨hfault, hzero⟩
    · refine ⟨.inl ⟨n, hn⟩, iff_of_false (fun hfault => ?_) hsafe⟩
      cases hn.unique hfault
    · exact ⟨.inr hfault, iff_of_true hfault hzero⟩
  · have hquotient := ha.arithmetic (.symbol .slash) hb
    rw [Value.arithmetic, if_neg hn] at hquotient
    refine ⟨m / n, hquotient, ?_, exists_remainder hn⟩
    rintro ⟨rfl, rfl⟩
    exact Int64.minValue_div_neg_one

/-- One more than the largest number, less one, is the largest number again. The one more, divided by -1,
is the least number, and divided by a difference of equal numbers, it is a fault. -/
theorem largest_number_comes_back :
    let past : Expr Site := .binary (.integer Int64.maxValue) (.symbol .plus) (.integer 1)
    let back : Expr Site := .binary past (.symbol .minus) (.integer 1)
    let minus : Expr Site := .unary (.symbol .minus) (.integer 1)
    let zero : Expr Site := .binary (.integer 2) (.symbol .minus) (.integer 2)
    let HasValue := Expr.HasValue (Eval.apply 0) globalScope (World.initial .unlimited)
    back.Exact (Int64.maxValue.toInt + (1 : Int64).toInt - (1 : Int64).toInt) ∧
      HasValue back (.integer Int64.maxValue) ∧
      HasValue (.binary past (.symbol .slash) minus) (.integer Int64.minValue) ∧
      HasValue (.binary past (.symbol .slash) zero) (.error .divisionByZero) := by
  intro past back minus zero HasValue
  obtain ⟨hexact, hfault, hquotient⟩ :=
    arithmetic_exact_modulo (Eval.apply 0) globalScope (World.initial .unlimited)
  have hpast : HasValue past (.integer Int64.minValue) := rfl
  have hback : back.Exact (Int64.maxValue.toInt + (1 : Int64).toInt - (1 : Int64).toInt) :=
    .difference (.sum (.integer _) (.integer 1)) (.integer 1)
  refine ⟨hback, ?_, ?_, ?_⟩
  · obtain ⟨n, hn, -, hfits⟩ := hexact back _ hback
    have heq : n = Int64.maxValue := Int64.toInt_inj.1 (hfits (by decide) (by decide))
    exact heq ▸ hn
  · obtain ⟨q, hq, hleast, -⟩ := hquotient past minus Int64.minValue (-1) hpast rfl (by decide)
    exact hleast ⟨rfl, rfl⟩ ▸ hq
  · have harithmetic : (Expr.binary past (.symbol .slash) zero).Arithmetic :=
      .binary (by decide) (.binary (by decide) (.integer _) (.integer 1))
        (.binary (by decide) (.integer 2) (.integer 2))
    exact (hfault _ harithmetic).2.2 ⟨past, zero, Int64.minValue, .refl _, hpast, rfl⟩

end Monkey
