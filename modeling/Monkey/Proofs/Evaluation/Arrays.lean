import Monkey.Proofs.Evaluation.Equality

/-!
# Arrays

Indexing finds the elements of an array at the numbers from zero on that are below its length, and `null`
at all others. What the builtin functions make of an array can be said by indexing alone, at every number:
`first` and `last` are the elements at both ends, `rest` moves every element one place down, and `push` puts
one behind the last. They make new arrays, so the elements of the given one stay what they are. An array has
fewer elements than there are numbers from zero on.
-/

namespace Monkey

/-- A number below the largest has a next one. -/
theorem toInt_add_one {i : Int64} (h : i.toInt < Int64.maxValue.toInt) :
    (i + 1).toInt = i.toInt + 1 := by
  rw [Int64.toInt_maxValue] at h
  have hlow := i.le_toInt
  have hnext : i + 1 = Int64.ofInt (i.toInt + 1) := by
    rw [Int64.ofInt_add, Int64.ofInt_toInt]
    rfl
  rw [hnext, Int64.toInt_ofInt_of_le (by omega) (by omega)]

/-- A number from zero on has one before it. -/
theorem toInt_sub_one {i : Int64} (h : 0 ≤ i.toInt) : (i - 1).toInt = i.toInt - 1 := by
  have hhigh := i.toInt_lt
  have hbefore : i - 1 = Int64.ofInt (i.toInt - 1) := by
    rw [Int64.ofInt_sub, Int64.ofInt_toInt]
    rfl
  rw [hbefore, Int64.toInt_ofInt_of_le (by omega) (by omega)]

/-- A length that is a number is said by that number. -/
theorem toInt_ofNat_of_le_largest {n : Nat} (h : (n : Int) ≤ Int64.maxValue.toInt) :
    (Int64.ofNat n).toInt = n := by
  rw [Int64.toInt_maxValue] at h
  exact Int64.toInt_ofNat_of_lt (by omega)

namespace Value

variable {elements : List Value} {x : Value} {i : Int64}

theorem ofNat_length_tail (h : elements ≠ []) :
    Int64.ofNat elements.tail.length = Int64.ofNat elements.length - 1 := by
  obtain ⟨v, vs, rfl⟩ := List.exists_cons_of_ne_nil h
  rw [List.tail_cons, List.length_cons, Int64.ofNat_add]
  exact (Int64.add_sub_cancel _ _).symm

theorem ofNat_length_concat :
    Int64.ofNat (elements ++ [x]).length = Int64.ofNat elements.length + 1 := by
  rw [List.length_append, Int64.ofNat_add]
  rfl

/-- At a number from zero on is the element with that position in the list. -/
theorem elementAt_eq_getD {k : Nat} (h : i.toInt = k) :
    elementAt elements i = (elements[k]?).getD .null := by
  unfold elementAt
  rw [h]

theorem elementAt_of_neg (h : i.toInt < 0) : elementAt elements i = .null := by
  unfold elementAt
  split
  · next k hk =>
    rw [hk] at h
    exact absurd h (Int.not_lt.2 (Int.natCast_nonneg k))
  · rfl

theorem elementAt_of_length_le (h : elements.length ≤ i.toInt) : elementAt elements i = .null := by
  obtain ⟨k, hk⟩ := Int.eq_ofNat_of_zero_le (Int.le_trans (Int.natCast_nonneg _) h)
  rw [elementAt_eq_getD hk, List.getElem?_eq_none (by omega), Option.getD_none]

/-- Without its first element, a list has every element one place further down. -/
theorem elementAt_tail (hlow : 0 ≤ i.toInt) (hhigh : i.toInt < Int64.maxValue.toInt) :
    elementAt elements.tail i = elementAt elements (i + 1) := by
  obtain ⟨k, hk⟩ := Int.eq_ofNat_of_zero_le hlow
  have hnext : (i + 1).toInt = (k + 1 : Nat) := by
    rw [toInt_add_one hhigh, hk]
    rfl
  rw [elementAt_eq_getD hk, elementAt_eq_getD hnext, List.getElem?_tail]

theorem elementAt_concat_length (h : i.toInt = elements.length) :
    elementAt (elements ++ [x]) i = x := by
  rw [elementAt_eq_getD h, List.getElem?_concat_length, Option.getD_some]

/-- A further element is at no other place than the one behind the last. -/
theorem elementAt_concat_of_ne (h : i.toInt ≠ elements.length) :
    elementAt (elements ++ [x]) i = elementAt elements i := by
  by_cases hneg : i.toInt < 0
  · rw [elementAt_of_neg hneg, elementAt_of_neg hneg]
  · obtain ⟨k, hk⟩ := Int.eq_ofNat_of_zero_le (Int.not_lt.1 hneg)
    rw [elementAt_eq_getD hk, elementAt_eq_getD hk, List.getElem?_append]
    split
    · rfl
    · rw [List.getElem?_eq_none (by rw [List.length_singleton]; omega),
        List.getElem?_eq_none (by omega)]

theorem elementAt_zero : elementAt elements 0 = elements.head?.getD .null := by
  rw [elementAt_eq_getD (k := 0) rfl, List.head?_eq_getElem?]

/-- The last element is before the place that the length says. -/
theorem elementAt_length_sub_one (h : (elements.length : Int) ≤ Int64.maxValue.toInt) :
    elementAt elements (Int64.ofNat elements.length - 1) = elements.getLast?.getD .null := by
  have hlength := toInt_ofNat_of_le_largest h
  have hbefore := toInt_sub_one (hlength ▸ Int.natCast_nonneg _)
  rw [hlength] at hbefore
  rcases elements.eq_nil_or_concat' with rfl | ⟨others, last, rfl⟩
  · rw [elementAt_of_neg (by rw [hbefore]; decide)]
    rfl
  · rw [List.getLast?_concat, elementAt_concat_length, Option.getD_some]
    rw [hbefore, List.length_append, List.length_singleton]
    omega

end Value

namespace Builtin

/-- Pushes values onto an array, one after another. -/
def pushEach : List Value → Value → World → Except Fault Value × World
  | [], array, w => (.ok array, w)
  | v :: vs, array, w =>
    match push.call [array, v] w with
    | (.ok longer, after) => pushEach vs longer after
    | (.error fault, after) => (.error fault, after)

variable (identity : Identity) (elements : List Value) (w : World)

theorem call_len_array :
    len.call [.array identity elements] w = (.ok (.integer (Int64.ofNat elements.length)), w) := rfl

theorem call_rest_array (h : elements ≠ []) :
    rest.call [.array identity elements] w =
      (.ok (.array w.nextIdentity elements.tail), w.takeIdentity.2) := by
  cases elements with
  | nil => exact absurd rfl h
  | cons v vs => rfl

theorem call_push_array (x : Value) :
    push.call [.array identity elements, x] w =
      (.ok (.array w.nextIdentity (elements ++ [x])), w.takeIdentity.2) := rfl

/-- Values that are pushed one after another stand behind the elements in that order. -/
theorem exists_pushEach_eq (vs : List Value) :
    ∃ j w', pushEach vs (.array identity elements) w = (.ok (.array j (elements ++ vs)), w') := by
  induction vs generalizing identity elements w with
  | nil => exact ⟨identity, w, by rw [pushEach, List.append_nil]⟩
  | cons v vs ih =>
    obtain ⟨j, w', h⟩ := ih w.nextIdentity (elements ++ [v]) w.takeIdentity.2
    rw [List.append_assoc, List.singleton_append] at h
    exact ⟨j, w', h⟩

/-- The elements behind the first one, pushed onto it, make the array again. -/
theorem exists_pushEach_tail_same (h : elements ≠ []) {f : Value}
    (hf : (first.call [.array identity elements] w).1 = .ok f) (w' : World) :
    ∃ b w'', pushEach elements.tail (w'.newArray [f]).1 (w'.newArray [f]).2 = (.ok b, w'') ∧
      b.same (.array identity elements) = true := by
  obtain ⟨v, vs, rfl⟩ := List.exists_cons_of_ne_nil h
  obtain rfl : v = f := Except.ok.inj hf
  obtain ⟨j, w'', hpushed⟩ := exists_pushEach_eq w'.nextIdentity [v] w'.takeIdentity.2 vs
  exact ⟨_, w'', hpushed, Value.same_iff.2 rfl⟩

/-- It makes no difference whether the first element is left out before or after another one is pushed. -/
theorem exists_rest_push_same (h : elements ≠ []) (x : Value) (j : Identity) (w₁ w₂ w₃ : World) :
    ∃ r u v, (rest.call [.array j (elements ++ [x])] w₁).1 = .ok u ∧
      (rest.call [.array identity elements] w₂).1 = .ok r ∧ (push.call [r, x] w₃).1 = .ok v ∧
        u.same v = true := by
  have hne : elements ++ [x] ≠ [] := List.append_ne_nil_of_left_ne_nil h [x]
  refine ⟨_, _, _, congrArg Prod.fst (call_rest_array _ _ w₁ hne),
    congrArg Prod.fst (call_rest_array _ _ w₂ h), congrArg Prod.fst (call_push_array _ _ w₃ x), ?_⟩
  rw [List.tail_append_of_ne_nil h]
  exact Value.same_iff.2 rfl

end Builtin

/-- A builtin function changes nothing about what names stand for. -/
theorem World.named_call (w : World) (b : Builtin) (arguments : List Value) (scope : ScopeId)
    (name : String) : (b.call arguments w).2.named scope name = w.named scope name := by
  have hscopes := b.scopes_call arguments w
  unfold World.named World.lookup World.search
  rw [hscopes]

/-- For every array and at every number, indexing and the builtin functions agree; the length is below the
largest number, as that of every array in memory is. Indexing finds the element at a position of the array
and `null` elsewhere. The first and the last element are those at zero and before the length, also when
there are none and both are `null`. There is no rest of the empty array; the rest of any other one is shorter
by one and has every element one place further down, and when its elements are pushed onto the first one, the
array comes back. Pushing makes an array longer by one, with the new element behind the last and all others
where they were, and it makes no difference whether the first element is left out before or after it. What
names stand for is the same after all these calls, so the array and its elements are. -/
theorem array_operations_agree (identity : Identity) {elements : List Value}
    (fits : (elements.length : Int) < Int64.maxValue.toInt) (x : Value) (w : World) :
    let a := Value.array identity elements
    let n := Int64.ofNat elements.length
    (n.toInt = elements.length ∧ Builtin.len.call [a] w = (.ok (.integer n), w)) ∧
    (∀ i : Int64,
      (∀ (k : Nat) v, elements[k]? = some v → i.toInt = k → Value.index a (.integer i) = .ok v) ∧
      (i.toInt < 0 ∨ elements.length ≤ i.toInt → Value.index a (.integer i) = .ok .null)) ∧
    Builtin.first.call [a] w = (Value.index a (.integer 0), w) ∧
    Builtin.last.call [a] w = (Value.index a (.integer (n - 1)), w) ∧
    (elements = [] → Builtin.rest.call [a] w = (.ok .null, w)) ∧
    (elements ≠ [] → ∃ j others w₁, Builtin.rest.call [a] w = (.ok (.array j others), w₁) ∧
      (n - 1).toInt = n.toInt - 1 ∧
      (∀ w', Builtin.len.call [.array j others] w' = (.ok (.integer (n - 1)), w')) ∧
      (∀ i : Int64, 0 ≤ i.toInt → i.toInt < Int64.maxValue.toInt →
        Value.index (.array j others) (.integer i) = Value.index a (.integer (i + 1))) ∧
      (∀ i : Int64, i.toInt < 0 → Value.index (.array j others) (.integer i) = .ok .null) ∧
      ∀ f w', (Builtin.first.call [a] w).1 = .ok f →
        ∃ b w'', Builtin.pushEach others (World.newArray w' [f]).1 (w'.newArray [f]).2 = (.ok b, w'') ∧
          b.same a = true) ∧
    (∃ p w₁, Builtin.push.call [a, x] w = (.ok p, w₁) ∧
      (n + 1).toInt = n.toInt + 1 ∧
      (∀ w', Builtin.len.call [p] w' = (.ok (.integer (n + 1)), w')) ∧
      Value.index p (.integer n) = .ok x ∧
      (∀ i, i ≠ n → Value.index p (.integer i) = Value.index a (.integer i)) ∧
      (elements ≠ [] → ∀ w₁ w₂ w₃, ∃ r u v, (Builtin.rest.call [p] w₁).1 = .ok u ∧
        (Builtin.rest.call [a] w₂).1 = .ok r ∧ (Builtin.push.call [r, x] w₃).1 = .ok v ∧
          u.same v = true)) ∧
    ∀ b arguments scope name, (Builtin.call b arguments w).2.named scope name = w.named scope name := by
  intro a n
  have hn : n.toInt = elements.length := toInt_ofNat_of_le_largest (Int.le_of_lt fits)
  refine ⟨⟨hn, Builtin.call_len_array identity elements w⟩, fun i => ⟨fun k v hv hk => ?_, fun hi => ?_⟩,
    ?_, ?_, ?_, fun hne => ?_, ?_, w.named_call⟩
  · rw [Value.index, Value.elementAt_eq_getD hk, hv, Option.getD_some]
  · rw [Value.index, hi.elim Value.elementAt_of_neg Value.elementAt_of_length_le]
  · rw [Value.index, Value.elementAt_zero]
    rfl
  · rw [Value.index, Value.elementAt_length_sub_one (Int.le_of_lt fits)]
    rfl
  · rintro rfl
    rfl
  · have hpos := List.length_pos_iff.2 hne
    exact ⟨_, _, _, Builtin.call_rest_array identity elements w hne, toInt_sub_one (by omega),
      fun w' => by rw [Builtin.call_len_array, Value.ofNat_length_tail hne],
      fun i hlow hhigh => congrArg Except.ok (Value.elementAt_tail hlow hhigh),
      fun i hi => congrArg Except.ok (Value.elementAt_of_neg hi),
      fun f w' hf => Builtin.exists_pushEach_tail_same identity elements w hne hf w'⟩
  · refine ⟨_, _, Builtin.call_push_array identity elements w x, toInt_add_one (hn ▸ fits),
      fun w' => by rw [Builtin.call_len_array, Value.ofNat_length_concat],
      congrArg Except.ok (Value.elementAt_concat_length hn),
      fun i hi => congrArg Except.ok (Value.elementAt_concat_of_ne fun h => ?_),
      fun hne => Builtin.exists_rest_push_same identity elements hne x _⟩
    exact hi (Int64.toInt_inj.1 (h.trans hn.symm))

/-- Of an array with three elements, the last one is that at 2, there is none at the least number, the rest
pushed onto the first element is the array again, and what is pushed stands at 3. -/
theorem three_elements_agree :
    let elements : List Value := [.integer 1, .string "x", .null]
    let a : Value := .array 0 elements
    let w := World.initial .unlimited
    (elements.length : Int) < Int64.maxValue.toInt ∧
      Builtin.last.call [a] w = (Value.index a (.integer 2), w) ∧
      Value.index a (.integer Int64.minValue) = .ok .null ∧
      (∃ j others w₁, Builtin.rest.call [a] w = (.ok (.array j others), w₁) ∧
        ∃ b w₂, Builtin.pushEach others (w₁.newArray [.integer 1]).1 (w₁.newArray [.integer 1]).2 =
          (.ok b, w₂) ∧ b.same a = true) ∧
      ∃ p w₁, Builtin.push.call [a, .boolean true] w = (.ok p, w₁) ∧
        Value.index p (.integer 3) = .ok (.boolean true) := by
  intro elements a w
  have fits : (elements.length : Int) < Int64.maxValue.toInt := by decide
  obtain ⟨-, hindex, -, hlast, -, hrest, ⟨p, w₁, hpush, -, -, hnew, -⟩, -⟩ :=
    array_operations_agree 0 fits (.boolean true) w
  have hplace : Int64.ofNat elements.length - 1 = 2 := by decide
  rw [hplace] at hlast
  refine ⟨fits, hlast, (hindex Int64.minValue).2 (.inl (by decide)), ?_, p, w₁, hpush, hnew⟩
  obtain ⟨j, others, w₁, hothers, -, -, -, -, hagain⟩ := hrest (List.cons_ne_nil _ _)
  exact ⟨j, others, w₁, hothers, hagain (.integer 1) w₁ rfl⟩

end Monkey
