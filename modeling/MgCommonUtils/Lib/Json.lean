import MgCommonUtils.Lib.CString

/-!
# JSON texts of arrays and numbers

The part of JSON that has arrays and natural numbers, without blanks: values, their texts, and a
parser. A number has no leading zeros. The parser inverts the text of every value
(`Json.parse_render`).
-/

namespace MgCommonUtils.Lib

/-- A JSON value. -/
inductive Json where
  /-- A natural number. -/
  | num (n : ℕ)
  /-- An array. -/
  | arr (es : List Json)

namespace Json

mutual

/-- The text of a value. -/
def render : Json → Bytes
  | num n => decimal n
  | arr es => 91 :: renderAll es

/-- The text of the elements of an array, with the bracket behind them. -/
def renderAll : List Json → Bytes
  | [] => [93]
  | e :: es => render e ++ renderRest es

/-- The text of the elements behind the first one. -/
def renderRest : List Json → Bytes
  | [] => [93]
  | e :: es => 44 :: (render e ++ renderRest es)

end

/-! ## The parser -/

/-- A number at the front of the bytes, and what follows it. -/
def parseNum (s : Bytes) : Option (Json × Bytes) :=
  let digits := s.takeWhile isdigit
  if digits = [] ∨ (digits.head? = some 48 ∧ digits ≠ [48]) then none
  else some (num (digitsValue 0 digits), s.dropWhile isdigit)

mutual

/-- A value at the front of the bytes, and what follows it. -/
def parseValue : ℕ → Bytes → Option (Json × Bytes)
  | 0, _ => none
  | fuel + 1, s =>
    match s with
    | 91 :: 93 :: t => some (arr [], t)
    | 91 :: t => do
      let (e, t) ← parseValue fuel t
      let (es, t) ← parseRest fuel t
      return (arr (e :: es), t)
    | s => parseNum s

/-- The elements behind the first one, with the bracket behind them. -/
def parseRest : ℕ → Bytes → Option (List Json × Bytes)
  | 0, _ => none
  | fuel + 1, s =>
    match s with
    | 93 :: t => some ([], t)
    | 44 :: t => do
      let (e, t) ← parseValue fuel t
      let (es, t) ← parseRest fuel t
      return (e :: es, t)
    | _ => none

end

/-- The value of a text. -/
def parse (s : Bytes) : Option Json :=
  match parseValue s.length s with
  | some (v, []) => some v
  | _ => none

/-! ## The parser inverts the text -/

/-- A numeral of two digits or more starts as it does without its last digit. -/
theorem head_decimal {n : ℕ} (h : 10 ≤ n) : (decimal n).head? = (decimal (n / 10)).head? := by
  rw [decimal, Nat.toDigits_of_base_le (by norm_num) h, List.map_append, ← decimal,
    List.head?_append_of_ne_nil _ (decimal_ne_nil _)]

/-- A numeral that starts with a zero is that of zero. -/
theorem eq_zero_of_head_decimal {n : ℕ} (h : (decimal n).head? = some 48) : n = 0 := by
  induction n using Nat.strong_induction_on with
  | _ n ih =>
    obtain hn | hn := Nat.lt_or_ge n 10
    · interval_cases n
      · rfl
      all_goals exact absurd h (by decide)
    · -- its front starts with a zero as well, but is not that of zero
      have hfront : n / 10 = 0 := ih (n / 10) (by omega) (head_decimal hn ▸ h)
      omega

/-- A numeral is read back when no digit follows. -/
theorem parseNum_decimal (n : ℕ) {t : Bytes} (ht : ∀ b ∈ t.head?, ¬isdigit b) :
    parseNum (decimal n ++ t) = some (num n, t) := by
  have hdigits : ∀ b ∈ decimal n, isdigit b := fun _ => isdigit_of_mem_decimal
  unfold parseNum
  rw [takeWhile_append_of_head hdigits ht, dropWhile_append_of_head hdigits ht]
  dsimp only
  have hcanonical : ¬(decimal n = [] ∨ (decimal n).head? = some 48 ∧ decimal n ≠ [48]) := by
    rintro (hnil | ⟨hzero, hlong⟩)
    · exact decimal_ne_nil n hnil
    · rw [eq_zero_of_head_decimal hzero] at hlong
      exact hlong rfl
  rw [if_neg hcanonical, digitsValue_decimal]

/-- A value's text starts with a digit or a bracket that opens. -/
theorem exists_render_eq_cons (v : Json) : ∃ b u, render v = b :: u ∧ b ≠ 93 := by
  cases v with
  | num n =>
    obtain ⟨b, u, hbu⟩ := List.exists_cons_of_ne_nil (decimal_ne_nil n)
    have hb := (isdigit_iff b).mp (isdigit_of_mem_decimal (n := n) (by simp [hbu]))
    refine ⟨b, u, by rw [render, hbu], ?_⟩
    rintro rfl
    simp at hb
  | arr es => exact ⟨91, renderAll es, by rw [render], by decide⟩

/-- Behind an element there is no digit. -/
theorem not_isdigit_head_renderRest (es : List Json) (t : Bytes) :
    ∀ b ∈ (renderRest es ++ t).head?, ¬isdigit b := by
  cases es with
  | nil =>
    rw [renderRest]
    rintro b ⟨⟩
    decide
  | cons e es =>
    rw [renderRest]
    rintro b ⟨⟩
    decide

/-- Where a number starts, the parser reads a number. -/
theorem parseValue_of_isdigit {b : UInt8} (hb : isdigit b) (u : Bytes) (fuel : ℕ) :
    parseValue (fuel + 1) (b :: u) = parseNum (b :: u) := by
  have h91 : b ≠ 91 := by
    rintro rfl
    exact absurd hb (by decide)
  unfold parseValue
  split
  · rename_i heq
    exact absurd (List.cons.inj heq).1 h91
  · rename_i heq
    exact absurd (List.cons.inj heq).1 h91
  · rfl

/-- Where an array with an element starts, the parser reads the element and the rest. -/
theorem parseValue_arr {b : UInt8} (hb : b ≠ 93) (u : Bytes) (fuel : ℕ) :
    parseValue (fuel + 1) (91 :: b :: u) = (do
      let (e, t) ← parseValue fuel (b :: u)
      let (es, t) ← parseRest fuel t
      return (arr (e :: es), t)) := by
  rw [parseValue]
  rintro t heq
  exact hb (List.cons.inj heq).1

mutual

/-- A value is read back from the front of the bytes. -/
theorem parseValue_render (v : Json) {t : Bytes} {fuel : ℕ} (ht : ∀ b ∈ t.head?, ¬isdigit b)
    (hfuel : (render v).length ≤ fuel) : parseValue fuel (render v ++ t) = some (v, t) := by
  match v with
  | num n =>
    obtain ⟨b, u, hbu⟩ := List.exists_cons_of_ne_nil (decimal_ne_nil n)
    have hb : isdigit b := isdigit_of_mem_decimal (n := n) (by simp [hbu])
    rw [render] at hfuel ⊢
    obtain ⟨fuel, rfl⟩ : ∃ m, fuel = m + 1 := ⟨fuel - 1, by rw [hbu] at hfuel; simp at hfuel; omega⟩
    rw [← parseNum_decimal n ht, hbu]
    exact parseValue_of_isdigit hb _ fuel
  | arr [] =>
    rw [render, renderAll] at hfuel ⊢
    obtain ⟨fuel, rfl⟩ : ∃ m, fuel = m + 1 := ⟨fuel - 1, by simp at hfuel; omega⟩
    rfl
  | arr (e :: es) =>
    obtain ⟨b, u, hbu, hb⟩ := exists_render_eq_cons e
    rw [render, renderAll, List.length_cons, List.length_append] at hfuel
    obtain ⟨fuel, rfl⟩ : ∃ m, fuel = m + 1 := ⟨fuel - 1, by omega⟩
    have he := parseValue_render e (not_isdigit_head_renderRest es t)
      (show (render e).length ≤ fuel by omega)
    have hes := parseRest_render es t (show (renderRest es).length ≤ fuel by omega)
    rw [render, renderAll, List.cons_append, List.append_assoc]
    rw [hbu, List.cons_append] at he ⊢
    rw [parseValue_arr hb, he]
    dsimp only [bind, Option.bind]
    rw [hes]
    rfl

/-- The elements behind the first one are read back. -/
theorem parseRest_render (es : List Json) (t : Bytes) {fuel : ℕ}
    (hfuel : (renderRest es).length ≤ fuel) :
    parseRest fuel (renderRest es ++ t) = some (es, t) := by
  match es with
  | [] =>
    rw [renderRest] at hfuel ⊢
    obtain ⟨fuel, rfl⟩ : ∃ m, fuel = m + 1 := ⟨fuel - 1, by simp at hfuel; omega⟩
    rfl
  | e :: es =>
    rw [renderRest, List.length_cons, List.length_append] at hfuel
    obtain ⟨fuel, rfl⟩ : ∃ m, fuel = m + 1 := ⟨fuel - 1, by omega⟩
    have he := parseValue_render e (not_isdigit_head_renderRest es t)
      (show (render e).length ≤ fuel by omega)
    have hes := parseRest_render es t (show (renderRest es).length ≤ fuel by omega)
    rw [renderRest, List.cons_append, List.append_assoc, parseRest, he]
    dsimp only [bind, Option.bind]
    rw [hes]
    rfl

end

/-- The parser inverts the text of every value. -/
theorem parse_render (v : Json) : parse (render v) = some v := by
  have hvalue := parseValue_render v (t := []) (by simp) (le_refl (render v).length)
  rw [List.append_nil] at hvalue
  rw [parse, hvalue]

end Json

end MgCommonUtils.Lib
