import Pddl.Proofs.Number.Rounding
import Pddl.Proofs.Number.Spelling
import Pddl.Proofs.Number.Unfinished

namespace Pddl.Number

open Text

theorem unitsLimit_le_pow {k : Nat} (hk : 311 ≤ k) : unitsLimit ≤ 10 ^ k * unitsPerOne := by
  induction k, hk using Nat.le_induction with
  | base => decide +kernel
  | succ k _ ih =>
    have hpow : 10 ^ k ≤ 10 ^ (k + 1) := Nat.pow_le_pow_right (by omega) (by omega)
    exact Nat.le_trans ih (Nat.mul_le_mul_right unitsPerOne hpow)

theorem mul_two_pow_lt {c p k : Nat} (h : c.log2 + p < k) :
    2 * (c * 2 ^ p) < 10 ^ (k + 1) := by
  calc 2 * (c * 2 ^ p) = c * 2 ^ (p + 1) := by
        rw [Nat.pow_succ, Nat.mul_comm 2, Nat.mul_assoc]
    _ < 2 ^ (c.log2 + 1) * 2 ^ (p + 1) :=
      Nat.mul_lt_mul_of_pos_right Nat.lt_log2_self (Nat.two_pow_pos _)
    _ = 2 ^ (c.log2 + 1 + (p + 1)) := (Nat.pow_add ..).symm
    _ ≤ 2 ^ (k + 1) := Nat.pow_le_pow_right (by omega) (by omega)
    _ ≤ 10 ^ (k + 1) := Nat.pow_le_pow_left (by omega) _

theorem unitsPerOne_eq : unitsPerOne = 2 ^ 1074 := by decide +kernel

/-- The exponents that are settled without a computation have the result that it would give. -/
theorem ofDecimal_eq_ofUnits (negative : Bool) (c : Nat) {e : Int} {j k : Nat}
    (he : e = (k : Int) - j) :
    ofDecimal negative c e = ofUnits negative (c * 10 ^ k * unitsPerOne) (10 ^ j) := by
  have hpos : ∀ n, 0 < 10 ^ n := fun n => Nat.pow_pos (by omega)
  unfold ofDecimal
  split
  · rename_i hc
    rw [hc, Nat.zero_mul, Nat.zero_mul, ofUnits_of_lt negative (by rw [Nat.mul_zero]; exact hpos j)]
  · rename_i hc
    split
    · rename_i n
      -- no fraction is left; a large exponent is settled as infinity
      obtain rfl : k = n + j := by
        rw [Int.ofNat_eq_natCast] at he
        omega
      have hscale := ofUnits_mul_mul (hpos j) negative (c * 10 ^ n * unitsPerOne) 1
      rw [Nat.one_mul] at hscale
      rw [Nat.pow_add, ← Nat.mul_assoc c, Nat.mul_right_comm _ (10 ^ j), hscale]
      split
      · rename_i hn
        rw [ofUnits_of_limit_le]
        rw [Nat.div_one, Nat.mul_assoc]
        exact Nat.le_trans (unitsLimit_le_pow hn) (Nat.le_mul_of_pos_left _ (by omega))
      · rfl
    · rename_i n
      -- a fraction is left; a small exponent is settled as zero
      obtain rfl : j = n + 1 + k := by omega
      have hscale := ofUnits_mul_mul (hpos k) negative (c * unitsPerOne) (10 ^ (n + 1))
      rw [Nat.pow_add, Nat.mul_right_comm c, hscale]
      split
      · rename_i hn
        have hlt : 2 * (c * unitsPerOne) < 10 ^ (n + 1) := by
          rw [unitsPerOne_eq]
          exact mul_two_pow_lt (p := 1074) (by omega)
        rw [ofUnits_of_lt negative hlt]
      · rfl

theorem ofDecimal_mul_ten (negative : Bool) (c : Nat) (e : Int) :
    ofDecimal negative (c * 10) e = ofDecimal negative c (e + 1) := by
  have hleft : e = ((e + (-e).toNat).toNat : Int) - (-e).toNat := by omega
  have hright : e + 1 = ((e + (-e).toNat).toNat + 1 : Nat) - ((-e).toNat : Int) := by omega
  rw [ofDecimal_eq_ofUnits negative _ hleft, ofDecimal_eq_ofUnits negative _ hright, Nat.pow_succ,
    Nat.mul_assoc c, Nat.mul_comm 10]

theorem ofDecimal_mul_pow (negative : Bool) (c k : Nat) :
    ofDecimal negative (c * 10 ^ k) 0 = ofDecimal negative c k := by
  rw [ofDecimal_eq_ofUnits (j := 0) (k := 0) negative _ (by simp),
    ofDecimal_eq_ofUnits (j := 0) (k := k) negative _ (by simp), Nat.pow_zero, Nat.mul_one]

theorem ofDecimal_trim (negative : Bool) (fuel : Nat) (d : Decimal) :
    ofDecimal negative (d.trim fuel).coefficient (d.trim fuel).exponent =
      ofDecimal negative d.coefficient d.exponent := by
  induction fuel generalizing d with
  | zero => rfl
  | succ fuel ih =>
    unfold Decimal.trim
    split
    · rename_i hzero
      simp only [Bool.and_eq_true, decide_eq_true_eq] at hzero
      rw [ih, ← ofDecimal_mul_ten, Nat.div_mul_cancel (Nat.dvd_of_mod_eq_zero hzero.2)]
    · rfl

theorem representable_of_ofDecimal {negative s : Bool} {c units : Nat} {e : Int}
    (h : ofDecimal negative c e = .finite s units) :
    negative = s ∧ Representable units ∧ units < unitsLimit := by
  have he : e = (e.toNat : Int) - (-e).toNat := by omega
  rw [ofDecimal_eq_ofUnits negative c he, ofUnits_eq_finite] at h
  obtain ⟨hs, rfl, hlimit⟩ := h
  exact ⟨hs, representable_roundUnits _ _, hlimit⟩

theorem ofDecimal_eq_finite_iff {negative : Bool} {c units : Nat} {e : Int} :
    ofDecimal negative c e = .finite negative units ↔ ofDecimal false c e = .finite false units := by
  have he : e = (e.toNat : Int) - (-e).toNat := by omega
  simp only [ofDecimal_eq_ofUnits _ c he, ofUnits_eq_finite, true_and]

variable {units : Nat}

theorem ofUnits_allDigits (h : Representable units) (hlimit : units < unitsLimit) (n : Nat) :
    ofUnits false (units * Nat.pow 5 n * 10 ^ 0 * 2 ^ n) (10 ^ n) = .finite false units := by
  have hvalue : units * Nat.pow 5 n * 10 ^ 0 * 2 ^ n = units * 10 ^ n := by
    rw [Nat.pow_eq, Nat.pow_zero, Nat.mul_one, Nat.mul_assoc, ← Nat.mul_pow]
  rw [hvalue]
  exact ofUnits_mul_self false h hlimit (Nat.pow_pos (by omega))

theorem readsAs_allDigits (h : Representable units) (hlimit : units < unitsLimit) :
    (allDigits units).readsAs units = true := by
  rw [Decimal.readsAs, decide_eq_true_eq, allDigits,
    ofDecimal_eq_ofUnits (j := 1074) (k := 0) false _ (by simp), unitsPerOne_eq]
  generalize 1074 = n
  exact ofUnits_allDigits h hlimit n

theorem readsAs_of_first {a b d : Decimal}
    (h : (if a.readsAs units then some a else if b.readsAs units then some b else none) = some d) :
    d.readsAs units = true := by
  split at h
  · rename_i hreads
    exact Option.some.inj h ▸ hreads
  · split at h
    · rename_i hreads
      exact Option.some.inj h ▸ hreads
    · simp at h

theorem readsAs_of_nearestOnGrid {e : Int} {d : Decimal} (h : nearestOnGrid units e = some d) :
    d.readsAs units = true :=
  readsAs_of_first h

/-- The digits that are written are read as the number. -/
theorem readsAs_shortest (h : Representable units) (hlimit : units < unitsLimit) :
    (shortest units).readsAs units = true := by
  unfold shortest
  dsimp only
  split
  · rename_i d hd
    obtain ⟨n, -, hn⟩ := List.exists_of_findSome?_eq_some hd
    exact readsAs_of_nearestOnGrid hn
  · exact readsAs_allDigits h hlimit

def signChars (negative : Bool) : List Char := if negative then ['-'] else []

theorem ofDigitChars_append_padded (q : Nat) {width r : Nat} (hr : r < 10 ^ width)
    (hwidth : 0 < width) :
    (padded width r).length = width ∧
      Nat.ofDigitChars 10 (Nat.toDigits 10 q ++ padded width r) 0 = q * 10 ^ width + r := by
  have hle : (Nat.toDigits 10 r).length ≤ width := (Nat.length_toDigits_le_iff (by omega) hwidth).2 hr
  have hlength : (padded width r).length = width := by
    simp [padded, Nat.sub_add_cancel hle]
  refine ⟨hlength, ?_⟩
  rw [Nat.ofDigitChars_append, Nat.ofDigitChars_ten_toDigits, Nat.ofDigitChars_eq_ofDigitChars_zero,
    hlength, padded, Nat.ofDigitChars_append, Nat.ofDigitChars_replicate_zero, Nat.mul_zero,
    Nat.ofDigitChars_ten_toDigits, Nat.mul_comm]

theorem ofChars?_of_mantissa {cs whole fraction : List Char} (negative : Bool)
    (hsign : Stops (fun c => c = '+' || c = '-') cs)
    (h : takeMantissa cs = some (whole, fraction, [])) :
    ofChars? (signChars negative ++ cs) =
      some (ofDecimal negative (Nat.ofDigitChars 10 (whole ++ fraction) 0) (-fraction.length)) := by
  have htake : takeSign (signChars negative ++ cs) = (negative, cs) := by
    cases negative with
    | true => rfl
    | false =>
      have hminus : ∀ tail, cs ≠ '-' :: tail := by
        rintro tail rfl
        exact absurd (hsign '-' rfl) (by decide)
      have hplus : ∀ tail, cs ≠ '+' :: tail := by
        rintro tail rfl
        exact absurd (hsign '+' rfl) (by decide)
      unfold takeSign
      split <;> simp_all [signChars]
  simp [ofChars?, leading, htake, h, takeExponent]

theorem ofChars?_whole (negative : Bool) {whole : List Char} (hne : whole ≠ [])
    (hdigits : ∀ c ∈ whole, c.isDigit = true) :
    ofChars? (signChars negative ++ whole) =
      some (ofDecimal negative (Nat.ofDigitChars 10 whole 0) 0) := by
  have hmantissa : IsMantissa whole := ⟨whole, [], by simpa, by simpa, Or.inr ⟨rfl, rfl⟩⟩
  have hrun := takeDigits_run (stops_nil _) hdigits
  rw [List.append_nil] at hrun
  have htake := takeMantissa_of_stops hrun (stops_nil _)
  rw [if_neg hne] at htake
  have hsign := hmantissa.stops_sign []
  rw [List.append_nil] at hsign
  simpa using ofChars?_of_mantissa negative hsign htake

theorem ofChars?_point (negative : Bool) {whole fraction : List Char} (hne : whole ≠ [])
    (hwhole : ∀ c ∈ whole, c.isDigit = true) (hfraction : ∀ c ∈ fraction, c.isDigit = true) :
    ofChars? (signChars negative ++ (whole ++ '.' :: fraction)) =
      some (ofDecimal negative (Nat.ofDigitChars 10 (whole ++ fraction) 0) (-fraction.length)) := by
  have hne' : whole ++ fraction ≠ [] := by simp [hne]
  have hmantissa : IsMantissa (whole ++ '.' :: fraction) :=
    ⟨whole, fraction, List.forall_mem_append.2 ⟨hwhole, hfraction⟩, hne', Or.inl rfl⟩
  have hrun := takeDigits_run (stops_nil _) hfraction
  rw [List.append_nil] at hrun
  have htake := takeMantissa_of_point (takeDigits_run (stops_cons (by decide) fraction) hwhole)
  rw [hrun, if_neg hne'] at htake
  have hsign := hmantissa.stops_sign []
  rw [List.append_nil] at hsign
  exact ofChars?_of_mantissa negative hsign htake

theorem ofChars?_chars (negative : Bool) (d : Decimal) :
    ofChars? (signChars negative ++ d.chars) =
      some (ofDecimal negative d.coefficient d.exponent) := by
  have hdigits : ∀ n, ∀ c ∈ Nat.toDigits 10 n, c.isDigit = true := fun _ _ =>
    isDigit_of_mem_toDigits
  obtain ⟨c, e⟩ := d
  cases e with
  | ofNat k =>
    have hread := ofChars?_whole negative Nat.toDigits_ne_nil (hdigits (c * 10 ^ k))
    rw [Nat.ofDigitChars_ten_toDigits, ofDecimal_mul_pow] at hread
    exact hread
  | negSucc k =>
    have hlt : c % 10 ^ (k + 1) < 10 ^ (k + 1) := Nat.mod_lt _ (Nat.pow_pos (by omega))
    obtain ⟨hlength, hvalue⟩ := ofDigitChars_append_padded (c / 10 ^ (k + 1)) hlt k.succ_pos
    have hfraction : ∀ x ∈ padded (k + 1) (c % 10 ^ (k + 1)), x.isDigit = true := fun _ =>
      isDigit_of_mem_padded
    have hread := ofChars?_point negative Nat.toDigits_ne_nil (hdigits (c / 10 ^ (k + 1))) hfraction
    rw [hvalue, hlength, Nat.div_add_mod'] at hread
    exact hread

/-- Zero is written with one digit and any other magnitude with its shortest decimal. -/
theorem ofChars?_finite (negative : Bool) (h : Representable units) (hlimit : units < unitsLimit) :
    ofChars? (Number.finite negative units).toChars = some (.finite negative units) := by
  have hchars : (Number.finite negative units).toChars = signChars negative ++ magnitudeChars units := by
    cases negative <;> rfl
  by_cases hzero : units = 0
  · subst hzero
    exact ofChars?_zero negative
  · have hreads := readsAs_shortest h hlimit
    rw [Decimal.readsAs, decide_eq_true_eq] at hreads
    rw [hchars, magnitudeChars, if_neg hzero, ofChars?_chars, ofDecimal_trim,
      ofDecimal_eq_finite_iff.2 hreads]

/-- The numbers that texts are read as. -/
def IsValue : Number → Prop
  | .nan => True
  | .infinite _ => True
  | .finite _ units => Representable units ∧ units < unitsLimit

theorem isValue_ofDecimal (negative : Bool) (c : Nat) (e : Int) :
    (ofDecimal negative c e).IsValue := by
  cases h : ofDecimal negative c e with
  | nan => trivial
  | infinite s => trivial
  | finite s units => exact (representable_of_ofDecimal h).2

theorem isValue_of_ofChars? {cs : List Char} {v : Number} (h : ofChars? cs = some v) : v.IsValue := by
  unfold ofChars? at h
  split at h
  · rename_i value hleading
    obtain rfl := Option.some.inj h
    unfold leading at hleading
    dsimp only at hleading
    split at hleading
    · split at hleading
      · simp at hleading
      · rw [Leading.present.injEq] at hleading
        exact hleading.1 ▸ isValue_ofDecimal _ _ _
    · split at hleading
      · rw [Leading.present.injEq] at hleading
        exact hleading.1 ▸ trivial
      · split at hleading
        · rw [Leading.present.injEq] at hleading
          exact hleading.1 ▸ trivial
        · simp at hleading
  · simp at h

/-- Of the numbers that texts are read as, negative infinity alone is not read from its own. -/
theorem ofChars?_word_of_isValue {v : Number} (h : v.IsValue) :
    ofChars? v.word.toList = if v = .infinite true then none else some v := by
  cases v with
  | nan => rfl
  | infinite negative => cases negative <;> rfl
  | finite negative units =>
    rw [word_finite, Number.toString, String.toList_ofList, if_neg (by simp)]
    exact ofChars?_finite negative h.1 h.2

theorem prepare_toString (n : Number) : prepare n.toString = n.word := by
  have hlast : n.toChars.getLast? ≠ some '\n' := by
    intro hlast
    exact absurd (n.rawWord_toChars.isWordChar _ (List.mem_of_getLast? hlast)) (by decide)
  rw [prepare, Number.toString, String.toList_ofList,
    prepareChars_eq_flatMap (fun _ => n.rawWord_toChars.unbound) hlast, word, spelled]

end Pddl.Number
