import Formulary.Number.Reading
import Formulary.Proofs.Number.Intervals
import Formulary.Proofs.Number.Spelling

/-!
# Reading the layouts back

Each layout of a decimal can be read back as a decimal of the same value. The
digits of a double lie in its interval, and no other double has that interval,
so the text that identifies a double does identify it (`exact_injective`). The
same goes for constants, but for the sign of a zero (`constant_injective`).
-/

namespace Formulary.Number

open Binary64

/-! ## Digits -/

theorem ofDigits_append (cs ds : List Char) :
    ofDigits (cs ++ ds) = ofDigits cs * power 10 ds.length + ofDigits ds := by
  induction ds using List.reverseRecOn with
  | nil => simp [ofDigits]
  | append_singleton ds d ih =>
      rw [← List.append_assoc, ofDigits_append_singleton, ofDigits_append_singleton, ih,
        List.length_append, List.length_singleton, power_succ]
      ring

theorem ofDigits_zeros (n : Nat) : ofDigits (List.replicate n '0') = 0 := by
  induction n with
  | zero => rfl
  | succ n ih =>
      rw [List.replicate_succ', ofDigits_append_singleton, ih]
      rfl

theorem all_isDigit_zeros (n : Nat) : (List.replicate n '0').all Char.isDigit = true := by
  rw [List.all_eq_true]
  intro c hc
  rw [List.eq_of_mem_replicate hc]
  decide

theorem length_digits (n : Nat) : (digits n).length = digitCount n := by
  fun_induction digits n with
  | case1 n h => rw [digitCount, if_pos h, List.length_singleton]
  | case2 n h ih => rw [digitCount, if_neg h, List.length_append, ih, List.length_singleton]

/-! ## The parts of a text -/

theorem exponentPart?_exponentText (e : Int) : exponentPart? (exponentText e) = some e := by
  have hall : ∀ n : Nat, isDigits (List.replicate n '0' ++ digits e.natAbs) = true := by
    intro n
    rw [isDigits, List.all_append, all_isDigit_zeros, all_isDigit_digits]
    simpa using fun _ => digits_ne_nil e.natAbs
  rw [exponentText, exponentPart?, if_pos (.inl rfl)]
  by_cases he : e < 0
  · rw [if_pos he, integer?, splitSign]
    dsimp only
    rw [hall, if_pos rfl, ofDigits_append, ofDigits_zeros, ofDigits_digits, Nat.zero_mul,
      Nat.zero_add, Option.map_some]
    exact congrArg some (show -(e.natAbs : Int) = e by omega)
  · rw [if_neg he, integer?, splitSign]
    dsimp only
    rw [hall, if_pos rfl, ofDigits_append, ofDigits_zeros, ofDigits_digits, Nat.zero_mul,
      Nat.zero_add, Option.map_some]
    exact congrArg some (show (e.natAbs : Int) = e by omega)

theorem takeWhile_exponentText (e : Int) : (exponentText e).takeWhile Char.isDigit = [] := rfl

variable {whole places rest : List Char} {e : Int}

theorem span_digits (hwhole : whole.all Char.isDigit = true)
    (hrest : rest.takeWhile Char.isDigit = []) :
    (whole ++ rest).takeWhile Char.isDigit = whole ∧
      (whole ++ rest).dropWhile Char.isDigit = rest := by
  have hall : ∀ c ∈ whole, c.isDigit = true := List.all_eq_true.mp hwhole
  have hdrop : rest.dropWhile Char.isDigit = rest := by
    have hsplit := List.takeWhile_append_dropWhile (p := Char.isDigit) (l := rest)
    rwa [hrest, List.nil_append] at hsplit
  rw [List.takeWhile_append_of_pos hall, List.dropWhile_append_of_pos hall, hrest, hdrop,
    List.append_nil]
  exact ⟨rfl, rfl⟩

/-- A text with a point. -/
theorem decimal?_of_point (hwhole : whole.all Char.isDigit = true) (hne : whole ≠ [])
    (hplaces : places.all Char.isDigit = true) (hrest : rest.takeWhile Char.isDigit = [])
    (he : exponentPart? rest = some e) :
    decimal? (whole ++ '.' :: (places ++ rest)) =
      some ⟨ofDigits (whole ++ places), e - places.length⟩ := by
  have hpoint : ('.' :: (places ++ rest)).takeWhile Char.isDigit = [] := rfl
  obtain ⟨htake, hdrop⟩ := span_digits hwhole hpoint
  obtain ⟨htake', hdrop'⟩ := span_digits hplaces hrest
  simp only [decimal?, htake, hdrop, htake', hdrop', he]
  rw [if_neg (by simp [hne])]
  rfl

/-- A text of a single digit and an exponent. -/
theorem decimal?_of_exponent (hwhole : whole.all Char.isDigit = true) (hne : whole ≠ []) (e : Int) :
    decimal? (whole ++ exponentText e) = some ⟨ofDigits whole, e⟩ := by
  obtain ⟨htake, hdrop⟩ := span_digits hwhole (takeWhile_exponentText e)
  obtain ⟨cs, hcs⟩ : ∃ cs, exponentText e = 'e' :: cs := ⟨_, rfl⟩
  have hexponent := exponentPart?_exponentText e
  rw [hcs] at htake hdrop hexponent ⊢
  simp only [decimal?, htake, hdrop]
  rw [if_neg (by simp [hne])]
  show (exponentPart? ('e' :: cs)).map (fun k => Decimal.mk (ofDigits (whole ++ [])) (k - 0)) = _
  rw [hexponent, List.append_nil, Option.map_some, Int.sub_zero]

/-! ## Layouts -/

theorem value_eq (s n : Nat) (e : Int) :
    (Decimal.mk (s * power 10 n) (e - n)).value = (Decimal.mk s e).value := by
  have hpower : ((power 10 n : Nat) : ℚ) = 10 ^ (n : ℤ) := by
    rw [zpow_natCast, power]
    exact Nat.cast_pow 10 n
  have hsum : (n : ℤ) + (e - n) = e := by omega
  rw [Decimal.value, Decimal.value]
  dsimp only
  rw [Nat.cast_mul, hpower, mul_assoc, ← zpow_add₀ (by norm_num), hsum]

/-- A decimal that is a whole number reads back: zeros are appended, and one more behind the
point. -/
theorem decimal?_positional_of_nonneg {d : Decimal} (he : 0 ≤ d.exponent) :
    ∃ d', decimal? d.positional = some d' ∧ d'.value = d.value := by
  have hwhole : (digits d.significand ++ List.replicate d.exponent.toNat '0').all
      Char.isDigit = true := by
    rw [List.all_append, all_isDigit_digits, all_isDigit_zeros, Bool.and_self]
  have hne : digits d.significand ++ List.replicate d.exponent.toNat '0' ≠ [] :=
    List.append_ne_nil_of_left_ne_nil (digits_ne_nil _) _
  have hread := @decimal?_of_point _ ['0'] [] _ hwhole hne (by decide) rfl rfl
  have hsignificand : ofDigits (digits d.significand ++ List.replicate d.exponent.toNat '0' ++
      ['0']) = d.significand * power 10 (d.exponent.toNat + 1) := by
    rw [ofDigits_append_singleton, ofDigits_append, ofDigits_zeros, ofDigits_digits,
      List.length_replicate, power_succ]
    show 10 * (d.significand * power 10 d.exponent.toNat + 0) + 0 = _
    ring
  have hexponent : (0 : Int) - (['0'] : List Char).length =
      d.exponent - (d.exponent.toNat + 1 : Nat) := by
    rw [List.length_singleton]
    omega
  rw [Decimal.positional]
  dsimp only
  rw [if_pos he]
  refine ⟨_, hread, ?_⟩
  rw [hsignificand, hexponent, value_eq]

/-- A decimal with places behind the point reads back: zeros are put in front, and the places are
cut off the end. -/
theorem decimal?_positional_of_neg {d : Decimal} (he : ¬ 0 ≤ d.exponent) :
    ∃ d', decimal? d.positional = some d' ∧ d'.value = d.value := by
  rw [Decimal.positional]
  dsimp only
  rw [if_neg he]
  generalize hpadded : List.replicate
    ((-d.exponent).toNat + 1 - (digits d.significand).length) '0' ++ digits d.significand = padded
  have hall : padded.all Char.isDigit = true := by
    rw [← hpadded, List.all_append, all_isDigit_digits, all_isDigit_zeros, Bool.and_self]
  have hlength : (-d.exponent).toNat < padded.length := by
    rw [← hpadded, List.length_append, List.length_replicate]
    omega
  have hwhole : (padded.take (padded.length - (-d.exponent).toNat)).all Char.isDigit = true :=
    List.all_eq_true.mpr fun c hc => List.all_eq_true.mp hall c (List.mem_of_mem_take hc)
  have hplaces : (padded.drop (padded.length - (-d.exponent).toNat)).all Char.isDigit = true :=
    List.all_eq_true.mpr fun c hc => List.all_eq_true.mp hall c (List.mem_of_mem_drop hc)
  have hne : padded.take (padded.length - (-d.exponent).toNat) ≠ [] := by
    rw [ne_eq, List.take_eq_nil_iff]
    rintro (h | rfl)
    · omega
    · exact absurd hlength (Nat.not_lt_zero _)
  have hread := @decimal?_of_point _ _ [] _ hwhole hne hplaces rfl rfl
  rw [List.append_nil] at hread
  refine ⟨_, hread, ?_⟩
  have hexponent : (0 : Int) - (padded.drop (padded.length - (-d.exponent).toNat)).length =
      d.exponent := by
    rw [List.length_drop]
    omega
  rw [List.take_append_drop, hexponent, ← hpadded, ofDigits_append, ofDigits_zeros,
    ofDigits_digits, Nat.zero_mul, Nat.zero_add]

/-- A decimal without exponent reads back. -/
theorem decimal?_positional (d : Decimal) :
    ∃ d', decimal? d.positional = some d' ∧ d'.value = d.value := by
  by_cases he : 0 ≤ d.exponent
  · exact decimal?_positional_of_nonneg he
  · exact decimal?_positional_of_neg he

/-- A decimal with an exponent reads back. -/
theorem decimal?_scientific (d : Decimal) :
    ∃ d', decimal? (d.pointed ++ exponentText d.lead) = some d' ∧ d'.value = d.value := by
  have hdigits := all_isDigit_digits d.significand
  have hcount := length_digits d.significand
  have hsignificand := ofDigits_digits d.significand
  rw [Decimal.lead, ← hcount, Decimal.pointed]
  cases hds : digits d.significand with
  | nil => exact absurd hds (digits_ne_nil _)
  | cons c cs =>
      rw [hds] at hdigits hsignificand
      cases cs with
      | nil =>
          refine ⟨_, decimal?_of_exponent hdigits (List.cons_ne_nil c []) _, ?_⟩
          rw [hsignificand]
          simp [Decimal.value]
      | cons c' cs =>
          -- the point stands behind the first digit, so the exponent is that of the last
          rw [List.all_cons, Bool.and_eq_true] at hdigits
          have hfirst : [c].all Char.isDigit = true := by rw [List.all_cons, hdigits.1]; rfl
          refine ⟨_, decimal?_of_point hfirst (List.cons_ne_nil c []) hdigits.2
            (takeWhile_exponentText _) (exponentPart?_exponentText _), ?_⟩
          have hexponent : ((c :: c' :: cs).length : Int) - 1 + d.exponent - (c' :: cs).length =
              d.exponent := by
            simp only [List.length_cons]
            omega
          rw [hexponent, List.singleton_append, hsignificand]

/-! ## Doubles -/

theorem mantissa_eq_zero_iff (x : Float) : (parts x).mantissa = 0 ↔ magnitude x = 0 := by
  have hmagnitude := magnitude_eq x
  obtain ⟨-, -, hfull⟩ := parts_bounds x
  rw [power_two_52] at hmagnitude hfull
  omega

/-- A double without its sign reads back as a decimal of its interval. -/
theorem decimal?_unsignedText (x : Float) :
    ∃ d, decimal? (unsignedText (parts x)) = some d ∧ (magnitude x = 0 → d.inUnits = 0) ∧
      (magnitude x ≠ 0 → Within (magnitude x) d.inUnits) := by
  rw [unsignedText]
  by_cases hzero : magnitude x = 0
  · rw [if_pos ((mantissa_eq_zero_iff x).mpr hzero)]
    have hvalue : (Decimal.mk 0 (-1)).value = 0 := by
      rw [Decimal.value, Nat.cast_zero, zero_mul]
    refine ⟨⟨0, -1⟩, by decide, fun _ => ?_, fun hne => absurd hzero hne⟩
    rw [Decimal.inUnits, hvalue, zero_mul]
  · rw [if_neg (mt (mantissa_eq_zero_iff x).mp hzero)]
    have hwithin := within_fewest hzero
    have hvalue : ∀ {d' : Decimal}, d'.value = (fewest (parts x)).value →
        (magnitude x = 0 → d'.inUnits = 0) ∧
          (magnitude x ≠ 0 → Within (magnitude x) d'.inUnits) := by
      intro d' hd'
      rw [Decimal.inUnits, hd']
      exact ⟨fun h => absurd h hzero, fun _ => hwithin⟩
    dsimp only
    split
    · obtain ⟨d', hread, hd'⟩ := decimal?_positional (fewest (parts x))
      exact ⟨d', hread, hvalue hd'⟩
    · obtain ⟨d', hread, hd'⟩ := decimal?_scientific (fewest (parts x))
      exact ⟨d', hread, hvalue hd'⟩

theorem magnitude_eq_of_unsignedText {x y : Float}
    (h : unsignedText (parts x) = unsignedText (parts y)) : magnitude x = magnitude y := by
  obtain ⟨d, hx, hxzero, hxwithin⟩ := decimal?_unsignedText x
  obtain ⟨d', hy, hyzero, hywithin⟩ := decimal?_unsignedText y
  obtain rfl : d = d' := Option.some.inj (hx.symm.trans (h ▸ hy))
  -- zero is in no interval
  have hpositive : ∀ {k : Nat}, k ≠ 0 → ¬ Within k 0 := by
    intro k hk hwithin
    have hgrows := units_strictMono (Nat.pos_of_ne_zero hk)
    have hunits : (0 : ℚ) < units k := Nat.cast_pos.mpr (Nat.lt_of_le_of_lt (Nat.zero_le _) hgrows)
    have hbelow : (0 : ℚ) ≤ units (k - 1) := Nat.cast_nonneg _
    have hlower := hwithin.lower
    linarith
  by_cases hzero : magnitude x = 0
  · by_cases hzero' : magnitude y = 0
    · rw [hzero, hzero']
    · have hwithin := hywithin hzero'
      rw [hxzero hzero] at hwithin
      exact absurd hwithin (hpositive hzero')
  · by_cases hzero' : magnitude y = 0
    · have hwithin := hxwithin hzero
      rw [hyzero hzero'] at hwithin
      exact absurd hwithin (hpositive hzero)
    · exact eq_of_within (hxwithin hzero) (hywithin hzero')

theorem eq_of_magnitude {x y : Float} (hsign : (parts x).negative = (parts y).negative)
    (h : magnitude x = magnitude y) : x = y := by
  have hbits : x.toBits = y.toBits := by
    rw [← UInt64.toNat_inj, toBits_toNat, toBits_toNat, hsign, h]
  rw [← Float.ofBits_toBits x, hbits, Float.ofBits_toBits]

theorem exact_of_isFinite {x : Float} (h : x.isFinite = true) :
    exact x = if (parts x).negative then '-' :: unsignedText (parts x)
      else unsignedText (parts x) := by
  have hstatus : ∀ u : Float.Model.UnpackedFloat, u.isFinite = true →
      u.isNaN = false ∧ u.isInf = false := by
    intro u hu
    cases u with
    | zero | finite => exact ⟨rfl, rfl⟩
    | infinity | notANumber => cases hu
  obtain ⟨hnan, hinf⟩ : x.isNaN = false ∧ x.isInf = false := hstatus _ h
  have hexact : exact x = written x unsignedText := rfl
  rw [hexact, written, hnan, if_neg Bool.false_ne_true]
  dsimp only
  rw [hinf, if_neg Bool.false_ne_true]

/-- **Identity.** Finite doubles with the same text are the same. -/
theorem exact_injective {x y : Float} (hx : x.isFinite = true) (hy : y.isFinite = true)
    (h : exact x = exact y) : x = y := by
  have hminus : ∀ {u : Float} {cs : List Char}, '-' :: cs ≠ unsignedText (parts u) := by
    intro u cs heq
    obtain ⟨d, hd, -⟩ := decimal?_unsignedText u
    rw [← heq] at hd
    cases hd
  rw [exact_of_isFinite hx, exact_of_isFinite hy] at h
  cases hsign : (parts x).negative with
  | true =>
      cases hsign' : (parts y).negative with
      | true =>
          rw [hsign, hsign', if_pos rfl, if_pos rfl, List.cons.injEq] at h
          exact eq_of_magnitude (hsign.trans hsign'.symm) (magnitude_eq_of_unsignedText h.2)
      | false =>
          rw [hsign, hsign', if_pos rfl, if_neg Bool.false_ne_true] at h
          exact absurd h hminus
  | false =>
      cases hsign' : (parts y).negative with
      | true =>
          rw [hsign, hsign', if_pos rfl, if_neg Bool.false_ne_true] at h
          exact absurd h.symm hminus
      | false =>
          rw [hsign, hsign', if_neg Bool.false_ne_true, if_neg Bool.false_ne_true] at h
          exact eq_of_magnitude (hsign.trans hsign'.symm) (magnitude_eq_of_unsignedText h)

example : exact 1e16 = "1e+16".toList ∧ exact 0.1 = "0.1".toList := by decide +kernel

/-- **Constants.** Finite constants with the same text are the same but for the sign of a zero. -/
theorem constant_injective {x y : Float} (hx : x.isFinite = true) (hy : y.isFinite = true)
    (h : constant x = constant y) : dropZeroSign x = dropZeroSign y := by
  have hexact : ∀ {u : Float}, isIntegral u = false → constant u = exact u := by
    intro u hu
    rw [constant, hu, if_neg Bool.false_ne_true]
  cases hintegral : isIntegral x with
  | true =>
      have hread := literal?_constant_eq hintegral
      cases hintegral' : isIntegral y with
      | true =>
          rw [h, literal?_constant_eq hintegral'] at hread
          exact (Option.some.inj hread).symm
      | false =>
          rw [h, hexact hintegral', literal?_exact] at hread
          cases hread
  | false =>
      cases hintegral' : isIntegral y with
      | true =>
          have hread := literal?_constant_eq hintegral'
          rw [← h, hexact hintegral, literal?_exact] at hread
          cases hread
      | false =>
          rw [hexact hintegral, hexact hintegral'] at h
          rw [exact_injective hx hy h]

example : constant (-0.0) = constant 0.0 := by decide +kernel

end Formulary.Number
