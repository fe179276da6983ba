import Formulary.Proofs.Number.Nearest
import Formulary.Proofs.Number.Predecessor
import Formulary.Proofs.Reading.Roundtrip

/-!
# Literals and the texts of constants

An integer can be spelled in many ways, with a sign or without and with leading
zeros, and each of them reads as the double nearest to it. The text of that
double is a literal again, of the integer that the double is, and reading it
changes nothing any more (`literals_and_constants`).
-/

namespace Formulary.Number

open Binary64

/-! ## How integers are spelled -/

/-- Digits, and at least one of them. -/
def IsNumeral (ds : List Char) : Prop := ds ≠ [] ∧ ∀ c ∈ ds, c.isDigit = true

/-- The number that digits stand for, in positional notation. -/
def numeral (ds : List Char) : Nat :=
  Nat.ofDigits 10 (ds.reverse.map fun c => c.toNat - '0'.toNat)

/-- A spelling of an integer: digits, with or without a sign in front of them. -/
inductive Spells : List Char → Int → Prop
  | plain {ds : List Char} : IsNumeral ds → Spells ds (numeral ds)
  | plus {ds : List Char} : IsNumeral ds → Spells ('+' :: ds) (numeral ds)
  | minus {ds : List Char} : IsNumeral ds → Spells ('-' :: ds) (-(numeral ds : Int))

theorem numeral_eq (ds : List Char) : numeral ds = ofDigits ds := by
  induction ds using List.reverseRecOn with
  | nil => rfl
  | append_singleton ds c ih =>
      rw [ofDigits_append_singleton, ← ih, numeral, numeral, List.reverse_concat, List.map_cons,
        Nat.ofDigits_cons, Nat.add_comm]
      rfl

theorem isDigits_iff (ds : List Char) : isDigits ds = true ↔ IsNumeral ds := by
  rw [isDigits, IsNumeral, Bool.and_eq_true, List.all_eq_true]
  simp

theorem splitSign_of_isNumeral {ds : List Char} (h : IsNumeral ds) :
    splitSign ds = (false, ds) := by
  cases ds with
  | nil => exact absurd rfl h.1
  | cons c cs => exact splitSign_of_isDigit (h.2 c List.mem_cons_self) cs

theorem isNumeral_digits (n : Nat) : IsNumeral (digits n) :=
  (isDigits_iff _).mp (isDigits_digits n)

variable {word : List Char} {n : Int}

/-- The sign of an integer; zero has both. -/
def HasSign (n : Int) (negative : Bool) : Prop :=
  (if negative then -(n.natAbs : Int) else n.natAbs) = n

theorem HasSign.cast {negative : Bool} (h : HasSign n negative) :
    (if negative then -(n.natAbs : ℚ) else n.natAbs) = n := by
  rw [← h]
  cases negative <;> simp

/-- A spelling is read as the sign that it has and the absolute value. -/
theorem Spells.integer? (h : Spells word n) :
    ∃ negative, Number.integer? word = some (negative, n.natAbs) ∧ HasSign n negative := by
  cases h with
  | plain hds =>
      refine ⟨false, ?_, rfl⟩
      rw [Number.integer?, splitSign_of_isNumeral hds]
      simp [(isDigits_iff word).mpr hds, numeral_eq]
  | @plus ds hds =>
      refine ⟨false, ?_, rfl⟩
      simp [Number.integer?, splitSign, (isDigits_iff ds).mpr hds, numeral_eq]
  | @minus ds hds =>
      refine ⟨true, ?_, by simp [HasSign]⟩
      simp [Number.integer?, splitSign, (isDigits_iff ds).mpr hds, numeral_eq]

theorem Spells.literal? (h : Spells word n) :
    ∃ negative, Number.literal? word = some (ofRatio negative n.natAbs 1) ∧
      HasSign n negative := by
  obtain ⟨negative, hinteger, hn⟩ := h.integer?
  exact ⟨negative, by rw [Number.literal?, hinteger, Option.map_some], hn⟩

example : Number.literal? "-000".toList = some (-0.0) := by decide +kernel

theorem Spells.isWord (h : Spells word n) : IsWord word := by
  have hdigits : ∀ {ds : List Char}, IsNumeral ds → ∀ c ∈ ds, isWordChar c = true :=
    fun hds c hc => isWordChar_of_isDigit (hds.2 c hc)
  cases h with
  | plain hds => exact ⟨hds.1, hdigits hds⟩
  | plus hds =>
      exact ⟨List.cons_ne_nil _ _, List.forall_mem_cons.mpr ⟨by decide, hdigits hds⟩⟩
  | minus hds =>
      exact ⟨List.cons_ne_nil _ _, List.forall_mem_cons.mpr ⟨by decide, hdigits hds⟩⟩

/-- The decimal of an integer spells it. -/
theorem spells_integerDigits (n : Int) : Spells (integerDigits n) n := by
  have hnumeral : ∀ k : Nat, numeral (digits k) = k := fun k => by rw [numeral_eq, ofDigits_digits]
  rw [integerDigits]
  by_cases hn : n < 0
  · have hspells := Spells.minus (isNumeral_digits n.natAbs)
    have hvalue : -(n.natAbs : Int) = n := by omega
    rw [hnumeral, hvalue] at hspells
    rwa [if_pos hn]
  · have hspells := Spells.plain (isNumeral_digits n.natAbs)
    have hvalue : (n.natAbs : Int) = n := by omega
    rw [hnumeral, hvalue] at hspells
    rwa [if_neg hn]

theorem digits_eq (n : Nat) : digits n = Nat.toDigits 10 n := by
  have hchar : ∀ k < 10, digitChar k = Nat.digitChar k := by decide
  fun_induction digits n with
  | case1 n h => rw [Nat.toDigits_of_lt_base h, hchar n h]
  | case2 n h ih =>
      rw [Nat.toDigits_of_base_le (by decide) (by omega), ih, hchar _ (Nat.mod_lt n (by decide))]

theorem ofList_integerDigits (n : Int) : String.ofList (integerDigits n) = toString n := by
  rw [Int.toString_eq_repr, Int.repr_eq_if, integerDigits]
  by_cases hn : n < 0
  · have habs : (-n).toNat = n.natAbs := by omega
    rw [if_pos hn, if_neg (by omega), habs, Nat.repr_eq_ofList_toDigits, ← digits_eq,
      ← String.toList_inj]
    simp only [String.toList_append, String.toList_ofList]
    rfl
  · have habs : n.toNat = n.natAbs := by omega
    rw [if_neg hn, if_pos (by omega), habs, Nat.repr_eq_ofList_toDigits, ← digits_eq]

/-- A text that is a single literal is read as its constant. -/
theorem parse_literal {v : Float} (hword : IsWord word) (h : Number.literal? word = some v)
    (d : Dialect) : d.parse (String.ofList word) = .ok (.const v) := by
  refine Dialect.parseChars_of_derives ?_
  have htokens := tokensFrom_word hword endsWord_nil 0
  rw [List.append_nil] at htokens
  rw [String.toList_ofList, tokens, htokens]
  exact .leaf (Formula.wordMeans_literal h)

/-! ## The double of an integer -/

/-- The double to which an integer is rounded, infinite if the integer is too large. -/
structure IsRounded (v : Float) (n : Int) : Prop where
  isInf_iff : v.isInf = true ↔ countLimit ≤ n.natAbs
  infinity : v.isInf = true → v = if n < 0 then negInfinity else posInfinity
  nearest : v.isInf = false → IsNearest v n

/-- A constant whose text is a literal of the integer that it is, and reads back as a constant that
is equal to it and has the same text. -/
structure IsCanonical (v : Float) : Prop where
  spells : ∃ k : Int, Spells (constant v) k ∧ (parts v).toRat = k
  reread : ∃ w, literal? (constant v) = some w ∧ (w == v) = true ∧ constant w = constant v ∧
    ∀ d : Dialect, d.parse (String.ofList (constant v)) = .ok (.const w)

/-- A finite double is not infinite. -/
theorem isInf_of_isFinite {x : Float} (h : x.isFinite = true) : x.isInf = false := by
  rw [isFinite_eq] at h
  rw [isInf_eq]
  cases hu : unpacked x with
  | infinity s | notANumber => rw [hu] at h; cases h
  | zero s | finite s m e hm => rfl

theorem isInf_ofRatio (negative : Bool) (n : Nat) :
    (ofRatio negative n 1).isInf = true ↔ countLimit ≤ n := by
  rcases Nat.lt_or_ge n countLimit with hn | hn
  · have hfinite := (isFinite_ofRatio_iff negative n).mpr hn
    rw [isInf_of_isFinite hfinite]
    exact iff_of_false (by decide) (Nat.not_le.mpr hn)
  · rw [ofRatio_of_countLimit_le negative hn]
    refine iff_of_true ?_ hn
    cases negative <;> decide

variable {negative : Bool}

theorem isRounded_ofRatio (h : HasSign n negative) :
    IsRounded (ofRatio negative n.natAbs 1) n := by
  have hinf := isInf_ofRatio negative n.natAbs
  refine ⟨hinf, fun hv => ?_, fun hv => ?_⟩
  · have hlarge := hinf.mp hv
    have hpos : 0 < n.natAbs :=
      Nat.lt_of_lt_of_le (power_pos (by decide) 1023) (Nat.le_trans power_le_countLimit hlarge)
    rw [ofRatio_of_countLimit_le negative hlarge]
    cases negative with
    | true =>
        rw [HasSign, if_pos rfl] at h
        rw [if_pos rfl, if_pos (by omega)]
    | false =>
        rw [HasSign, if_neg (by decide)] at h
        rw [if_neg (by decide), if_neg (by omega)]
  · have hsmall : n.natAbs < countLimit := by
      rw [← Nat.not_le, ← hinf, hv]
      decide
    rw [← h.cast]
    exact isNearest_ofRatio negative hsmall

theorem isCanonical_of_isIntegral {v : Float} (h : isIntegral v = true) : IsCanonical v := by
  obtain ⟨w, hread, hbeq, htext⟩ := literal?_constant h
  have hspells : Spells (constant v) (parts v).intValue := by
    rw [constant_of_isIntegral h]
    exact spells_integerDigits _
  exact ⟨⟨_, hspells, Parts.toRat_eq_intValue ((isIntegral_iff v).mp h).2⟩,
    w, hread, hbeq, htext, parse_literal hspells.isWord hread⟩

/-- Up to `2 ^ 53` an integer is its double. -/
theorem toRat_ofRatio (negative : Bool) {k : Nat} (hk : k ≤ power 2 53) :
    (parts (ofRatio negative k 1)).toRat = if negative then -(k : ℚ) else k := by
  have hscale : ((power 2 1074 : Nat) : ℚ) ≠ 0 :=
    Nat.cast_ne_zero.mpr (power_pos (by decide) 1074).ne'
  have hsign : ∀ s, (parts (ofRatio s k 1)).negative = s := fun s => signed_ofRatio s k 1
  have hcount : (k : ℚ) * (power 2 1074 : Nat) = units (nearestBits k 1) := by
    have hunits := toRat_mul (ofNat k)
    rw [toRat_ofNat hk, magnitude_ofNat, ofNat, hsign, if_neg (by decide)] at hunits
    exact hunits
  refine mul_right_cancel₀ hscale ?_
  rw [toRat_mul, hsign, magnitude_ofRatio, ← hcount]
  cases negative with
  | true => rw [if_pos rfl, if_pos rfl, neg_mul]
  | false => rw [if_neg (by decide), if_neg (by decide)]

theorem constant_ofRatio (hn : n.natAbs ≤ power 2 53) (h : HasSign n negative) :
    constant (ofRatio negative n.natAbs 1) = integerDigits n := by
  have hfinite := (isFinite_ofRatio_iff negative n.natAbs).mpr (lt_countLimit hn)
  have hintegral := isIntegral_ofRatio hfinite
  have hvalue := Parts.toRat_eq_intValue ((isIntegral_iff _).mp hintegral).2
  rw [toRat_ofRatio negative hn, h.cast, Int.cast_inj] at hvalue
  rw [constant_of_isIntegral hintegral, ← hvalue]

/-! ## Literals and constants -/

/-- The bits of integers, with their signs, are in the order of the integers. -/
theorem rank_ofRatio_le {m n : Int} {negative negative' : Bool} (hm : HasSign m negative)
    (hn : HasSign n negative') (h : m ≤ n) :
    rank (ofRatio negative m.natAbs 1) ≤ rank (ofRatio negative' n.natAbs 1) := by
  rw [rank, rank, signed_ofRatio, signed_ofRatio, magnitude_ofRatio, magnitude_ofRatio]
  rw [HasSign] at hm hn
  cases negative with
  | false =>
      rw [if_neg (by decide)] at hm ⊢
      cases negative' with
      | false =>
          have hmono := @nearestBits_monotone m.natAbs n.natAbs (by omega)
          rw [if_neg (by decide)]
          omega
      | true =>
          -- only the two zeros are left
          rw [if_pos rfl] at hn
          obtain rfl : m = 0 := by omega
          obtain rfl : n = 0 := by omega
          decide
  | true =>
      rw [if_pos rfl] at hm ⊢
      cases negative' with
      | false =>
          rw [if_neg (by decide)]
          omega
      | true =>
          rw [if_pos rfl] at hn ⊢
          have hmono := @nearestBits_monotone n.natAbs m.natAbs (by omega)
          omega

/-- **Literals.** However an integer is spelled, it is read as the double nearest to it, and a
greater integer as no smaller double. Unless it is infinite, the text of that double is a literal of
the integer that the double is, and such a text does not change when it is read and written; up to
`2 ^ 53` it is the decimal of the integer. -/
theorem literals_and_constants :
    (∀ (word : List Char) (n : Int), Spells word n → ∃ v : Float, literal? word = some v ∧
      (∀ d : Dialect, d.parse (String.ofList word) = .ok (.const v)) ∧
      IsRounded v n ∧ (v.isInf = false → IsCanonical v) ∧
      (n.natAbs ≤ power 2 53 → String.ofList (constant v) = toString n)) ∧
    ∀ (word word' : List Char) (n n' : Int), Spells word n → Spells word' n' → n ≤ n' →
      ∃ v v' : Float, literal? word = some v ∧ literal? word' = some v' ∧ v ≤ v' := by
  constructor
  · intro word n h
    obtain ⟨negative, hread, hn⟩ := h.literal?
    refine ⟨ofRatio negative n.natAbs 1, hread, parse_literal h.isWord hread,
      isRounded_ofRatio hn, fun hfinite => ?_, fun hsmall => ?_⟩
    · exact isCanonical_of_isIntegral
        (isIntegral_ofRatio ((isRounded_ofRatio hn).nearest hfinite).finite)
    · rw [constant_ofRatio hsmall hn, ofList_integerDigits]
  · intro word word' n n' h h' hle
    obtain ⟨negative, hread, hn⟩ := h.literal?
    obtain ⟨negative', hread', hn'⟩ := h'.literal?
    refine ⟨_, _, hread, hread', le_of_rank_le ?_ ?_ (rank_ofRatio_le hn hn' hle)⟩
    · rw [magnitude_ofRatio]
      exact nearestBits_le _ _
    · rw [magnitude_ofRatio]
      exact nearestBits_le _ _

/-- An integer halfway between two doubles, with a sign and leading zeros, and a small one. -/
theorem literals_and_constants_halfway :
    Spells "-009007199254740993".toList (-9007199254740993) ∧ Spells "+7".toList 7 ∧
      (∃ v, literal? "-009007199254740993".toList = some v ∧
        IsNearest v (-9007199254740993 : Int) ∧ IsCanonical v) ∧
      (∃ v, literal? "+7".toList = some v ∧ String.ofList (constant v) = "7") ∧
      ∃ v v' : Float, literal? "-009007199254740993".toList = some v ∧
        literal? "+7".toList = some v' ∧ v ≤ v' := by
  have hhalfway : Spells "-009007199254740993".toList (-9007199254740993) :=
    .minus ((isDigits_iff "009007199254740993".toList).mp (by decide))
  have hseven : Spells "+7".toList 7 := .plus ((isDigits_iff "7".toList).mp (by decide))
  refine ⟨hhalfway, hseven, ?_, ?_, literals_and_constants.2 _ _ _ _ hhalfway hseven (by decide)⟩
  · obtain ⟨v, hread, -, hrounded, hcanonical, -⟩ := literals_and_constants.1 _ _ hhalfway
    have hsmall : 9007199254740993 < countLimit := by
      have hle : power 2 54 ≤ power 2 1023 := power_monotone (by decide) (by decide)
      have hlimit := power_le_countLimit
      have h54 : power 2 54 = 18014398509481984 := rfl
      omega
    have hfinite : v.isInf = false := by
      rw [← Bool.not_eq_true, hrounded.isInf_iff, Nat.not_le]
      exact hsmall
    exact ⟨v, hread, hrounded.nearest hfinite, hcanonical hfinite⟩
  · obtain ⟨v, hread, -, -, -, htext⟩ := literals_and_constants.1 _ _ hseven
    exact ⟨v, hread, htext (by decide)⟩

end Formulary.Number
