import Formulary.Proofs.Value.Meaning
import Mathlib

/-!
# Values and slopes

What the rules of differentiation need of numbers: a field to compute in, and
quantities that have values and slopes there. A rule is right when the formula
that it makes of the operands' slopes means the slope of the quantity that the
operation makes of the operands. The rules for the mean and the variance take
any number of operands and go by induction on them.
-/

namespace Formulary

theorem Arity.eq_of_admits {n count : Nat} (h : (Arity.exactly n).admits count = true) :
    count = n := by
  obtain ⟨-, hn⟩ := (Bool.and_eq_true _ _).mp h
  exact (eq_of_beq hn).symm

theorem Arity.ne_zero_of_admits {arity : Arity} {count : Nat}
    (h : arity.admits count = true) : count ≠ 0 := by
  obtain ⟨hcount, -⟩ := (Bool.and_eq_true _ _).mp h
  exact bne_iff_ne.mp hcount

/-- The arithmetic of a field, given what it takes for a power and for a logarithm. -/
def Arithmetic.ofField {K : Type} [Field K] (euler : K) (ln : K → K) (pow : K → K → K) :
    Arithmetic K where
  ofFloat x := ((Binary64.parts x).toRat : K)
  euler := euler
  add a b := a + b
  sub a b := a - b
  neg a := -a
  mul a b := a * b
  div a b := a / b
  pow := pow
  lnAbs := ln

/-- Quantities with values in a field and slopes, and the laws that slopes follow. -/
structure Calculus (K Q : Type) [Field K] where
  euler : K
  ln : K → K
  pow : K → K → K
  quantities : Arithmetic Q
  /-- a quantity with its value and its slope -/
  HasSlope : Q → K → K → Prop
  /-- values of the operands at which an operation has a slope -/
  Smooth : Operation → List K → Prop
  ln_euler : ln euler = 1
  ne_zero_of_divide {a b : K} : Smooth .divide [a, b] → b ≠ 0
  ne_zero_of_log {a b : K} : Smooth .log [a, b] → a ≠ 0 ∧ b ≠ 0 ∧ ln a ≠ 0
  hasSlope_ofFloat (x : Float) :
    HasSlope (quantities.ofFloat x) ((Binary64.parts x).toRat : K) 0
  roundsCounts : quantities.RoundsCounts
  hasSlope_euler : HasSlope quantities.euler euler 0
  add {f g : Q} {a a' b b' : K} : HasSlope f a a' → HasSlope g b b' →
    HasSlope (quantities.add f g) (a + b) (a' + b')
  sub {f g : Q} {a a' b b' : K} : HasSlope f a a' → HasSlope g b b' →
    HasSlope (quantities.sub f g) (a - b) (a' - b')
  neg {f : Q} {a a' : K} : HasSlope f a a' → HasSlope (quantities.neg f) (-a) (-a')
  mul {f g : Q} {a a' b b' : K} : HasSlope f a a' → HasSlope g b b' →
    HasSlope (quantities.mul f g) (a * b) (a' * b + a * b')
  div {f g : Q} {a a' b b' : K} : b ≠ 0 → HasSlope f a a' → HasSlope g b b' →
    HasSlope (quantities.div f g) (a / b) ((a' * b - a * b') / (b * b))
  power {f g : Q} {a a' b b' : K} : Smooth .power [a, b] → HasSlope f a a' → HasSlope g b b' →
    HasSlope (quantities.pow f g) (pow a b) (pow a (b - 1) * (b * a' + a * b' * ln a))
  log {f : Q} {a a' : K} : a ≠ 0 → HasSlope f a a' →
    HasSlope (quantities.lnAbs f) (ln a) (a' / a)

namespace Calculus

open Formula

variable {K Q : Type} [Field K] (C : Calculus K Q)

/-- The arithmetic of the values. -/
def values : Arithmetic K := .ofField C.euler C.ln C.pow

theorem ofFloat_zero : C.values.ofFloat 0 = 0 := by
  have h := Binary64.Parts.toRat_of_mantissa_eq_zero Binary64.mantissa_zero
  show ((Binary64.parts 0).toRat : K) = 0
  rw [h, Rat.cast_zero]

theorem ofFloat_one : C.values.ofFloat 1 = 1 := by
  have h : (Binary64.parts 1).toRat = 1 := by decide +kernel
  show ((Binary64.parts 1).toRat : K) = 1
  rw [h, Rat.cast_one]

theorem values_zero (point : String → K) : zero.meaning C.values point = .ok 0 := by
  rw [meaning_zero, ofFloat_zero]

theorem values_one (point : String → K) : one.meaning C.values point = .ok 1 := by
  rw [meaning_one, ofFloat_one]

theorem hasSlope_ofNat (n : Nat) : C.HasSlope (C.quantities.ofNat n) (C.values.ofNat n) 0 := by
  rw [C.roundsCounts]
  exact C.hasSlope_ofFloat _

theorem ofNat_ne_zero [CharZero K] {n : Nat} (hn : n ≠ 0) : C.values.ofNat n ≠ 0 :=
  Rat.cast_ne_zero.mpr (Binary64.toRat_ofNat_ne_zero hn)

theorem log_euler (a : K) : C.values.log C.euler a = C.ln a := by
  show C.ln a / C.ln C.euler = C.ln a
  rw [C.ln_euler, div_one]

/-! ## The rules -/

variable {C} {pointQ : String → Q} {pointK : String → K}

/-- A formula with its derivative: the formula means a quantity and its value, the derivative the
slope of the quantity. -/
structure Tracked (C : Calculus K Q) (pointQ : String → Q) (pointK : String → K) (x : Dual)
    (f : Q) (a a' : K) : Prop where
  quantity : x.formula.meaning C.quantities pointQ = .ok f
  value : x.formula.meaning C.values pointK = .ok a
  slope : x.slope.meaning C.values pointK = .ok a'
  hasSlope : C.HasSlope f a a'

namespace Tracked

variable {x y : Dual} {f g : Q} {a a' b b' : K}

theorem plus (hx : Tracked C pointQ pointK x f a a') (hy : Tracked C pointQ pointK y g b b') :
    Tracked C pointQ pointK (x.plus y) (C.quantities.add f g) (a + b) (a' + b') where
  quantity := meaning_plus hx.quantity hy.quantity
  value := meaning_plus hx.value hy.value
  slope := meaning_plus hx.slope hy.slope
  hasSlope := C.add hx.hasSlope hy.hasSlope

theorem minus (hx : Tracked C pointQ pointK x f a a') (hy : Tracked C pointQ pointK y g b b') :
    Tracked C pointQ pointK (x.minus y) (C.quantities.sub f g) (a - b) (a' - b') where
  quantity := meaning_minus hx.quantity hy.quantity
  value := meaning_minus hx.value hy.value
  slope := meaning_minus hx.slope hy.slope
  hasSlope := C.sub hx.hasSlope hy.hasSlope

theorem negate (hx : Tracked C pointQ pointK x f a a') :
    Tracked C pointQ pointK x.negate (C.quantities.neg f) (-a) (-a') where
  quantity := meaning_negate hx.quantity
  value := meaning_negate hx.value
  slope := meaning_negate hx.slope
  hasSlope := C.neg hx.hasSlope

theorem times (hx : Tracked C pointQ pointK x f a a') (hy : Tracked C pointQ pointK y g b b') :
    Tracked C pointQ pointK (x.times y) (C.quantities.mul f g) (a * b) (a' * b + a * b') where
  quantity := meaning_times hx.quantity hy.quantity
  value := meaning_times hx.value hy.value
  slope := meaning_plus (meaning_times hx.slope hy.value) (meaning_times hx.value hy.slope)
  hasSlope := C.mul hx.hasSlope hy.hasSlope

theorem divide (hb : b ≠ 0) (hx : Tracked C pointQ pointK x f a a')
    (hy : Tracked C pointQ pointK y g b b') :
    Tracked C pointQ pointK (x.divide y) (C.quantities.div f g) (a / b)
      ((a' * b - a * b') / (b * b)) where
  quantity := meaning_divide hx.quantity hy.quantity
  value := meaning_divide hx.value hy.value
  slope := meaning_divide
    (meaning_minus (meaning_times hx.slope hy.value) (meaning_times hx.value hy.slope))
    (meaning_times hy.value hy.value)
  hasSlope := C.div hb hx.hasSlope hy.hasSlope

theorem meaning_ln_value (hx : x.formula.meaning C.values pointK = .ok a) :
    (Formula.ln x.formula).meaning C.values pointK = .ok (C.ln a) := by
  rw [← C.log_euler a]
  exact meaning_ln hx

theorem power (hsmooth : C.Smooth .power [a, b]) (hx : Tracked C pointQ pointK x f a a')
    (hy : Tracked C pointQ pointK y g b b') :
    Tracked C pointQ pointK (x.power y) (C.quantities.pow f g) (C.pow a b)
      (C.pow a (b - 1) * (b * a' + a * b' * C.ln a)) where
  quantity := meaning_power hx.quantity hy.quantity
  value := meaning_power hx.value hy.value
  slope := by
    have hreduced := meaning_power hx.value (meaning_minus hy.value (C.values_one pointK))
    have hbase := meaning_times hy.value hx.slope
    have hexponent :=
      meaning_times (meaning_times hx.value hy.slope) (meaning_ln_value hx.value)
    exact meaning_times hreduced (meaning_plus hbase hexponent)
  hasSlope := C.power hsmooth hx.hasSlope hy.hasSlope

theorem log (hsmooth : C.Smooth .log [a, b]) (hx : Tracked C pointQ pointK x f a a')
    (hy : Tracked C pointQ pointK y g b b') :
    Tracked C pointQ pointK (x.log y) (C.quantities.log f g) (C.values.log a b)
      ((b' / b * C.ln a - C.ln b * (a' / a)) / (C.ln a * C.ln a)) where
  quantity := meaning_log hx.quantity hy.quantity
  value := meaning_log hx.value hy.value
  slope := by
    have hone := C.values_one pointK
    have hlnx := meaning_ln_value hx.value
    have hlny := meaning_ln_value hy.value
    have hfirst := meaning_times (meaning_times hlnx hy.slope) (meaning_divide hone hy.value)
    have hsecond := meaning_times (meaning_times hlny hx.slope) (meaning_divide hone hx.value)
    have hslope := meaning_divide (meaning_minus hfirst hsecond) (meaning_times hlnx hlnx)
    refine hslope.trans (congrArg Except.ok ?_)
    show (C.ln a * b' * (1 / b) - C.ln b * a' * (1 / a)) / (C.ln a * C.ln a) = _
    ring
  hasSlope := by
    obtain ⟨ha, hb, hln⟩ := C.ne_zero_of_log hsmooth
    exact C.div hln (C.log hb hy.hasSlope) (C.log ha hx.hasSlope)

end Tracked

/-- Formulas with their derivatives, one after the other. -/
inductive TrackedAll (C : Calculus K Q) (pointQ : String → Q) (pointK : String → K) :
    List Dual → List Q → List K → List K → Prop where
  | nil : TrackedAll C pointQ pointK [] [] [] []
  | cons {x : Dual} {xs : List Dual} {f : Q} {fs : List Q} {a a' : K} {as as' : List K} :
      Tracked C pointQ pointK x f a a' → TrackedAll C pointQ pointK xs fs as as' →
      TrackedAll C pointQ pointK (x :: xs) (f :: fs) (a :: as) (a' :: as')

namespace TrackedAll

variable {xs : List Dual} {fs : List Q} {as as' : List K}

theorem quantities (h : TrackedAll C pointQ pointK xs fs as as') :
    meanings C.quantities pointQ (xs.map Dual.formula) = .ok fs := by
  induction h with
  | nil => rfl
  | cons hx _ ih => exact meanings_cons hx.quantity ih

theorem values (h : TrackedAll C pointQ pointK xs fs as as') :
    meanings C.values pointK (xs.map Dual.formula) = .ok as := by
  induction h with
  | nil => rfl
  | cons hx _ ih => exact meanings_cons hx.value ih

theorem lengths (h : TrackedAll C pointQ pointK xs fs as as') :
    fs.length = xs.length ∧ as.length = xs.length := by
  induction h with
  | nil => exact ⟨rfl, rfl⟩
  | cons _ _ ih => exact ⟨congrArg Nat.succ ih.1, congrArg Nat.succ ih.2⟩

theorem square (h : TrackedAll C pointQ pointK xs fs as as') :
    ∃ slopes, TrackedAll C pointQ pointK (xs.map Dual.square) (fs.map C.quantities.square)
      (as.map C.values.square) slopes := by
  induction h with
  | nil => exact ⟨[], .nil⟩
  | cons hx _ ih =>
      obtain ⟨slopes, hslopes⟩ := ih
      exact ⟨_, .cons (hx.times hx) hslopes⟩

/-- What is added up in a row has the slopes added up in a row. -/
theorem total (h : TrackedAll C pointQ pointK xs fs as as') {start : Formula} {f : Q} {a a' : K}
    (hstart : start.meaning C.values pointK = .ok a') (hslope : C.HasSlope f a a') :
    (xs.foldl (fun total x => Formula.plus total x.slope) start).meaning C.values pointK =
        .ok (as'.foldl C.values.add a') ∧
      C.HasSlope (fs.foldl C.quantities.add f) (as.foldl C.values.add a)
        (as'.foldl C.values.add a') := by
  induction h generalizing start f a a' with
  | nil => exact ⟨hstart, hslope⟩
  | cons hx _ ih => exact ih (meaning_plus hstart hx.slope) (C.add hslope hx.hasSlope)

end TrackedAll

theorem Tracked.mean [CharZero K] {xs : List Dual} {fs : List Q} {as as' : List K}
    (hxs : xs.length ≠ 0) (h : TrackedAll C pointQ pointK xs fs as as') :
    ∃ a', Tracked C pointQ pointK (Dual.mean xs) (C.quantities.average fs)
      (C.values.average as) a' := by
  have hcount : C.values.ofNat xs.length ≠ 0 := C.ofNat_ne_zero hxs
  obtain ⟨hslope, hsum⟩ := h.total (C.values_zero pointK) (C.hasSlope_ofNat 0)
  have hquotient := C.div hcount hsum (C.hasSlope_ofNat xs.length)
  refine ⟨as'.foldl C.values.add 0 / C.values.ofNat xs.length, meaning_mean h.quantities,
    meaning_mean h.values, meaning_divide hslope (meaning_count _), ?_⟩
  rw [Arithmetic.average, Arithmetic.average, h.lengths.1, h.lengths.2]
  -- the count is a constant, so its slope drops out of the quotient rule
  have hdrop : ∀ s s' : K, (s' * C.values.ofNat xs.length - s * 0) /
      (C.values.ofNat xs.length * C.values.ofNat xs.length) = s' / C.values.ofNat xs.length := by
    intro s s'
    field_simp
    ring
  rw [← hdrop]
  exact hquotient

theorem Tracked.variance [CharZero K] {xs : List Dual} {fs : List Q} {as as' : List K}
    (hxs : xs.length ≠ 0) (h : TrackedAll C pointQ pointK xs fs as as') :
    ∃ f a a', Tracked C pointQ pointK (Dual.variance xs) f a a' := by
  obtain ⟨slopes, hsquares⟩ := h.square
  obtain ⟨_, hmeanOfSquares⟩ := Tracked.mean (by rwa [List.length_map]) hsquares
  obtain ⟨_, hmean⟩ := Tracked.mean hxs h
  -- the variance means what its expansion means, so it has that slope
  have hexpansion := hmeanOfSquares.minus (hmean.times hmean)
  exact ⟨_, _, _, meaning_op h.quantities rfl, meaning_op h.values rfl, hexpansion.slope,
    hexpansion.hasSlope⟩

/-! ## The rule of an operation -/

theorem TrackedAll.of_length_one {xs : List Dual} {fs : List Q} {as as' : List K}
    (h : TrackedAll C pointQ pointK xs fs as as') (hxs : xs.length = 1) :
    ∃ x f a a', xs = [x] ∧ as = [a] ∧ Tracked C pointQ pointK x f a a' := by
  obtain _ | ⟨hx, _ | _⟩ := h
  · cases hxs
  · exact ⟨_, _, _, _, rfl, rfl, hx⟩
  · cases hxs

theorem TrackedAll.of_length_two {xs : List Dual} {fs : List Q} {as as' : List K}
    (h : TrackedAll C pointQ pointK xs fs as as') (hxs : xs.length = 2) :
    ∃ x y f g a b a' b', xs = [x, y] ∧ as = [a, b] ∧ Tracked C pointQ pointK x f a a' ∧
      Tracked C pointQ pointK y g b b' := by
  obtain _ | ⟨hx, hrest⟩ := h
  · cases hxs
  · obtain ⟨y, g, b, b', rfl, rfl, hy⟩ := hrest.of_length_one (Nat.succ.inj hxs)
    exact ⟨_, _, _, _, _, _, _, _, rfl, rfl, hx, hy⟩

/-- **Rules.** The rule of an operation makes of operands and their slopes what the operation
means of them and its slope. -/
theorem TrackedAll.dual? [CharZero K] {xs : List Dual} {fs : List Q} {as as' : List K}
    (h : TrackedAll C pointQ pointK xs fs as as') {o : Operation}
    (ho : o.arity.admits xs.length = true) (hsmooth : C.Smooth o as) :
    ∃ d f a a', o.dual? xs = some d ∧ d.formula = op o (xs.map Dual.formula) ∧
      Tracked C pointQ pointK d f a a' := by
  cases o with
  | plus =>
      obtain ⟨x, y, _, _, _, _, _, _, rfl, rfl, hx, hy⟩ :=
        h.of_length_two (Arity.eq_of_admits ho)
      exact ⟨_, _, _, _, rfl, rfl, hx.plus hy⟩
  | minus =>
      obtain ⟨x, y, _, _, _, _, _, _, rfl, rfl, hx, hy⟩ :=
        h.of_length_two (Arity.eq_of_admits ho)
      exact ⟨_, _, _, _, rfl, rfl, hx.minus hy⟩
  | negate =>
      obtain ⟨x, _, _, _, rfl, rfl, hx⟩ := h.of_length_one (Arity.eq_of_admits ho)
      exact ⟨_, _, _, _, rfl, rfl, hx.negate⟩
  | times =>
      obtain ⟨x, y, _, _, _, _, _, _, rfl, rfl, hx, hy⟩ :=
        h.of_length_two (Arity.eq_of_admits ho)
      exact ⟨_, _, _, _, rfl, rfl, hx.times hy⟩
  | divide =>
      obtain ⟨x, y, _, _, _, _, _, _, rfl, rfl, hx, hy⟩ :=
        h.of_length_two (Arity.eq_of_admits ho)
      exact ⟨_, _, _, _, rfl, rfl, hx.divide (C.ne_zero_of_divide hsmooth) hy⟩
  | power =>
      obtain ⟨x, y, _, _, _, _, _, _, rfl, rfl, hx, hy⟩ :=
        h.of_length_two (Arity.eq_of_admits ho)
      exact ⟨_, _, _, _, rfl, rfl, hx.power hsmooth hy⟩
  | log =>
      obtain ⟨x, y, _, _, _, _, _, _, rfl, rfl, hx, hy⟩ :=
        h.of_length_two (Arity.eq_of_admits ho)
      exact ⟨_, _, _, _, rfl, rfl, hx.log hsmooth hy⟩
  | mean =>
      obtain ⟨a', hmean⟩ := Tracked.mean (Arity.ne_zero_of_admits ho) h
      exact ⟨_, _, _, _, rfl, rfl, hmean⟩
  | variance =>
      obtain ⟨f, a, a', hvariance⟩ := Tracked.variance (Arity.ne_zero_of_admits ho) h
      exact ⟨_, _, _, _, rfl, rfl, hvariance⟩

end Calculus
end Formulary
