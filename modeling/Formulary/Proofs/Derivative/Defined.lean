import Formulary.Proofs.Derivative.Singularities

/-!
# Where derivatives of polynomials are defined

The derivative of a polynomial has a value wherever the polynomial has one, except at the
points at which the base of a power in it is zero: the rule for powers takes the logarithm
of the base, and though its factor is zero, the logarithm of zero is no number to
multiply. Everywhere else the value is the derivative, up to rounding and to numbers that
become too large.
-/

namespace Formulary

open Binary64 (IsPositiveInteger)

namespace Formula

variable {α : Type}

/-- Whether the base of some power in a formula is zero at a point. -/
def HasZeroBase (A : Arithmetic α) (K : NumberKinds α) (point : List α) (t : Formula) : Prop :=
  t.HasBase fun base => ∃ b, base.HasValue A point b ∧ K.IsZero b

theorem zeroBase_iff {A : Arithmetic α} {point : List α} {P : α → Prop} {x : Formula} {a : α}
    (hx : x.HasValue A point a) : (∃ b, x.HasValue A point b ∧ P b) ↔ P a := by
  constructor
  · rintro ⟨b, hb, hp⟩
    rwa [hx.unique hb]
  · exact fun hp => ⟨a, hx, hp⟩

/-- **Watching a derivative.** The derivative of a polynomial divides nothing by zero, takes the
logarithm of zero just where a base is zero, and otherwise its value is finite unless some number on
the way is too large. -/
theorem IsPolynomial.watched {A : Arithmetic α} {K : NumberKinds α} (hA : K.Lawful A)
    {t d : Formula} (ht : t.IsPolynomial) {v : String} (hd : t.derivative v = .ok d)
    {point : String → α} (hpoint : ∀ name ∈ argumentNames, K.IsFinite (point name)) :
    ∃ w, d.HasValue (A.watched K) (argumentNames.map fun name => .given (point name)) w ∧
      d.HasValue A (argumentNames.map point) w.value ∧ w.Clear K ∧
      (w.met .logOfZero ↔ t.HasZeroBase A K (argumentNames.map point)) := by
  have hgiven : (argumentNames.map fun name => Watched.given (point name)).map
      (A.watchedHom K).map = argumentNames.map point := List.map_map
  have hslope : ∀ name, (if v = name then (1 : Float) else 0).isFinite = true := by
    intro name
    split <;> decide
  obtain ⟨d', hd', j, hjet, hgood, hsingular⟩ := ht.exists_jet
    (Z := fun base => ∃ b, base.HasValue A (argumentNames.map point) b ∧ K.IsZero b)
    (fun n => congrArg (K.result [] fun _ => False) (hA.roundsCounts n)) _
    (Jet.watches_preserved hA) (fun x a hx => hgiven ▸ zeroBase_iff (hx.map (A.watchedHom K)))
    (fun name hname => ⟨_, hasValue_name _ _ hname, .given hA (hpoint name hname) (hslope name)⟩)
  cases hd.symm.trans hd'
  exact ⟨j.slope, hjet.slope, hgiven ▸ hjet.slope.map (A.watchedHom K), hgood.slope_clear,
    hgood.slope_met.trans hsingular⟩

/-- **Spoilt derivatives.** In doubles the derivative of a polynomial is not a number where a base
is zero. -/
theorem IsPolynomial.isNaN {ln : Float → Float} {pow : Float → Float → Float}
    (hdocumented : Documented ln pow) {t d : Formula} (ht : t.IsPolynomial) {v : String}
    (hd : t.derivative v = .ok d) {point : String → Float} {y : Float}
    (hy : d.HasValue (.machine ln pow) (argumentNames.map point) y)
    (hbase : t.HasZeroBase (.machine ln pow) .doubles (argumentNames.map point)) :
    y.isNaN = true := by
  obtain ⟨d', hd', j, hjet, hgood, hsingular⟩ := ht.exists_jet
    (Z := fun base => ∃ b, base.HasValue (.machine ln pow) (argumentNames.map point) b ∧
      (b == 0) = true) (fun _ => rfl) _ (Jet.spoils_preserved hdocumented)
    (fun x a hx => zeroBase_iff hx) (fun name hname => ⟨_, hasValue_name _ _ hname, False.elim⟩)
  cases hd.symm.trans hd'
  rw [hy.unique hjet.slope]
  exact hgood (hsingular.mpr hbase)

/-! ## Derivatives among the reals -/

/-- The value of a function at an argument. -/
noncomputable def valueHom (s : ℝ) : Jet.HasSlopeAt.functions.Hom Arithmetic.real where
  map f := f s
  ofFloat _ := rfl
  ofNat _ := rfl
  add _ _ := rfl
  sub _ _ := rfl
  neg _ := rfl
  mul _ _ := rfl
  div _ _ := rfl
  pow _ _ := rfl
  powHeld _ _ := rfl
  lnAbs _ := rfl

/-- **Slopes.** Where no base is zero the derivative of a polynomial is its partial derivative. -/
theorem IsPolynomial.hasDerivAt {t d : Formula} (ht : t.IsPolynomial) {v : String}
    (hd : t.derivative v = .ok d) (point : String → ℝ) :
    ∃ f slope,
      (∀ s, t.HasValue .real (argumentNames.map (Function.update point v s)) (f s)) ∧
      d.HasValue .real (argumentNames.map point) slope ∧
      (¬ t.HasZeroBase .real .reals (argumentNames.map point) →
        HasDerivAt f slope (point v)) := by
  have hself : (argumentNames.map fun name s => Function.update point v s name).map
      (valueHom (point v)).map = argumentNames.map point := by
    rw [List.map_map]
    exact List.map_congr_left fun name _ => congrFun (Function.update_eq_self v point) name
  obtain ⟨d', hd', j, hjet, hgood, hsingular⟩ := ht.exists_jet
    (Z := fun base => ∃ b, base.HasValue .real (argumentNames.map point) b ∧ b = 0)
    (fun _ => rfl) (argumentNames.map fun name s => Function.update point v s name)
    (Jet.slopes_preserved (point v))
    (fun x a hx => hself ▸ zeroBase_iff (hx.map (valueHom (point v))))
    (fun name hname => ⟨_, hasValue_name _ _ hname, .update v name point⟩)
  cases hd.symm.trans hd'
  refine ⟨j.value, j.slope (point v), fun s => ?_, hself ▸ hjet.slope.map (valueHom (point v)),
    fun hbase => Jet.hasSlopeAt_iff.mp hgood fun h => hbase (hsingular.mp h)⟩
  have hvalue := hjet.value.map (valueHom s)
  rwa [List.map_map] at hvalue

/-! ## Both together -/

/-- **Derivatives of polynomials.** To evaluate the derivative of a polynomial divides nothing by
zero, and it takes the logarithm of zero at the points at which the base of a power is zero, and at
no other. At the other points it yields the partial derivative among the reals, and in doubles, at
finite arguments, it yields a finite number unless a number on the way is too large; where the
logarithm of zero is taken it yields what is not a number. -/
theorem polynomial_derivative {t : Formula} (ht : t.IsPolynomial) (v : String) :
    ∃ d, t.derivative v = .ok d ∧
      (∀ point : String → ℝ, ∃ f w,
        (∀ s, t.HasValue .real (argumentNames.map (Function.update point v s)) (f s)) ∧
        d.HasValue (.watched .real .reals) (argumentNames.map fun n => .given (point n)) w ∧
        ¬ w.met .divisionByZero ∧
        (w.met .logOfZero ↔ t.HasZeroBase .real .reals (argumentNames.map point)) ∧
        (¬ w.met .logOfZero → HasDerivAt f w.value (point v))) ∧
      ∀ ln pow, Documented ln pow → ∀ point : String → Float,
        (∀ name ∈ argumentNames, (point name).isFinite = true) → ∃ w,
          d.HasValue (.watched (.machine ln pow) .doubles)
            (argumentNames.map fun n => .given (point n)) w ∧
          d.evaluate (.machine ln pow) (argumentAt (argumentNames.map fun n => .number (point n))) =
            .ok (Grid.scalar w.value) ∧
          ¬ w.met .divisionByZero ∧
          (w.met .logOfZero ↔
            t.HasZeroBase (.machine ln pow) .doubles (argumentNames.map point)) ∧
          (w.met .logOfZero → w.value.isNaN = true) ∧
          (¬ w.met .logOfZero → ¬ w.met .overflow → w.value.isFinite = true) := by
  obtain ⟨d, hd⟩ := ht.exists_derivative v
  refine ⟨d, hd, fun point => ?_, fun ln pow hdocumented point hfinite => ?_⟩
  · obtain ⟨f, slope, hf, hslope, hderiv⟩ := ht.hasDerivAt hd point
    have hfinite : ∀ name ∈ argumentNames, NumberKinds.reals.IsFinite (point name) :=
      fun _ _ => trivial
    obtain ⟨w, hw, hvalue, hclear, hmet⟩ := ht.watched real_lawful hd hfinite
    refine ⟨f, w, hf, hw, hclear.no_division, hmet, fun hnot => ?_⟩
    rw [hvalue.unique hslope]
    exact hderiv (mt hmet.mpr hnot)
  · obtain ⟨w, hw, hvalue, hclear, hmet⟩ := ht.watched (documented_lawful hdocumented) hd hfinite
    refine ⟨w, hw, ?_, hclear.no_division, hmet,
      fun hlog => ht.isNaN hdocumented hd hvalue (hmet.mp hlog), fun hlog hoverflow => ?_⟩
    · have hcall := argumentAt_numbers (argumentNames.map point)
      rw [List.map_map] at hcall
      exact hcall ▸ hvalue
    · exact hclear.finite.resolve_right (not_or_intro hlog hoverflow)

/-- The square of `x`. -/
def xSquared : Formula := power (.var "x") two

theorem isPolynomial_xSquared : xSquared.IsPolynomial :=
  .power (.var (by decide)) ⟨by decide, by decide⟩

theorem hasZeroBase_xSquared (A : Arithmetic α) (K : NumberKinds α) (point : String → α) :
    xSquared.HasZeroBase A K (argumentNames.map point) ↔ K.IsZero (point "x") := by
  have hleaf : ∀ (Z : Formula → Prop) (t : Formula), (∀ symbol xs, t ≠ .apply symbol xs) →
      ¬ HasBase Z t := fun _ _ => not_hasBase_leaf
  refine (hasBase_power (hleaf _ two fun _ _ h => by cases h)).trans ?_
  rw [or_iff_left (hleaf _ (.var "x") fun _ _ h => by cases h)]
  exact zeroBase_iff (hasValue_name A point (by decide))

/-- A logarithm that is right at zero, at three and at the base. -/
def sampleLn (x : Float) : Float :=
  if x == 0 then Binary64.negInfinity else if x == 3 then 1.0986122886681098 else 1

theorem documented_sample : Documented sampleLn (fun _ _ => 1) where
  ln_zero := by decide
  ln_finite := by
    intro x _ hpositive
    unfold sampleLn
    split
    · next hzero =>
        rcases Number.eq_zero_of_beq_zero hzero with rfl | rfl <;>
          exact absurd hpositive (by decide)
    · split <;> decide
  ln_euler := by decide
  pow_integral _ _ := by decide

/-- A point of the reals, and a point of doubles. -/
theorem polynomial_derivative_xSquared :
    ∃ d, xSquared.derivative "x" = .ok d ∧
      (∃ f w, (∀ s, xSquared.HasValue .real [s, 0, 0] (f s)) ∧
        d.HasValue (.watched .real .reals) [.given 3, .given 0, .given 0] w ∧
        ¬ w.met .divisionByZero ∧ ¬ w.met .logOfZero ∧ HasDerivAt f w.value 3) ∧
      ∃ w : Watched Float, d.evaluate (.machine sampleLn fun _ _ => 1)
          (argumentAt [.number 3, .number 0, .number 0]) = .ok (Grid.scalar w.value) ∧
        ¬ w.met .divisionByZero ∧ ¬ w.met .logOfZero ∧
        (¬ w.met .overflow → w.value.isFinite = true) := by
  obtain ⟨d, hd, hreal, hdouble⟩ := polynomial_derivative isPolynomial_xSquared "x"
  refine ⟨d, hd, ?_, ?_⟩
  · obtain ⟨f, w, hf, hw, hdivision, hlog, hderiv⟩ := hreal (pointOf 0 [3, 0, 0])
    have hthree : pointOf (0 : ℝ) [3, 0, 0] "x" = 3 := rfl
    have hbase : ¬ w.met .logOfZero := by
      rw [hlog, hasZeroBase_xSquared, hthree]
      exact three_ne_zero
    exact ⟨f, w, hf, hw, hdivision, hbase, hderiv hbase⟩
  · obtain ⟨w, -, hvalue, hdivision, hlog, -, hfinite⟩ :=
      hdouble _ _ documented_sample (pointOf 0 [3, 0, 0]) (by decide)
    have hbase : ¬ w.met .logOfZero := by
      rw [hlog, hasZeroBase_xSquared]
      show ¬ (pointOf (0 : Float) [3, 0, 0] "x" == 0) = true
      decide
    exact ⟨w, hvalue, hdivision, hbase, hfinite hbase⟩

/-- **The square at zero.** To evaluate the derivative of the square of `x` at zero takes the
logarithm of zero, and in doubles it does not yield zero but what is no number. -/
theorem xSquared_at_zero :
    xSquared.IsPolynomial ∧ ∃ d, xSquared.derivative "x" = .ok d ∧
      (∃ w, d.HasValue (.watched .real .reals) [.given 0, .given 0, .given 0] w ∧
        w.met .logOfZero) ∧
      ∀ ln pow, Documented ln pow →
        ∃ w, d.HasValue (.watched (.machine ln pow) .doubles) [.given 0, .given 0, .given 0] w ∧
          w.met .logOfZero ∧ w.value.isNaN = true := by
  obtain ⟨d, hd⟩ := isPolynomial_xSquared.exists_derivative "x"
  refine ⟨isPolynomial_xSquared, d, hd, ?_, fun ln pow hdocumented => ?_⟩
  · have hfinite : ∀ name ∈ argumentNames, NumberKinds.reals.IsFinite ((fun _ => 0) name) :=
      fun _ _ => trivial
    obtain ⟨w, hw, -, -, hmet⟩ := isPolynomial_xSquared.watched real_lawful hd hfinite
    exact ⟨w, hw, hmet.mpr ((hasZeroBase_xSquared _ _ _).mpr rfl)⟩
  · have hzero : (0 : Float).isFinite = true ∧ ((0 : Float) == 0) = true := by decide
    have hfinite : ∀ name ∈ argumentNames, NumberKinds.doubles.IsFinite ((fun _ => 0) name) :=
      fun _ _ => hzero.1
    obtain ⟨w, hw, hvalue, -, hmet⟩ :=
      isPolynomial_xSquared.watched (documented_lawful hdocumented) hd hfinite
    have hbase : xSquared.HasZeroBase (.machine ln pow) .doubles
        (argumentNames.map fun _ => 0) :=
      (hasZeroBase_xSquared _ _ _).mpr hzero.2
    exact ⟨w, hw, hmet.mpr hbase, isPolynomial_xSquared.isNaN hdocumented hd hvalue hbase⟩

end Formula
end Formulary
