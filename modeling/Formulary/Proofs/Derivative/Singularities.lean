import Formulary.Proofs.Derivative.Polynomials
import Formulary.Proofs.Value.Lawful

/-!
# Where derivatives of polynomials are singular

Two properties of jets that the rules of differentiation preserve. While a derivative of
a polynomial is evaluated nothing is divided by zero, and the logarithm of zero is taken
where the base of a power is zero and nowhere else (`watches_preserved`). Among the reals
the slope is a derivative, except where the base of a power is zero (`slopes_preserved`).
-/

namespace Formulary

open Binary64 (IsPositiveInteger)

namespace Jet

/-! ## What happens on the way -/

section Watching

open Arithmetic

variable {α : Type} {K : NumberKinds α} {A : Arithmetic α}

/-- Nothing was divided by zero, and the logarithm of zero was taken just where the base of a power
was zero, and then for the slope only. -/
structure Watches (K : NumberKinds α) (j : Jet (Watched α)) : Prop where
  value_clear : j.value.Clear K
  value_met : ¬ j.value.met .logOfZero
  slope_clear : j.slope.Clear K
  slope_met : j.slope.met .logOfZero ↔ j.singular

namespace Watches

variable (hA : K.Lawful A) {j k : Jet (Watched α)}
include hA

theorem const {x : Float} (hx : x.isFinite = true) : Watches K (Jet.const (A.watched K) x) where
  value_clear := hA.clear_ofFloat hx
  value_met := met_ofFloat _
  slope_clear := hA.clear_ofFloat (by decide)
  slope_met := iff_of_false (met_ofFloat _) id

/-- The jet of a name that is given a number. -/
theorem given {a : α} (ha : K.IsFinite a) {x : Float} (hx : x.isFinite = true) :
    Watches K ⟨False, .given a, (A.watched K).ofFloat x⟩ where
  value_clear := Watched.clear_given ha
  value_met := id
  slope_clear := hA.clear_ofFloat hx
  slope_met := iff_of_false (met_ofFloat _) id

theorem plus (hj : Watches K j) (hk : Watches K k) : Watches K (j.plus (A.watched K) k) where
  value_clear := hA.clear_add hj.value_clear hk.value_clear
  value_met := met_add.not.mpr (not_or_intro hj.value_met hk.value_met)
  slope_clear := hA.clear_add hj.slope_clear hk.slope_clear
  slope_met := met_add.trans (or_congr hj.slope_met hk.slope_met)

theorem minus (hj : Watches K j) (hk : Watches K k) : Watches K (j.minus (A.watched K) k) where
  value_clear := hA.clear_sub hj.value_clear hk.value_clear
  value_met := met_sub.not.mpr (not_or_intro hj.value_met hk.value_met)
  slope_clear := hA.clear_sub hj.slope_clear hk.slope_clear
  slope_met := met_sub.trans (or_congr hj.slope_met hk.slope_met)

theorem negate (hj : Watches K j) : Watches K (j.negate (A.watched K)) where
  value_clear := hA.clear_neg hj.value_clear
  value_met := met_neg.not.mpr hj.value_met
  slope_clear := hA.clear_neg hj.slope_clear
  slope_met := met_neg.trans hj.slope_met

theorem times (hj : Watches K j) (hk : Watches K k) : Watches K (j.times (A.watched K) k) where
  value_clear := hA.clear_mul hj.value_clear hk.value_clear
  value_met := met_mul.not.mpr (not_or_intro hj.value_met hk.value_met)
  slope_clear := hA.clear_add (hA.clear_mul hj.slope_clear hk.value_clear)
    (hA.clear_mul hj.value_clear hk.slope_clear)
  slope_met := by
    simp only [Jet.times, met_add, met_mul, hj.slope_met, hk.slope_met, hj.value_met,
      hk.value_met, or_false, false_or]

theorem mean {js : List (Jet (Watched α))} (hne : js ≠ []) (hjs : ∀ j ∈ js, Watches K j) :
    Watches K (Jet.mean (A.watched K) js) where
  value_clear := hA.clear_meanOf true (by rwa [ne_eq, List.map_eq_nil_iff])
    (List.forall_mem_map.mpr fun j hj => (hjs j hj).value_clear)
  value_met := by
    rw [Jet.mean, met_meanOf]
    rintro ⟨a, ha, hmet⟩
    obtain ⟨j, hj, rfl⟩ := List.mem_map.mp ha
    exact (hjs j hj).value_met hmet
  slope_clear := hA.clear_meanOf false (by rwa [ne_eq, List.map_eq_nil_iff])
    (List.forall_mem_map.mpr fun j hj => (hjs j hj).slope_clear)
  slope_met := by
    rw [Jet.mean, met_meanOf]
    constructor
    · rintro ⟨a, ha, hmet⟩
      obtain ⟨j, hj, rfl⟩ := List.mem_map.mp ha
      exact ⟨j, hj, (hjs j hj).slope_met.mp hmet⟩
    · rintro ⟨j, hj, hsingular⟩
      exact ⟨_, List.mem_map_of_mem hj, (hjs j hj).slope_met.mpr hsingular⟩

/-- The logarithm is that of the base. -/
theorem power {n : Float} (hn : IsPositiveInteger n) (hj : Watches K j) :
    Watches K (j.power (A.watched K) (fun a => K.IsZero a.value) n) := by
  have hexponent := hA.clear_ofFloat hn.isFinite
  have hzero := hA.clear_ofFloat (x := 0) (by decide)
  have hone := hA.clear_ofFloat (x := 1) (by decide)
  have hreduced := hA.clear_powHeld hj.value_clear (hA.clear_sub hexponent hone) (.reduced hn)
  have hln := hA.clear_mul (hA.clear_mul hj.value_clear hzero) (hA.clear_ln hj.value_clear)
  constructor
  · exact hA.clear_powHeld hj.value_clear hexponent (.whole hn)
  · exact met_powHeld.not.mpr (not_or_intro hj.value_met (met_ofFloat n))
  · exact hA.clear_mul hreduced (hA.clear_add (hA.clear_mul hexponent hj.slope_clear) hln)
  · simp only [Jet.power, met_mul, met_add, met_powHeld, met_sub, met_ofFloat, hA.met_ln,
      hj.value_met, hj.slope_met, or_false, false_or]
    exact or_comm

end Watches

theorem watches_preserved (hA : K.Lawful A) :
    Preserved (A.watched K) (fun a => K.IsZero a.value) (Watches K) where
  const := .const hA
  plus := .plus hA
  minus := .minus hA
  negate := .negate hA
  times := .times hA
  mean := .mean hA
  power := .power hA

end Watching

/-! ## Slopes that are not numbers -/

section NotNumbers

variable {ln : Float → Float} {pow : Float → Float → Float}

/-- Once the logarithm of zero was taken the slope is not a number. -/
def Spoils (j : Jet Float) : Prop := j.singular → j.slope.isNaN = true

/-- However doubles are added up, a non-number among them shows in the sum. -/
theorem isNaN_of_sums {terms : Multiset Float} {x : Float}
    (h : (Arithmetic.machine ln pow).Sums terms x) (hterms : ∃ y ∈ terms, y.isNaN = true) :
    x.isNaN = true := by
  induction h with
  | zero => simp at hterms
  | negZero => simp at hterms
  | term x => simpa using hterms
  | add _ _ ihs iht =>
      obtain ⟨y, hy, hnan⟩ := hterms
      rcases Multiset.mem_add.mp hy with hs | ht
      · exact Binary64.isNaN_add (.inl (ihs ⟨y, hs, hnan⟩))
      · exact Binary64.isNaN_add (.inr (iht ⟨y, ht, hnan⟩))

theorem spoils_preserved (h : Documented ln pow) :
    Preserved (Arithmetic.machine ln pow) (fun a => (a == 0) = true) Spoils where
  const _ := False.elim
  plus hj hk hsingular := Binary64.isNaN_add (hsingular.imp hj hk)
  minus hj hk hsingular := Binary64.isNaN_sub (hsingular.imp hj hk)
  negate hj hsingular := Binary64.isNaN_neg (hj hsingular)
  times hj hk hsingular := Binary64.isNaN_add
    (hsingular.imp (fun h => Binary64.isNaN_mul (.inl (hj h)))
      fun h => Binary64.isNaN_mul (.inr (hk h)))
  mean := by
    rintro js - hjs ⟨j, hj, hsingular⟩
    have hsums : (Arithmetic.machine ln pow).Sums (js.map Jet.slope)
        ((Arithmetic.machine ln pow).running (js.map Jet.slope)) :=
      Arithmetic.sums_terms false (js.map Jet.slope)
    exact Binary64.isNaN_div
      (.inl (isNaN_of_sums hsums ⟨_, List.mem_map_of_mem hj, hjs j hj hsingular⟩))
  power := by
    rintro j n hn hj hsingular
    refine Binary64.isNaN_mul (.inr (Binary64.isNaN_add ?_))
    rcases hsingular with hzero | hsingular
    · -- the factor is zero and the logarithm infinite
      right
      have hfactor : (Float.mul j.value 0 == 0) = true := by
        rcases Number.eq_zero_of_beq_zero hzero with heq | heq <;>
          · rw [heq]
            decide
      exact Binary64.isNaN_zero_mul hfactor (h.isInf_log hzero)
    · exact .inl (Binary64.isNaN_mul (.inr (hj hsingular)))

end NotNumbers

/-! ## Slopes among the reals -/

section Slopes

variable {s : ℝ}

/-- Away from the zeros of bases the slope is the derivative of the value. -/
def HasSlopeAt (s : ℝ) (j : Jet (ℝ → ℝ)) : Prop :=
  ¬ j.singular → (Calculus.real s).HasSlope j.value (j.value s) (j.slope s)

theorem hasSlopeAt_iff {j : Jet (ℝ → ℝ)} :
    HasSlopeAt s j ↔ (¬ j.singular → HasDerivAt j.value (j.slope s) s) :=
  imp_congr_right fun _ => and_iff_right rfl

namespace HasSlopeAt

variable {j k : Jet (ℝ → ℝ)}

/-- The arithmetic of the functions of one real. -/
noncomputable abbrev functions : Arithmetic (ℝ → ℝ) := Arithmetic.real.pointwise ℝ

theorem const (x : Float) : HasSlopeAt s (Jet.const functions x) := by
  intro _
  have hzero : functions.ofFloat 0 s = 0 := (Calculus.real s).ofFloat_zero
  have hconst := (Calculus.real s).hasSlope_ofFloat x
  rwa [← hzero] at hconst

/-- The jet of a name while the name `v` runs. -/
theorem update (v name : String) (point : String → ℝ) :
    HasSlopeAt (point v) ⟨False, fun s => Function.update point v s name,
      functions.ofFloat (if v = name then 1 else 0)⟩ := by
  refine hasSlopeAt_iff.mpr fun _ => ?_
  by_cases hname : v = name
  · subst hname
    have hone : functions.ofFloat 1 (point v) = 1 := (Calculus.real 0).ofFloat_one
    simp only [if_pos, Function.update_self, hone]
    exact hasDerivAt_id _
  · have hzero : functions.ofFloat 0 (point v) = 0 := (Calculus.real 0).ofFloat_zero
    simp only [if_neg hname, Function.update_of_ne (Ne.symm hname), hzero]
    exact hasDerivAt_const _ _

theorem plus (hj : HasSlopeAt s j) (hk : HasSlopeAt s k) : HasSlopeAt s (j.plus functions k) := by
  intro h
  obtain ⟨hj', hk'⟩ := not_or.mp h
  exact (Calculus.real s).add (hj hj') (hk hk')

theorem minus (hj : HasSlopeAt s j) (hk : HasSlopeAt s k) :
    HasSlopeAt s (j.minus functions k) := by
  intro h
  obtain ⟨hj', hk'⟩ := not_or.mp h
  exact (Calculus.real s).sub (hj hj') (hk hk')

theorem negate (hj : HasSlopeAt s j) : HasSlopeAt s (j.negate functions) :=
  fun h => (Calculus.real s).neg (hj h)

theorem times (hj : HasSlopeAt s j) (hk : HasSlopeAt s k) :
    HasSlopeAt s (j.times functions k) := by
  intro h
  obtain ⟨hj', hk'⟩ := not_or.mp h
  exact (Calculus.real s).mul (hj hj') (hk hk')

/-- However functions are added up, the derivatives are added up. -/
theorem of_sums {terms : Multiset (ℝ → ℝ)} {f : ℝ → ℝ} (h : functions.Sums terms f)
    (hterms : ∀ g ∈ terms, DifferentiableAt ℝ g s) :
    HasDerivAt f (terms.map fun g => deriv g s).sum s := by
  have hconst : ∀ x, HasDerivAt (functions.ofFloat x) 0 s := fun x => hasDerivAt_const s _
  induction h with
  | zero => exact hconst _
  | negZero => exact hconst _
  | term g =>
      rw [Multiset.map_singleton, Multiset.sum_singleton]
      exact (hterms g (Multiset.mem_singleton_self g)).hasDerivAt
  | add _ _ ihs iht =>
      rw [Multiset.map_add, Multiset.sum_add]
      exact (ihs fun g hg => hterms g (Multiset.mem_add.mpr (.inl hg))).add
        (iht fun g hg => hterms g (Multiset.mem_add.mpr (.inr hg)))

theorem sums_apply {terms : Multiset (ℝ → ℝ)} {f : ℝ → ℝ} (h : functions.Sums terms f) :
    f s = (terms.map fun g => g s).sum := by
  induction h with
  | zero => exact (Calculus.real s).ofFloat_zero
  | negZero =>
      have hzero := Binary64.Parts.toRat_of_mantissa_eq_zero Binary64.mantissa_negZero
      show ((Binary64.parts Binary64.negZero).toRat : ℝ) = 0
      rw [hzero, Rat.cast_zero]
  | term g => rw [Multiset.map_singleton, Multiset.sum_singleton]
  | @add t u f g _ _ iht ihu =>
      rw [Multiset.map_add, Multiset.sum_add, ← iht, ← ihu]
      rfl

theorem mean {js : List (Jet (ℝ → ℝ))} (hjs : ∀ j ∈ js, HasSlopeAt s j) :
    HasSlopeAt s (Jet.mean functions js) := by
  refine hasSlopeAt_iff.mpr fun h => ?_
  have hslopes : ∀ j ∈ js, HasDerivAt j.value (j.slope s) s :=
    fun j hj => hasSlopeAt_iff.mp (hjs j hj) fun hsingular => h ⟨j, hj, hsingular⟩
  have htotal : HasDerivAt (functions.blockwise (js.map Jet.value))
      ((js.map Jet.value : Multiset (ℝ → ℝ)).map fun g => deriv g s).sum s := by
    refine of_sums (Arithmetic.sums_terms true (js.map Jet.value)) fun g hg => ?_
    obtain ⟨j, hj, rfl⟩ := List.mem_map.mp (Multiset.mem_coe.mp hg)
    exact (hslopes j hj).differentiableAt
  have hsum : ((js.map Jet.value : Multiset (ℝ → ℝ)).map fun g => deriv g s).sum =
      functions.running (js.map Jet.slope) s := by
    have hrunning : functions.running (js.map Jet.slope) s =
        ((js.map Jet.slope : Multiset (ℝ → ℝ)).map fun g => g s).sum :=
      sums_apply (Arithmetic.sums_terms false (js.map Jet.slope))
    have hderiv : (js.map Jet.value).map (fun g => deriv g s) =
        (js.map Jet.slope).map fun g => g s := by
      rw [List.map_map, List.map_map]
      exact List.map_congr_left fun j hj => (hslopes j hj).deriv
    rw [hrunning, Multiset.map_coe, Multiset.map_coe, hderiv]
  have hcount : functions.ofNat (js.map Jet.slope).length =
      functions.ofNat (js.map Jet.value).length := by
    rw [List.length_map, List.length_map]
  show HasDerivAt (functions.meanOf true (js.map Jet.value))
    (functions.meanOf false (js.map Jet.slope) s) s
  rw [Arithmetic.meanOf, Arithmetic.meanOf, hcount]
  exact (hsum ▸ htotal).div_const _

theorem power {n : Float} (hj : HasSlopeAt s j) :
    HasSlopeAt s (j.power functions (fun f => f s = 0) n) := by
  refine hasSlopeAt_iff.mpr fun h => ?_
  obtain ⟨hbase, hsingular⟩ := not_or.mp h
  have hzero : functions.ofFloat 0 s = 0 := (Calculus.real s).ofFloat_zero
  have hone : functions.ofFloat 1 s = 1 := (Calculus.real s).ofFloat_one
  have hpower := (hasSlopeAt_iff.mp hj hsingular).rpow_const (p := Arithmetic.real.ofFloat n)
    (.inl hbase)
  refine hpower.congr_deriv ?_
  show _ = j.value s ^ (Arithmetic.real.ofFloat n - functions.ofFloat 1 s) *
    (Arithmetic.real.ofFloat n * j.slope s + j.value s * functions.ofFloat 0 s * _)
  rw [hzero, hone, mul_zero, zero_mul, add_zero]
  ring

end HasSlopeAt

theorem slopes_preserved (s : ℝ) :
    Preserved HasSlopeAt.functions (fun f => f s = 0) (HasSlopeAt s) where
  const _ := .const _
  plus := .plus
  minus := .minus
  negate := .negate
  times := .times
  mean _ := .mean
  power _ := .power

end Slopes
end Jet
end Formulary
