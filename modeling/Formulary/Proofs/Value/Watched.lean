import Formulary.Proofs.Number.Predecessor
import Formulary.Proofs.Value.Meaning
import Formulary.Proofs.Value.Sums

/-!
# Watching an evaluation

An arithmetic in which every number remembers what happened while it was computed:
whether the logarithm of zero was taken, whether something was divided by zero, and
whether a result was infinite although neither was. To evaluate a formula in it is to
evaluate the formula and to watch (`watchedHom`). In a lawful arithmetic a number is
finite unless something happened, and this is kept by every operation but a division
by zero (`Clear`).
-/

namespace Formulary

/-- What can happen when a number is computed. -/
inductive Event where
  | logOfZero
  /-- also a negative power of zero -/
  | divisionByZero
  /-- an infinite result of finite operands, if it is not that of one of the other events -/
  | overflow

/-- Which numbers of an arithmetic are zeros, negative, finite and infinite. -/
structure NumberKinds (α : Type) where
  IsZero : α → Prop
  IsNegative : α → Prop
  IsFinite : α → Prop
  IsInfinite : α → Prop

/-- A number and what happened on the way to it. -/
structure Watched (α : Type) where
  value : α
  met : Event → Prop

variable {α : Type}

/-- A number that was given and not computed. -/
def Watched.given (x : α) : Watched α := ⟨x, fun _ => False⟩

namespace NumberKinds

variable (K : NumberKinds α)

/-- The result of an operation: what happened to the operands, and what happens here. -/
def result (operands : List (Watched α)) (here : Event → Prop) (value : α) : Watched α where
  value := value
  met e := (∃ a ∈ operands, a.met e) ∨ here e ∨
    e = .overflow ∧ (∀ a ∈ operands, K.IsFinite a.value) ∧ (∀ e, ¬ here e) ∧ K.IsInfinite value

end NumberKinds

namespace Arithmetic

variable (A : Arithmetic α) (K : NumberKinds α)

/-- The arithmetic with its events. -/
def watched : Arithmetic (Watched α) where
  ofFloat x := K.result [] (fun _ => False) (A.ofFloat x)
  ofNat n := K.result [] (fun _ => False) (A.ofNat n)
  euler := K.result [] (fun _ => False) A.euler
  add a b := K.result [a, b] (fun _ => False) (A.add a.value b.value)
  sub a b := K.result [a, b] (fun _ => False) (A.sub a.value b.value)
  neg a := K.result [a] (fun _ => False) (A.neg a.value)
  mul a b := K.result [a, b] (fun _ => False) (A.mul a.value b.value)
  div a b := K.result [a, b] (fun e => e = .divisionByZero ∧ K.IsZero b.value)
    (A.div a.value b.value)
  pow a b := K.result [a, b]
    (fun e => e = .divisionByZero ∧ K.IsZero a.value ∧ K.IsNegative b.value)
    (A.pow a.value b.value)
  powHeld a b := K.result [a, b]
    (fun e => e = .divisionByZero ∧ K.IsZero a.value ∧ K.IsNegative b.value)
    (A.powHeld a.value b.value)
  lnAbs a := K.result [a] (fun e => e = .logOfZero ∧ K.IsZero a.value) (A.lnAbs a.value)

/-- Watching changes no number. -/
def watchedHom : (A.watched K).Hom A where
  map := Watched.value
  ofFloat _ := rfl
  ofNat _ := rfl
  add _ _ := rfl
  sub _ _ := rfl
  neg _ := rfl
  mul _ _ := rfl
  div _ _ := rfl
  pow _ _ := rfl
  powHeld _ _ := rfl
  lnAbs _ := rfl

variable {A K} {a b : Watched α}

/-! ## The logarithm of zero -/

theorem met_ofFloat (x : Float) : ¬ ((A.watched K).ofFloat x).met .logOfZero := by
  simp [watched, NumberKinds.result]

theorem met_ofNat (n : Nat) : ¬ ((A.watched K).ofNat n).met .logOfZero := by
  simp [watched, NumberKinds.result]

theorem met_add : ((A.watched K).add a b).met .logOfZero ↔
    a.met .logOfZero ∨ b.met .logOfZero := by
  simp [watched, NumberKinds.result]

theorem met_sub : ((A.watched K).sub a b).met .logOfZero ↔
    a.met .logOfZero ∨ b.met .logOfZero := by
  simp [watched, NumberKinds.result]

theorem met_neg : ((A.watched K).neg a).met .logOfZero ↔ a.met .logOfZero := by
  simp [watched, NumberKinds.result]

theorem met_mul : ((A.watched K).mul a b).met .logOfZero ↔
    a.met .logOfZero ∨ b.met .logOfZero := by
  simp [watched, NumberKinds.result]

theorem met_div : ((A.watched K).div a b).met .logOfZero ↔
    a.met .logOfZero ∨ b.met .logOfZero := by
  simp [watched, NumberKinds.result]

theorem met_powHeld : ((A.watched K).powHeld a b).met .logOfZero ↔
    a.met .logOfZero ∨ b.met .logOfZero := by
  simp [watched, NumberKinds.result]

theorem met_lnAbs : ((A.watched K).lnAbs a).met .logOfZero ↔
    a.met .logOfZero ∨ K.IsZero a.value := by
  simp [watched, NumberKinds.result]

theorem met_sums {terms : Multiset (Watched α)} {s : Watched α} (h : (A.watched K).Sums terms s) :
    s.met .logOfZero ↔ ∃ x ∈ terms, x.met .logOfZero := by
  induction h with
  | zero => simp [Arithmetic.zero, met_ofFloat]
  | negZero => simp [Arithmetic.negZero, met_ofFloat]
  | term x => simp
  | add _ _ ihs iht => simp only [met_add, ihs, iht, Multiset.mem_add, or_and_right, exists_or]

end Arithmetic

/-! ## Finite unless something happened -/

namespace Arithmetic

/-- A positive integer, and such a number less one, for the exponent of a power. -/
inductive IsExponent (A : Arithmetic α) : α → Prop
  | whole {n : Float} : Binary64.IsPositiveInteger n → IsExponent A (A.ofFloat n)
  | reduced {n : Float} : Binary64.IsPositiveInteger n →
      IsExponent A (A.sub (A.ofFloat n) (A.ofFloat 1))

end Arithmetic

namespace NumberKinds

variable (K : NumberKinds α)

def IsFiniteOrInfinite (x : α) : Prop := K.IsFinite x ∨ K.IsInfinite x

/-- What is expected of an arithmetic: finite operands have a result that is finite or infinite,
unless they are outside the domain of the operation. -/
structure Lawful (A : Arithmetic α) : Prop where
  ofFloat {x : Float} : x.isFinite = true → K.IsFinite (A.ofFloat x)
  roundsCounts : A.RoundsCounts
  count (n : Nat) : K.IsFiniteOrInfinite (A.ofNat n)
  count_ne_zero {n : Nat} : n ≠ 0 → ¬ K.IsZero (A.ofNat n)
  add {a b : α} : K.IsFinite a → K.IsFinite b → K.IsFiniteOrInfinite (A.add a b)
  sub {a b : α} : K.IsFinite a → K.IsFinite b → K.IsFiniteOrInfinite (A.sub a b)
  neg {a : α} : K.IsFinite a → K.IsFiniteOrInfinite (A.neg a)
  mul {a b : α} : K.IsFinite a → K.IsFinite b → K.IsFiniteOrInfinite (A.mul a b)
  div {a b : α} : K.IsFinite a → K.IsFinite b → ¬ K.IsZero b → K.IsFiniteOrInfinite (A.div a b)
  exponent {b : α} : A.IsExponent b → ¬ K.IsNegative b
  powHeld {a b : α} : A.IsExponent b → K.IsFinite a → K.IsFinite b →
    K.IsFiniteOrInfinite (A.powHeld a b)
  lnAbs {a : α} : K.IsFinite a → ¬ K.IsZero a → K.IsFiniteOrInfinite (A.lnAbs a)
  euler : ¬ K.IsZero (A.ofFloat Binary64.eulerNumber)
  lnAbs_euler : ¬ K.IsZero (A.lnAbs (A.ofFloat Binary64.eulerNumber))

end NumberKinds

/-- Nothing was divided by zero, and the number is finite unless something else happened. -/
structure Watched.Clear (K : NumberKinds α) (a : Watched α) : Prop where
  no_division : ¬ a.met .divisionByZero
  finite : K.IsFinite a.value ∨ a.met .logOfZero ∨ a.met .overflow

namespace NumberKinds

variable {K : NumberKinds α}

/-- **Results.** The result of clear operands is clear, if here at most the logarithm of zero is
taken and finite operands have a finite or an infinite result. -/
theorem clear_result {operands : List (Watched α)} {here : Event → Prop} {value : α}
    (hoperands : ∀ a ∈ operands, a.Clear K) (hhere : ∀ e, here e → e = .logOfZero)
    (hvalue : (∀ a ∈ operands, K.IsFinite a.value) → (∀ e, ¬ here e) →
      K.IsFiniteOrInfinite value) : (K.result operands here value).Clear K where
  no_division := by
    rintro (⟨a, ha, hmet⟩ | hmet | ⟨he, -⟩)
    · exact (hoperands a ha).no_division hmet
    · cases hhere _ hmet
    · cases he
  finite := by
    by_cases hfinite : ∀ a ∈ operands, K.IsFinite a.value
    · by_cases hnothing : ∀ e, ¬ here e
      · rcases hvalue hfinite hnothing with h | h
        · exact .inl h
        · exact .inr (.inr (.inr (.inr ⟨rfl, hfinite, hnothing, h⟩)))
      · obtain ⟨e, he⟩ := not_forall_not.mp hnothing
        obtain rfl := hhere e he
        exact .inr (.inl (.inr (.inl he)))
    · -- what happened to an operand happened to the result
      obtain ⟨a, ha⟩ := not_forall.mp hfinite
      obtain ⟨hmem, hnot⟩ := Classical.not_imp.mp ha
      rcases (hoperands a hmem).finite with h | h | h
      · exact absurd h hnot
      · exact .inr (.inl (.inl ⟨a, hmem, h⟩))
      · exact .inr (.inr (.inl ⟨a, hmem, h⟩))

end NumberKinds

theorem Watched.clear_given {K : NumberKinds α} {x : α} (h : K.IsFinite x) :
    (Watched.given x).Clear K :=
  ⟨id, .inl h⟩

namespace NumberKinds.Lawful

variable {K : NumberKinds α} {A : Arithmetic α} (hA : K.Lawful A) {a b : Watched α}

theorem clear_single {here : Event → Prop} {value : α} (ha : a.Clear K)
    (hhere : ∀ e, here e → e = .logOfZero)
    (hvalue : K.IsFinite a.value → (∀ e, ¬ here e) → K.IsFiniteOrInfinite value) :
    (K.result [a] here value).Clear K :=
  clear_result (List.forall_mem_singleton.mpr ha) hhere
    fun hfinite => hvalue (hfinite a List.mem_cons_self)

theorem clear_pair {here : Event → Prop} {value : α} (ha : a.Clear K) (hb : b.Clear K)
    (hhere : ∀ e, ¬ here e)
    (hvalue : K.IsFinite a.value → K.IsFinite b.value → K.IsFiniteOrInfinite value) :
    (K.result [a, b] here value).Clear K := by
  refine clear_result (List.forall_mem_cons.mpr ⟨ha, List.forall_mem_singleton.mpr hb⟩)
    (fun e he => absurd he (hhere e)) fun hfinite _ => ?_
  exact hvalue (hfinite a List.mem_cons_self)
    (hfinite b (List.mem_cons_of_mem _ List.mem_cons_self))

include hA

theorem clear_ofFloat {x : Float} (h : x.isFinite = true) :
    ((A.watched K).ofFloat x).Clear K :=
  clear_result (List.forall_mem_nil _) (fun _ he => he.elim) fun _ _ => .inl (hA.ofFloat h)

theorem clear_count (n : Nat) : ((A.watched K).ofNat n).Clear K :=
  clear_result (List.forall_mem_nil _) (fun _ he => he.elim) fun _ _ => hA.count n

theorem clear_add (ha : a.Clear K) (hb : b.Clear K) : ((A.watched K).add a b).Clear K :=
  clear_pair ha hb (fun _ he => he) hA.add

theorem clear_sub (ha : a.Clear K) (hb : b.Clear K) : ((A.watched K).sub a b).Clear K :=
  clear_pair ha hb (fun _ he => he) hA.sub

theorem clear_neg (ha : a.Clear K) : ((A.watched K).neg a).Clear K :=
  clear_single ha (fun _ he => he.elim) fun h _ => hA.neg h

theorem clear_mul (ha : a.Clear K) (hb : b.Clear K) : ((A.watched K).mul a b).Clear K :=
  clear_pair ha hb (fun _ he => he) hA.mul

theorem clear_div (ha : a.Clear K) (hb : b.Clear K) (hne : ¬ K.IsZero b.value) :
    ((A.watched K).div a b).Clear K :=
  clear_pair ha hb (fun _ he => hne he.2) fun h h' => hA.div h h' hne

theorem clear_powHeld (ha : a.Clear K) (hb : b.Clear K) (hexponent : A.IsExponent b.value) :
    ((A.watched K).powHeld a b).Clear K :=
  clear_pair ha hb (fun _ he => hA.exponent hexponent he.2.2) (hA.powHeld hexponent)

theorem clear_lnAbs (ha : a.Clear K) : ((A.watched K).lnAbs a).Clear K :=
  clear_single ha (fun _ he => he.1) fun h hhere =>
    hA.lnAbs h fun hzero => hhere .logOfZero ⟨rfl, hzero⟩

/-- The natural logarithm, as a quotient of logarithms. -/
theorem clear_ln (ha : a.Clear K) :
    ((A.watched K).log ((A.watched K).ofFloat Binary64.eulerNumber) a).Clear K :=
  hA.clear_div (hA.clear_lnAbs ha)
    (hA.clear_lnAbs (hA.clear_ofFloat (by decide))) hA.lnAbs_euler

theorem met_ln : ((A.watched K).log ((A.watched K).ofFloat Binary64.eulerNumber) a).met .logOfZero ↔
    a.met .logOfZero ∨ K.IsZero a.value := by
  have heuler : ¬ ((A.watched K).lnAbs ((A.watched K).ofFloat Binary64.eulerNumber)).met
      .logOfZero :=
    Arithmetic.met_lnAbs.not.mpr (not_or_intro (Arithmetic.met_ofFloat _) hA.euler)
  rw [Arithmetic.log, Arithmetic.met_div, Arithmetic.met_lnAbs, or_iff_left heuler]

theorem clear_sums {terms : Multiset (Watched α)} {s : Watched α}
    (h : (A.watched K).Sums terms s) (hterms : ∀ x ∈ terms, x.Clear K) : s.Clear K := by
  induction h with
  | zero => exact hA.clear_ofFloat (by decide)
  | negZero => exact hA.clear_ofFloat (by decide)
  | term x => exact hterms x (Multiset.mem_singleton_self x)
  | add _ _ ihs iht =>
      exact hA.clear_add (ihs fun x hx => hterms x (Multiset.mem_add.mpr (.inl hx)))
        (iht fun x hx => hterms x (Multiset.mem_add.mpr (.inr hx)))

/-- A quotient by the number of operands. -/
theorem clear_div_count (ha : a.Clear K) {n : Nat} (hn : n ≠ 0) :
    ((A.watched K).div a ((A.watched K).ofNat n)).Clear K :=
  hA.clear_div ha (hA.clear_count n) (hA.count_ne_zero hn)

theorem clear_meanOf (alone : Bool) {terms : List (Watched α)} (hne : terms ≠ [])
    (hterms : ∀ x ∈ terms, x.Clear K) : ((A.watched K).meanOf alone terms).Clear K :=
  hA.clear_div_count (hA.clear_sums (Arithmetic.sums_terms alone terms) hterms)
    (mt List.length_eq_zero_iff.mp hne)

end NumberKinds.Lawful

/-! ## The logarithm of zero in means -/

theorem Arithmetic.met_meanOf {A : Arithmetic α} {K : NumberKinds α} {alone : Bool}
    {terms : List (Watched α)} :
    ((A.watched K).meanOf alone terms).met .logOfZero ↔ ∃ x ∈ terms, x.met .logOfZero := by
  rw [meanOf, met_div, met_sums (sums_terms alone terms)]
  simp [met_ofNat]

end Formulary
