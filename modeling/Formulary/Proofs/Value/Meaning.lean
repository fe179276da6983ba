import Formulary.Formula.Derivative
import Formulary.Proofs.Number.Counts
import Formulary.Value.Meaning

/-!
# The meaning of built formulas

What a formula means that is put together from others, one equation for each way
of putting together. Functions form an arithmetic of their own, in which a
formula means the function of its values.
-/

namespace Formulary

variable {α : Type} {A : Arithmetic α}

/-- Whether a count becomes the double nearest to it. -/
def Arithmetic.RoundsCounts (A : Arithmetic α) : Prop :=
  ∀ n, A.ofNat n = A.ofFloat (Binary64.ofNat n)

namespace Formula

variable {point : String → α} {x y : Formula} {xs : List Formula} {a b : α} {values : List α}

theorem meanings_cons (hx : x.meaning A point = .ok a) (hxs : meanings A point xs = .ok values) :
    meanings A point (x :: xs) = .ok (a :: values) := by
  rw [meanings]
  simp only [hx, hxs]

/-- Operands have values when each of them has. -/
theorem meanings_eq_ok_iff : meanings A point xs = .ok values ↔
    List.Forall₂ (fun x a => x.meaning A point = .ok a) xs values := by
  induction xs generalizing values with
  | nil =>
      constructor
      · rintro ⟨⟩
        exact .nil
      · rintro ⟨⟩
        rfl
  | cons x xs ih =>
      constructor
      · intro h
        rw [meanings] at h
        cases hx : x.meaning A point with
        | error fault =>
            rw [hx] at h
            cases h
        | ok a =>
            cases hxs : meanings A point xs with
            | error fault =>
                rw [hx, hxs] at h
                cases h
            | ok rest =>
                rw [hx, hxs] at h
                cases h
                exact .cons hx (ih.mp hxs)
      · rintro (_ | ⟨hx, hxs⟩)
        exact meanings_cons hx (ih.mpr hxs)

/-- Operands in another order have their values in that order. -/
theorem meanings_perm {ys : List Formula} (hxs : meanings A point xs = .ok values)
    (h : xs.Perm ys) : ∃ later, meanings A point ys = .ok later ∧ later.Perm values := by
  obtain ⟨later, hlater, hperm⟩ := List.perm_comp_forall₂ h.symm (meanings_eq_ok_iff.mp hxs)
  exact ⟨later, meanings_eq_ok_iff.mpr hlater, hperm⟩

theorem meaning_op {o : Operation} (hxs : meanings A point xs = .ok values)
    (ho : o.means? A values = some a) : (op o xs).meaning A point = .ok a := by
  rw [op, meaning, Operation.ofSymbol?_symbol]
  simp only [hxs, ho]

section

variable (hx : x.meaning A point = .ok a) (hy : y.meaning A point = .ok b)
include hx

theorem meanings_single : meanings A point [x] = .ok [a] := meanings_cons hx rfl

theorem meaning_negate : (negate x).meaning A point = .ok (A.neg a) :=
  meaning_op (meanings_single hx) rfl

include hy

theorem meanings_pair : meanings A point [x, y] = .ok [a, b] :=
  meanings_cons hx (meanings_single hy)

theorem meaning_plus : (plus x y).meaning A point = .ok (A.add a b) :=
  meaning_op (meanings_pair hx hy) rfl

theorem meaning_minus : (minus x y).meaning A point = .ok (A.sub a b) :=
  meaning_op (meanings_pair hx hy) rfl

theorem meaning_times : (times x y).meaning A point = .ok (A.mul a b) :=
  meaning_op (meanings_pair hx hy) rfl

theorem meaning_divide : (divide x y).meaning A point = .ok (A.div a b) :=
  meaning_op (meanings_pair hx hy) rfl

theorem meaning_power : (power x y).meaning A point = .ok (A.pow a b) :=
  meaning_op (meanings_pair hx hy) rfl

theorem meaning_log : (log x y).meaning A point = .ok (A.log a b) :=
  meaning_op (meanings_pair hx hy) rfl

end

theorem meaning_const {value : Float} (h : (value == Binary64.eulerNumber) = false) :
    (const value).meaning A point = .ok (A.ofFloat value) := by
  rw [meaning, h]
  rfl

theorem meaning_zero : zero.meaning A point = .ok (A.ofFloat 0) :=
  meaning_const (by decide)

theorem meaning_one : one.meaning A point = .ok (A.ofFloat 1) :=
  meaning_const (by decide)

theorem meaning_count (n : Nat) :
    (count n).meaning A point = .ok (A.ofFloat (Binary64.ofNat n)) :=
  meaning_const (Binary64.ofNat_ne_euler n)

theorem meaning_euler : euler.meaning A point = .ok A.euler := by
  have h : (Binary64.eulerNumber == Binary64.eulerNumber) = true := by decide
  rw [euler, meaning, h]
  rfl

theorem meaning_ln (hx : x.meaning A point = .ok a) :
    (ln x).meaning A point = .ok (A.log A.euler a) :=
  meaning_log meaning_euler hx

theorem meaning_mean (hxs : meanings A point xs = .ok values) :
    (mean xs).meaning A point = .ok (A.average values) :=
  meaning_op hxs rfl

end Formula

/-! ## Functions as numbers -/

/-- Functions, each operation taken at every argument by itself. -/
def Arithmetic.pointwise (A : Arithmetic α) (ι : Type) : Arithmetic (ι → α) where
  ofFloat x := fun _ => A.ofFloat x
  ofNat n := fun _ => A.ofNat n
  euler := fun _ => A.euler
  add f g := fun i => A.add (f i) (g i)
  sub f g := fun i => A.sub (f i) (g i)
  neg f := fun i => A.neg (f i)
  mul f g := fun i => A.mul (f i) (g i)
  div f g := fun i => A.div (f i) (g i)
  pow f g := fun i => A.pow (f i) (g i)
  lnAbs f := fun i => A.lnAbs (f i)

variable {ι : Type}

theorem Arithmetic.sum_pointwise (i : ι) (fs : List (ι → α)) :
    (A.pointwise ι).sum fs i = A.sum (fs.map (· i)) := by
  have h : ∀ start : ι → α, fs.foldl (A.pointwise ι).add start i =
      (fs.map (· i)).foldl A.add (start i) := by
    induction fs with
    | nil => exact fun _ => rfl
    | cons f fs ih =>
        intro start
        rw [List.foldl_cons, List.map_cons, List.foldl_cons, ih]
        rfl
  exact h _

theorem Arithmetic.average_pointwise (i : ι) (fs : List (ι → α)) :
    (A.pointwise ι).average fs i = A.average (fs.map (· i)) := by
  have hcount : (A.pointwise ι).ofNat fs.length i = A.ofNat (fs.map (· i)).length := by
    rw [List.length_map]
    rfl
  show A.div ((A.pointwise ι).sum fs i) ((A.pointwise ι).ofNat fs.length i) = _
  rw [sum_pointwise, hcount]
  rfl

theorem Operation.means?_pointwise (o : Operation) (i : ι) (fs : List (ι → α)) :
    o.means? A (fs.map (· i)) = (o.means? (A.pointwise ι) fs).map (· i) := by
  cases o with
  | mean => exact congrArg some (Arithmetic.average_pointwise i fs).symm
  | variance =>
      have hsquares : (fs.map (· i)).map A.square = (fs.map (A.pointwise ι).square).map (· i) := by
        rw [List.map_map, List.map_map]
        rfl
      show some _ = some (A.sub ((A.pointwise ι).average _ i)
        (A.square ((A.pointwise ι).average fs i)))
      rw [hsquares, Arithmetic.average_pointwise, Arithmetic.average_pointwise]
  | _ =>
      rcases fs with _ | ⟨f, _ | ⟨g, _ | ⟨k, fs⟩⟩⟩ <;> rfl

namespace Formula

mutual
/-- **Functions.** Among functions a formula means the function of its values. -/
theorem meaning_pointwise (point : String → ι → α) (i : ι) : (t : Formula) →
    t.meaning A (fun name => point name i) = (t.meaning (A.pointwise ι) point).map (· i)
  | .const value => by
      rw [meaning, meaning]
      cases value == Binary64.eulerNumber <;> rfl
  | .var name => rfl
  | .apply symbol xs => by
      rw [meaning, meaning, meanings_pointwise point i xs]
      cases Operation.ofSymbol? symbol with
      | none => rfl
      | some o =>
          cases meanings (A.pointwise ι) point xs with
          | error fault => rfl
          | ok fs =>
              simp only [Except.map]
              rw [Operation.means?_pointwise]
              cases o.means? (A.pointwise ι) fs <;> rfl
theorem meanings_pointwise (point : String → ι → α) (i : ι) : (xs : List Formula) →
    meanings A (fun name => point name i) xs =
      (meanings (A.pointwise ι) point xs).map (List.map (· i))
  | [] => rfl
  | x :: xs => by
      rw [meanings, meanings, meaning_pointwise point i x, meanings_pointwise point i xs]
      cases x.meaning (A.pointwise ι) point with
      | error fault => rfl
      | ok f => cases meanings (A.pointwise ι) point xs <;> rfl
end

end Formula
end Formulary
