import Formulary.Proofs.Reading.Rereading

/-!
# Formulas that are the same

Formulas without non-numbers are the same when nothing is left to tell them apart
but the signs of zeros (`same_iff`), so sameness is an equality in disguise. Whatever
is put together from the operands and does not show the sign of a zero is left as it
is when these signs are dropped (`map_dropZeroSigns`): sizes, depths, texts and digests.
-/

namespace Formulary

namespace Number

/-- Numbers compare equal when they are the same but for the sign of a zero. -/
theorem beq_iff_dropZeroSign {x y : Float} (hx : x.isNaN = false) :
    (x == y) = true ↔ dropZeroSign x = dropZeroSign y := by
  have hself : (x == x) = true := by
    rw [Float.beq_self_iff]
    rintro rfl
    exact absurd hx (by decide)
  have hzeros : (Float.ofBits 0 == 0) = true ∧ (Binary64.negZero == 0) = true := by decide
  have hequal : (Float.ofBits 0 == Binary64.negZero) = true ∧
      (Binary64.negZero == Float.ofBits 0) = true := by decide
  constructor
  · intro h
    rcases Binary64.eq_or_zero_of_beq h with rfl | ⟨hx, hy⟩
    · rfl
    · have hdrop : ∀ {z : Float}, Binary64.magnitude z = 0 → dropZeroSign z = 0 := by
        intro z hz
        rw [dropZeroSign]
        rcases Binary64.eq_of_magnitude_zero hz with rfl | rfl
        · exact if_pos hzeros.1
        · exact if_pos hzeros.2
      rw [hdrop hx, hdrop hy]
  · intro h
    rw [dropZeroSign, dropZeroSign] at h
    cases hx' : x == 0 with
    | true =>
        cases hy' : y == 0 with
        | true =>
            rcases eq_zero_of_beq_zero hx' with rfl | rfl
            · rcases eq_zero_of_beq_zero hy' with rfl | rfl
              · exact hself
              · exact hequal.1
            · rcases eq_zero_of_beq_zero hy' with rfl | rfl
              · exact hequal.2
              · exact hself
        | false =>
            rw [hx', hy', if_pos rfl, if_neg Bool.false_ne_true] at h
            rw [← h] at hy'
            exact absurd hzeros.1 (by rw [show Float.ofBits 0 = 0 by decide, hy']; decide)
    | false =>
        cases hy' : y == 0 with
        | true =>
            rw [hx', hy', if_pos rfl, if_neg Bool.false_ne_true] at h
            rw [h] at hx'
            exact absurd hzeros.1 (by rw [show Float.ofBits 0 = 0 by decide, hx']; decide)
        | false =>
            rw [hx', hy', if_neg Bool.false_ne_true, if_neg Bool.false_ne_true] at h
            rw [← h]
            exact hself

end Number

namespace Formula

theorem nanFreeAll_eq (xs : List Formula) : nanFreeAll xs = xs.all nanFree := by
  induction xs with
  | nil => rfl
  | cons x xs ih => rw [nanFreeAll, ih, List.all_cons]

theorem nanFree_apply {symbol : String} {xs : List Formula} :
    (apply symbol xs).nanFree = true ↔ ∀ x ∈ xs, x.nanFree = true := by
  rw [nanFree, nanFreeAll_eq, List.all_eq_true]

/-- **Sameness.** Formulas without non-numbers are the same when they are equal but for the signs of
their zeros. -/
theorem same_iff {shared : Bool} {a b : Formula} (ha : a.nanFree = true) :
    same shared a b = true ↔ a.dropZeroSigns = b.dropZeroSigns := by
  induction a using operandsInduction generalizing b with
  | const x =>
      rw [nanFree, Bool.not_eq_true'] at ha
      cases b with
      | const y =>
          rw [same, sameValue, ha, Bool.and_false, Bool.false_and, Bool.or_false,
            Number.beq_iff_dropZeroSign ha, dropZeroSigns, dropZeroSigns, Formula.const.injEq]
      | var name => simp [same, dropZeroSigns]
      | apply symbol ys => simp [same, dropZeroSigns]
  | var name =>
      cases b with
      | var other => simp [same, dropZeroSigns]
      | const y => simp [same, dropZeroSigns]
      | apply symbol ys => simp [same, dropZeroSigns]
  | apply symbol xs ih =>
      cases b with
      | const y => simp [same, dropZeroSigns]
      | var other => simp [same, dropZeroSigns]
      | apply other ys =>
          have hall : sameAll shared xs ys = true ↔
              xs.map dropZeroSigns = ys.map dropZeroSigns := by
            rw [nanFree_apply] at ha
            induction xs generalizing ys with
            | nil => cases ys <;> simp [sameAll]
            | cons x xs ihxs =>
                obtain ⟨hx, hxs⟩ := List.forall_mem_cons.mp ha
                obtain ⟨ihx, ihrest⟩ := List.forall_mem_cons.mp ih
                cases ys with
                | nil => simp [sameAll]
                | cons y ys =>
                    rw [sameAll, Bool.and_eq_true, ihx hx, ihxs ihrest hxs, List.map_cons,
                      List.map_cons, List.cons.injEq]
          rw [same, Bool.and_eq_true, beq_iff_eq, hall, dropZeroSigns_apply, dropZeroSigns_apply,
            Formula.apply.injEq]

/-! ## What sameness keeps -/

section Invariants

variable {α : Type} {f : Formula → α}

/-- What is put together from the operands and does not depend on the sign of a zero. -/
theorem map_dropZeroSigns (hconst : ∀ x, f (const (Number.dropZeroSign x)) = f (const x))
    (happly : ∀ symbol xs ys, xs.map f = ys.map f → f (apply symbol xs) = f (apply symbol ys))
    (t : Formula) : f t.dropZeroSigns = f t := by
  induction t using operandsInduction with
  | const x => rw [dropZeroSigns, hconst]
  | var name => rw [dropZeroSigns]
  | apply symbol xs ih =>
      rw [dropZeroSigns_apply]
      refine happly symbol _ _ ?_
      rw [List.map_map]
      exact List.map_congr_left ih

end Invariants

theorem write_dropZeroSigns (p : Placement) (t : Formula) : t.dropZeroSigns.write p = t.write p :=
  map_dropZeroSigns (f := write p)
    (fun x => by rw [write_const, write_const, Number.constant_dropZeroSign])
    (fun symbol xs ys h => by rw [write_apply, write_apply, h]) t

theorem writeFlat_dropZeroSigns (t : Formula) : t.dropZeroSigns.writeFlat = t.writeFlat :=
  map_dropZeroSigns (f := writeFlat)
    (fun x => by rw [writeFlat_const, writeFlat_const, Number.constant_dropZeroSign])
    (fun symbol xs ys h => by rw [writeFlat_apply, writeFlat_apply, h]) t

theorem size_dropZeroSigns (t : Formula) : t.dropZeroSigns.size = t.size :=
  map_dropZeroSigns (f := size) (fun _ => rfl)
    (fun symbol xs ys h => by rw [size, size, sizeAll_eq_foldr, sizeAll_eq_foldr, h]) t

theorem depth_dropZeroSigns (t : Formula) : t.dropZeroSigns.depth = t.depth := by
  have hall : ∀ xs : List Formula, depthAll xs = (xs.map depth).foldr max 0 := by
    intro xs
    induction xs with
    | nil => rfl
    | cons x xs ih => rw [depthAll, ih, List.map_cons, List.foldr_cons]
  exact map_dropZeroSigns (f := depth) (fun _ => rfl)
    (fun symbol xs ys h => by rw [depth, depth, hall, hall, h]) t

theorem digestAll_eq (origin : Nat) (xs : List Formula) :
    digestAll origin xs = xs.map (digest origin) := by
  induction xs with
  | nil => rfl
  | cons x xs ih => rw [digestAll, ih, List.map_cons]

theorem digest_dropZeroSigns (origin : Nat) (t : Formula) :
    t.dropZeroSigns.digest origin = t.digest origin := by
  refine map_dropZeroSigns (f := digest origin) (fun x => ?_) (fun symbol xs ys h => ?_) t
  · rw [Number.dropZeroSign]
    cases hx : x == 0 with
    | true =>
        have hzeros : (0 : Float).isNaN = false ∧ (Float.ofBits 0).isNaN = false ∧
            Binary64.negZero.isNaN = false ∧
            Binary64.residue 0 = Binary64.residue (Float.ofBits 0) ∧
            Binary64.residue 0 = Binary64.residue Binary64.negZero := by decide
        obtain ⟨hzero, hpositive, hnegative, hresidue, hresidue'⟩ := hzeros
        rcases Number.eq_zero_of_beq_zero hx with rfl | rfl
        · simp only [digest, hzero, hpositive, hresidue, if_true]
        · simp only [digest, hzero, hnegative, hresidue', if_true]
    | false => rfl
  · rw [digest, digest, digestAll_eq, digestAll_eq, h]

/-- Where it was made does not matter for the digest of a formula without non-numbers. -/
theorem digest_origin {t : Formula} (h : t.nanFree = true) (i j : Nat) :
    t.digest i = t.digest j := by
  induction t using operandsInduction with
  | const x =>
      rw [nanFree, Bool.not_eq_true'] at h
      rw [digest, digest, h, if_neg Bool.false_ne_true, if_neg Bool.false_ne_true]
  | var name => rfl
  | apply symbol xs ih =>
      rw [nanFree_apply] at h
      rw [digest, digest, digestAll_eq, digestAll_eq]
      exact congrArg (Digest.apply symbol) (List.map_congr_left fun x hx => ih x hx (h x hx))

end Formula
end Formulary
