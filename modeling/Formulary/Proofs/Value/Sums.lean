import Formulary.Proofs.Value.Homomorphism
import Mathlib

/-!
# Sums in any order

However the terms of a mean are added up, in a row, in lanes or in halves, every term
is added once and nothing else is but zeros (`sums_terms`). What holds of zeros
and of the terms, and of a sum when it holds of its parts, holds of the whole then.
-/

namespace Formulary.Arithmetic

variable {α : Type} (A : Arithmetic α)

/-- What comes of adding up some terms in some order, with zeros among them. -/
inductive Sums : Multiset α → α → Prop
  | zero : Sums 0 A.zero
  | negZero : Sums 0 A.negZero
  | term (x : α) : Sums {x} x
  | add {s t : Multiset α} {a b : α} : Sums s a → Sums t b → Sums (s + t) (A.add a b)

variable {A}

theorem Sums.sumFrom {s : Multiset α} {start : α} (h : A.Sums s start) (terms : List α) :
    A.Sums (s + terms) (A.sumFrom start terms) := by
  induction terms generalizing s start with
  | nil =>
      show A.Sums (s + 0) start
      rwa [add_zero]
  | cons x terms ih =>
      have hlater := ih (h.add (.term x))
      rwa [add_assoc, Multiset.singleton_add, Multiset.cons_coe] at hlater

/-- What has been added up in each of the lanes. -/
structure SumsInLanes (A : Arithmetic α) (c : Lanes (Multiset α)) (l : Lanes α) : Prop where
  l0 : A.Sums c.l0 l.l0
  l1 : A.Sums c.l1 l.l1
  l2 : A.Sums c.l2 l.l2
  l3 : A.Sums c.l3 l.l3
  l4 : A.Sums c.l4 l.l4
  l5 : A.Sums c.l5 l.l5
  l6 : A.Sums c.l6 l.l6
  l7 : A.Sums c.l7 l.l7

theorem SumsInLanes.joinLanes {c : Lanes (Multiset α)} {l : Lanes α} (h : A.SumsInLanes c l) :
    A.Sums (c.l0 + c.l1 + (c.l2 + c.l3) + (c.l4 + c.l5 + (c.l6 + c.l7))) (A.joinLanes l) :=
  (((h.l0.add h.l1).add (h.l2.add h.l3)).add ((h.l4.add h.l5).add (h.l6.add h.l7)))

theorem SumsInLanes.sumLanes {c : Lanes (Multiset α)} {l : Lanes α} (h : A.SumsInLanes c l)
    (terms : List α) :
    A.Sums (c.l0 + c.l1 + (c.l2 + c.l3) + (c.l4 + c.l5 + (c.l6 + c.l7)) + terms)
      (A.sumLanes l terms) := by
  fun_induction A.sumLanes l terms generalizing c with
  | case1 l x0 x1 x2 x3 x4 x5 x6 x7 xs ih =>
      have hround := @ih ⟨c.l0 + {x0}, c.l1 + {x1}, c.l2 + {x2}, c.l3 + {x3}, c.l4 + {x4},
          c.l5 + {x5}, c.l6 + {x6}, c.l7 + {x7}⟩
        ⟨h.l0.add (.term x0), h.l1.add (.term x1), h.l2.add (.term x2), h.l3.add (.term x3),
          h.l4.add (.term x4), h.l5.add (.term x5), h.l6.add (.term x6), h.l7.add (.term x7)⟩
      convert hround using 1
      simp only [← Multiset.cons_coe, ← Multiset.singleton_add]
      abel
  | case2 l xs hfew => exact h.joinLanes.sumFrom xs

theorem sums_sumBlock (terms : List α) : A.Sums terms (A.sumBlock terms) := by
  fun_cases A.sumBlock terms with
  | case1 x0 x1 x2 x3 x4 x5 x6 x7 xs =>
      have hlanes : A.SumsInLanes ⟨{x0}, {x1}, {x2}, {x3}, {x4}, {x5}, {x6}, {x7}⟩
          ⟨x0, x1, x2, x3, x4, x5, x6, x7⟩ :=
        ⟨.term _, .term _, .term _, .term _, .term _, .term _, .term _, .term _⟩
      convert hlanes.sumLanes xs using 1
      simp only [← Multiset.cons_coe, ← Multiset.singleton_add]
      abel
  | case2 hfew => simpa using (Sums.negZero (A := A)).sumFrom terms

theorem sums_sumHalves (terms : List α) : A.Sums terms (A.sumHalves terms) := by
  fun_induction A.sumHalves terms with
  | case1 terms hmany n ihtake ihdrop =>
      have hhalves := ihtake.add ihdrop
      rwa [Multiset.coe_add, List.take_append_drop] at hhalves
  | case2 terms hfew => exact sums_sumBlock terms

/-- **Sums.** A sum, taken alone or beside others, is one of its terms in some order. -/
theorem sums_terms (alone : Bool) (terms : List α) :
    A.Sums terms (if alone then A.blockwise terms else A.running terms) := by
  cases alone with
  | true =>
      have h := Sums.zero.add (sums_sumHalves (A := A) terms)
      rwa [zero_add] at h
  | false =>
      have h := (Sums.zero (A := A)).sumFrom terms
      rwa [zero_add] at h

end Formulary.Arithmetic
