import Formulary.Formula.Memo
import Formulary.Proofs.Formula.LeftSpine
import Formulary.Proofs.Formula.Sameness

/-!
# What a formula remembers

A node remembers its size and its digest once it has been asked for them, and whoever holds
the node can make it forget them again. What is remembered is right all the same: a call
leaves nothing wrong behind (`call_eq`), wherever in the formula it is made
(`Reachable.follows`). So memory never shows, but for the time that it saves.

One node may stand in several places of a formula. What it remembers is then seen in all of
them, which is as if it were copied from one place to another where the same formula stands.
-/

namespace Formulary

theorem Formula.nanFree_of_at? {t x : Formula} {path : List Nat} (ht : t.nanFree = true)
    (hx : t.at? path = some x) : x.nanFree = true := by
  induction path generalizing t with
  | nil =>
      obtain rfl := Option.some.inj hx
      exact ht
  | cons i path ih =>
      rw [Formula.at?, Option.bind_eq_some_iff] at hx
      obtain ⟨y, hy, hx⟩ := hx
      refine ih ?_ hx
      cases t with
      | const value => cases hy
      | var name => cases hy
      | apply symbol xs => exact Formula.nanFree_apply.mp ht y (List.mem_of_getElem? hy)

/-- Whether the slots hold nothing but the size and the digest of a formula. -/
structure Slots.Right (s : Slots) (t : Formula) : Prop where
  size : ∀ n, s.size? = some n → n = t.size
  digest : ∀ d, s.digest? = some d → d = t.digest 0

namespace Slots

variable {s : Slots} {t : Formula}

theorem right_empty (t : Formula) : Slots.Right {} t where
  size _ h := by cases h
  digest _ h := by cases h

theorem Right.withSize (h : s.Right t) {n : Nat} (hn : n = t.size) :
    Slots.Right { s with size? := some n } t where
  size _ hk := (Option.some.inj hk).symm.trans hn
  digest := h.digest

theorem Right.withDigest (h : s.Right t) {d : Digest} (hd : d = t.digest 0) :
    Slots.Right { s with digest? := some d } t where
  size := h.size
  digest _ he := (Option.some.inj he).symm.trans hd

theorem Right.clear (h : s.Right t) (slot : Slot) : (s.clear slot).Right t := by
  cases slot with
  | size =>
      refine ⟨fun n hn => ?_, h.digest⟩
      cases hn
  | digest =>
      refine ⟨h.size, fun d hd => ?_⟩
      cases hd

theorem Right.size_getD (h : s.Right t) : s.size?.getD t.size = t.size := by
  cases hs : s.size? with
  | none => rfl
  | some n => exact h.size n hs

theorem Right.remembered (h : s.Right t) : Memo.remembered s (t.digest 0) = t.digest 0 := by
  unfold Memo.remembered
  cases hs : s.digest? with
  | none => rfl
  | some d => exact h.digest d hs

end Slots

theorem Slot.ofName?_eq_none {field : String} (h : ∀ slot : Slot, slot.name ≠ field) :
    Slot.ofName? field = none := by
  simp [Slot.ofName?, h]

namespace Memo

mutual
/-- Whether every node remembers only what is right. -/
def Sound : Memo → Prop
  | .const s value => s.Right (.const value)
  | .var s name => s.Right (.var name)
  | .apply s symbol xs => s.Right (.apply symbol (formulaAll xs)) ∧ SoundAll xs
def SoundAll : List Memo → Prop
  | [] => True
  | x :: xs => Sound x ∧ SoundAll xs
end

theorem formulaAll_eq (xs : List Memo) : formulaAll xs = xs.map formula := by
  induction xs with
  | nil => rfl
  | cons x xs ih => rw [formulaAll, ih, List.map_cons]

theorem soundAll_iff {xs : List Memo} : SoundAll xs ↔ ∀ x ∈ xs, x.Sound := by
  induction xs with
  | nil => exact iff_of_true trivial (List.forall_mem_nil _)
  | cons x xs ih => rw [SoundAll, ih, List.forall_mem_cons]

theorem Sound.slots {m : Memo} (h : m.Sound) : m.slots.Right m.formula := by
  cases m with
  | const s value => exact h
  | var s name => exact h
  | apply s symbol xs => exact h.1

/-- The same formula with the same memory, the root's own apart. -/
theorem Sound.withSlots {m : Memo} (h : m.Sound) {s : Slots} (hs : s.Right m.formula) :
    (m.withSlots s).Sound ∧ (m.withSlots s).formula = m.formula := by
  cases m with
  | const _ value => exact ⟨hs, rfl⟩
  | var _ name => exact ⟨hs, rfl⟩
  | apply _ symbol xs => exact ⟨⟨hs, h.2⟩, rfl⟩

/-! ## A fresh memo -/

mutual
theorem formula_fresh : (t : Formula) → (fresh t).formula = t
  | .const _ => rfl
  | .var _ => rfl
  | .apply symbol xs => by rw [fresh, formula, formulaAll_fresh xs]
theorem formulaAll_fresh : (xs : List Formula) → formulaAll (freshAll xs) = xs
  | [] => rfl
  | x :: xs => by rw [freshAll, formulaAll, formula_fresh x, formulaAll_fresh xs]
end

mutual
theorem sound_fresh : (t : Formula) → (fresh t).Sound
  | .const _ => Slots.right_empty _
  | .var _ => Slots.right_empty _
  | .apply _ xs => ⟨Slots.right_empty _, soundAll_fresh xs⟩
theorem soundAll_fresh : (xs : List Formula) → SoundAll (freshAll xs)
  | [] => trivial
  | x :: xs => ⟨sound_fresh x, soundAll_fresh xs⟩
end

/-! ## Sizes and digests -/

/-- Whether a memo is one of the same formula that remembers only what is right. -/
structure Follows (m m' : Memo) : Prop where
  sound : m'.Sound
  formula : m'.formula = m.formula

theorem follows_apply {s s' : Slots} {symbol : String} {xs xs' : List Memo}
    (hs : s'.Right (.apply symbol (formulaAll xs))) (hsound : SoundAll xs')
    (hformula : formulaAll xs' = formulaAll xs) :
    (Memo.apply s symbol xs).Follows (.apply s' symbol xs') := by
  refine ⟨⟨?_, hsound⟩, ?_⟩
  · rwa [hformula]
  · rw [formula, formula, hformula]

mutual
/-- Asked for its size, a memo gives the number of nodes. -/
theorem size_eq : (m : Memo) → m.Sound → ∃ m', m.size = (m.formula.size, m') ∧ m.Follows m'
  | .const s value, h => by
      have hs : s.size?.getD 1 = 1 := Slots.Right.size_getD (t := .const value) h
      refine ⟨.const { s with size? := some 1 } value, ?_, h.withSize rfl, rfl⟩
      rw [size, hs]
      rfl
  | .var s name, h => by
      have hs : s.size?.getD 1 = 1 := Slots.Right.size_getD (t := .var name) h
      refine ⟨.var { s with size? := some 1 } name, ?_, h.withSize rfl, rfl⟩
      rw [size, hs]
      rfl
  | .apply s symbol xs, h => by
      cases hs : s.size? with
      -- nothing below a filled slot is asked
      | some n =>
          refine ⟨.apply s symbol xs, ?_, h, rfl⟩
          simp only [size, hs]
          rw [h.1.size n hs]
          rfl
      | none =>
          obtain ⟨xs', hxs, hsound, hformula⟩ := sizeAll_eq xs h.2
          refine ⟨.apply { s with size? := some (1 + Formula.sizeAll (formulaAll xs)) } symbol xs',
            ?_, follows_apply (h.1.withSize rfl) hsound hformula⟩
          simp only [size, hs, hxs]
          rfl
theorem sizeAll_eq : (xs : List Memo) → SoundAll xs →
    ∃ xs', sizeAll xs = (Formula.sizeAll (formulaAll xs), xs') ∧ SoundAll xs' ∧
      formulaAll xs' = formulaAll xs
  | [], _ => ⟨[], rfl, trivial, rfl⟩
  | x :: xs, h => by
      obtain ⟨x', hx, hfollows⟩ := size_eq x h.1
      obtain ⟨xs', hxs, hsound, hformula⟩ := sizeAll_eq xs h.2
      refine ⟨x' :: xs', ?_, ⟨hfollows.sound, hsound⟩, ?_⟩
      · simp only [sizeAll, hx, hxs]
        rfl
      · rw [formulaAll, formulaAll, hfollows.formula, hformula]
end

mutual
/-- Asked for its digest, a memo gives that of its formula. -/
theorem digest_eq : (m : Memo) → m.Sound →
    ∃ m', m.digest = (m.formula.digest 0, m') ∧ m.Follows m'
  | .const s value, h => by
      have hs := Slots.Right.remembered (t := .const value) h
      refine ⟨.const { s with digest? := some ((Formula.const value).digest 0) } value, ?_,
        h.withDigest rfl, rfl⟩
      simp only [digest, hs]
      rfl
  | .var s name, h => by
      have hs : remembered s (.var name) = .var name :=
        Slots.Right.remembered (t := .var name) h
      refine ⟨.var { s with digest? := some (.var name) } name, ?_, h.withDigest rfl, rfl⟩
      simp only [digest, hs]
      rfl
  | .apply s symbol xs, h => by
      cases hs : s.digest? with
      | some d =>
          refine ⟨.apply s symbol xs, ?_, h, rfl⟩
          simp only [digest, hs]
          rw [h.1.digest d hs]
          rfl
      | none =>
          obtain ⟨xs', hxs, hsound, hformula⟩ := digestAll_eq xs h.2
          refine ⟨.apply { s with
            digest? := some (.apply symbol (Formula.digestAll 0 (formulaAll xs))) } symbol xs',
            ?_, follows_apply (h.1.withDigest rfl) hsound hformula⟩
          simp only [digest, hs, hxs]
          rfl
theorem digestAll_eq : (xs : List Memo) → SoundAll xs →
    ∃ xs', digestAll xs = (Formula.digestAll 0 (formulaAll xs), xs') ∧ SoundAll xs' ∧
      formulaAll xs' = formulaAll xs
  | [], _ => ⟨[], rfl, trivial, rfl⟩
  | x :: xs, h => by
      obtain ⟨x', hx, hfollows⟩ := digest_eq x h.1
      obtain ⟨xs', hxs, hsound, hformula⟩ := digestAll_eq xs h.2
      refine ⟨x' :: xs', ?_, ⟨hfollows.sound, hsound⟩, ?_⟩
      · simp only [digestAll, hx, hxs]
        rfl
      · rw [formulaAll, formulaAll, hfollows.formula, hformula]
end

/-! ## One call -/

/-- What is answered without any memory. -/
def answer (t : Formula) : Call → Answer
  | .size => .size t.size
  | .digest => .digest (t.digest 0)
  | .same other => .truth (t.same false other)
  | .write p => .text (t.write p)
  | .writeFlat => .text t.writeFlat
  | .writeConstructors => .text t.writeConstructors
  | .derivative name => .derivative (t.derivative name)
  | .evaluate arguments => .value (t.evaluateAt arguments)
  | .assign field => if (Slot.ofName? field).isSome then .done else .immutable t.kindName
  | .erase _ => .immutable t.kindName

/-- **One call.** A memo that remembers only what is right answers as if it remembered nothing, and
remembers only what is right afterwards. -/
theorem call_eq {m : Memo} (h : m.Sound) (c : Call) :
    ∃ m', m.call c = (answer m.formula c, m') ∧ m.Follows m' := by
  have hself : m.Follows m := ⟨h, rfl⟩
  cases c with
  | size =>
      obtain ⟨m', hm, hfollows⟩ := m.size_eq h
      exact ⟨m', by simp only [call, hm, answer], hfollows⟩
  | digest =>
      obtain ⟨m', hm, hfollows⟩ := m.digest_eq h
      exact ⟨m', by simp only [call, hm, answer], hfollows⟩
  | assign field =>
      cases hfield : Slot.ofName? field with
      | none => exact ⟨m, by simp [call, answer, hfield], hself⟩
      | some slot =>
          obtain ⟨hsound, hformula⟩ := h.withSlots (h.slots.clear slot)
          exact ⟨_, by simp only [call, answer, hfield]; rfl, hsound, hformula⟩
  | _ => exact ⟨m, rfl, hself⟩

theorem call_fresh (t : Formula) (c : Call) : ((fresh t).call c).1 = answer t c := by
  obtain ⟨m', hm, -⟩ := call_eq (sound_fresh t) c
  rw [hm, formula_fresh]

/-! ## Places in a formula -/

def operands : Memo → List Memo
  | .const _ _ => []
  | .var _ _ => []
  | .apply _ _ xs => xs

def withOperands (ys : List Memo) : Memo → Memo
  | .const s value => .const s value
  | .var s name => .var s name
  | .apply s symbol _ => .apply s symbol ys

/-- The node that a path of operand positions leads to. -/
def at? (m : Memo) : List Nat → Option Memo
  | [] => some m
  | i :: path => m.operands[i]?.bind fun x => x.at? path

/-- A memo with another one in a place of it. -/
def replaceAt (m : Memo) : List Nat → Memo → Memo
  | [], x => x
  | i :: path, x =>
    match m.operands[i]? with
    | none => m
    | some y => m.withOperands (m.operands.set i (y.replaceAt path x))

theorem withOperands_self (m : Memo) : m.withOperands m.operands = m := by
  cases m <;> rfl

theorem operands_formula (m : Memo) : m.formula.operands = m.operands.map formula := by
  cases m with
  | const s value => rfl
  | var s name => rfl
  | apply s symbol xs => exact formulaAll_eq xs

theorem at?_cons_eq_some_iff {m x : Memo} {i : Nat} {path : List Nat} :
    m.at? (i :: path) = some x ↔ ∃ y, m.operands[i]? = some y ∧ y.at? path = some x :=
  Option.bind_eq_some_iff

theorem at?_formula (m : Memo) (path : List Nat) :
    (m.at? path).map formula = m.formula.at? path := by
  induction path generalizing m with
  | nil => rfl
  | cons i path ih =>
      rw [at?, Formula.at?, operands_formula, List.getElem?_map]
      cases m.operands[i]? with
      | none => rfl
      | some x => exact ih x

theorem replaceAt_cons {m y : Memo} {i : Nat} (hy : m.operands[i]? = some y) (path : List Nat)
    (x : Memo) :
    m.replaceAt (i :: path) x = m.withOperands (m.operands.set i (y.replaceAt path x)) := by
  rw [replaceAt, hy]

theorem replaceAt_self {m x : Memo} {path : List Nat} (h : m.at? path = some x) :
    m.replaceAt path x = m := by
  induction path generalizing m with
  | nil => exact (Option.some.inj h).symm
  | cons i path ih =>
      obtain ⟨y, hy, hx⟩ := at?_cons_eq_some_iff.mp h
      rw [replaceAt_cons hy, ih hx]
      obtain ⟨hi, rfl⟩ := List.getElem?_eq_some_iff.mp hy
      rw [List.set_getElem_self, withOperands_self]

/-- A call on a node changes the memory in its place. -/
theorem callAt_eq (path : List Nat) (c : Call) (m : Memo) :
    m.callAt path c = (m.at? path).map fun x => ((x.call c).1, m.replaceAt path (x.call c).2) := by
  induction path generalizing m with
  | nil => rfl
  | cons i path ih =>
      cases m with
      | const s value => rfl
      | var s name => rfl
      | apply s symbol xs =>
          rw [at?, operands, callAt]
          cases hx : xs[i]? with
          | none => rfl
          | some x =>
              have hreplace := replaceAt_cons (m := .apply s symbol xs) hx path
              simp only [ih, Option.bind_some, Option.map_map, hreplace]
              rfl

theorem Sound.operands {m : Memo} (h : m.Sound) : ∀ x ∈ m.operands, x.Sound := by
  cases m with
  | const s value => exact List.forall_mem_nil _
  | var s name => exact List.forall_mem_nil _
  | apply s symbol xs => exact soundAll_iff.mp h.2

theorem Sound.at? {m x : Memo} {path : List Nat} (h : m.Sound) (hx : m.at? path = some x) :
    x.Sound := by
  induction path generalizing m with
  | nil =>
      obtain rfl := Option.some.inj hx
      exact h
  | cons i path ih =>
      obtain ⟨y, hy, hx⟩ := at?_cons_eq_some_iff.mp hx
      exact ih (h.operands y (List.mem_of_getElem? hy)) hx

/-- The operands may be others of the same formulas. -/
theorem Sound.withOperands {m : Memo} (h : m.Sound) {ys : List Memo} (hys : ∀ y ∈ ys, y.Sound)
    (hformulas : ys.map Memo.formula = m.operands.map Memo.formula) :
    m.Follows (m.withOperands ys) := by
  cases m with
  | const s value => exact ⟨h, rfl⟩
  | var s name => exact ⟨h, rfl⟩
  | apply s symbol xs =>
      have hall : formulaAll ys = formulaAll xs := by
        rw [formulaAll_eq, formulaAll_eq]
        exact hformulas
      exact follows_apply h.1 (soundAll_iff.mpr hys) hall

/-- What follows the node in a place can take its place. -/
theorem Follows.replaceAt {m x x' : Memo} {path : List Nat} (hm : m.Sound)
    (hx : m.at? path = some x) (h : x.Follows x') : m.Follows (m.replaceAt path x') := by
  induction path generalizing m with
  | nil =>
      obtain rfl := Option.some.inj hx
      exact h
  | cons i path ih =>
      obtain ⟨y, hy, hx⟩ := at?_cons_eq_some_iff.mp hx
      have hoperand := ih (hm.operands y (List.mem_of_getElem? hy)) hx
      rw [replaceAt_cons hy]
      refine hm.withOperands (fun z hz => ?_) ?_
      · rcases List.mem_or_eq_of_mem_set hz with hz | rfl
        · exact hm.operands z hz
        · exact hoperand.sound
      · obtain ⟨hi, rfl⟩ := List.getElem?_eq_some_iff.mp hy
        rw [List.map_set, hoperand.formula, ← List.map_set, List.set_getElem_self]

/-! ## Any number of calls -/

/-- What a formula that remembers nothing at first can come to remember. -/
inductive Reachable (t : Formula) : Memo → Prop
  | fresh : Reachable t (Memo.fresh t)
  | call {m m' : Memo} {path : List Nat} {c : Call} {a : Answer} : Reachable t m →
      m.callAt path c = some (a, m') → Reachable t m'
  /-- the same node stands in both places -/
  | share {m x y : Memo} {source target : List Nat} : Reachable t m → m.at? source = some x →
      m.at? target = some y → x.formula = y.formula → Reachable t (m.replaceAt target x)

/-- **Memory.** Whatever calls are made, wherever, the formula stays as it is and what is remembered
of it is right. -/
theorem Reachable.follows {t : Formula} {m : Memo} (h : Reachable t m) :
    (Memo.fresh t).Follows m := by
  induction h with
  | fresh => exact ⟨sound_fresh t, rfl⟩
  | @call m m' path c a _ hcall ih =>
      rw [callAt_eq, Option.map_eq_some_iff] at hcall
      obtain ⟨x, hx, hresult⟩ := hcall
      obtain ⟨x', hx', hfollows⟩ := call_eq (ih.sound.at? hx) c
      rw [hx'] at hresult
      cases hresult
      have hlater := Follows.replaceAt ih.sound hx hfollows
      exact ⟨hlater.sound, hlater.formula.trans ih.formula⟩
  | @share m x y source target _ hx hy hformula ih =>
      have hlater := Follows.replaceAt ih.sound hy ⟨ih.sound.at? hx, hformula⟩
      exact ⟨hlater.sound, hlater.formula.trans ih.formula⟩

/-- **Nothing shows.** After any calls on the nodes of a formula without non-numbers, each node
remembers only the number of its nodes and its digest, wherever it was made. It answers every call
as a fresh copy of it, with what is asked for. An assignment, unless it empties a slot, and an
erasure are refused, and they change nothing. -/
theorem reachable_answers {t : Formula} (ht : t.nanFree = true) {m : Memo} (hm : Reachable t m)
    {path : List Nat} {x : Formula} (hx : t.at? path = some x) :
    ∃ y, m.at? path = some y ∧ y.formula = x ∧
      (∀ n, y.slots.size? = some n → n = x.size) ∧
      (∀ d, y.slots.digest? = some d → ∀ origin, d = x.digest origin) ∧
      (∀ c, ∃ m', m.callAt path c = some (answer x c, m') ∧ Reachable t m' ∧
        answer x c = ((fresh x).call c).1) ∧
      (∀ field, (∀ slot : Slot, slot.name ≠ field) →
        m.callAt path (.assign field) = some (.immutable x.kindName, m)) ∧
      ∀ field, m.callAt path (.erase field) = some (.immutable x.kindName, m) := by
  have hnan := Formula.nanFree_of_at? ht hx
  obtain ⟨hsound, hformula⟩ := hm.follows
  rw [formula_fresh] at hformula
  rw [← hformula, ← at?_formula, Option.map_eq_some_iff] at hx
  obtain ⟨y, hy, rfl⟩ := hx
  have hslots := (hsound.at? hy).slots
  refine ⟨y, hy, rfl, hslots.size, fun d hd origin => ?_, fun c => ?_, fun field hfield => ?_,
    fun field => ?_⟩
  · rw [hslots.digest d hd, Formula.digest_origin hnan]
  · obtain ⟨y', hy', -⟩ := call_eq (hsound.at? hy) c
    have hcall : m.callAt path c = some (answer y.formula c, m.replaceAt path y') := by
      rw [callAt_eq, hy, Option.map_some, hy']
    exact ⟨_, hcall, hm.call hcall, (call_fresh y.formula c).symm⟩
  · have hcall : y.call (.assign field) = (.immutable y.formula.kindName, y) := by
      simp only [call, Slot.ofName?_eq_none hfield]
    rw [callAt_eq, hy, Option.map_some, hcall, replaceAt_self hy]
  · have hcall : y.call (.erase field) = (.immutable y.formula.kindName, y) := rfl
    rw [callAt_eq, hy, Option.map_some, hcall, replaceAt_self hy]

/-- A variable increased by one. -/
def increased : Formula := .apply "+" [.var "x", .const (Float.ofNat 1)]

/-- The variable has forgotten its size, the sum has not. -/
def increasedForgetful : Memo :=
  .apply { size? := some 3 } "+" [.var {} "x", .const { size? := some 1 } (Float.ofNat 1)]

/-- Asked for its size again, the variable answers as before. -/
theorem reachable_answers_increasedForgetful :
    increased.nanFree = true ∧ Reachable increased increasedForgetful ∧
      increased.at? [0] = some (.var "x") ∧
      (∃ m, increasedForgetful.callAt [0] .size = some (.size 1, m) ∧ Reachable increased m) ∧
      increasedForgetful.callAt [0] (.assign "name") =
        some (.immutable "VariableNode", increasedForgetful) := by
  have hnan : increased.nanFree = true := by decide
  have hplace : increased.at? [0] = some (.var "x") := rfl
  have hasked : (fresh increased).callAt [] .size = some (.size 3, (fresh increased).size.2) := rfl
  have hemptied : (fresh increased).size.2.callAt [0] (.assign "_size_cache") =
      some (.done, increasedForgetful) := rfl
  have hreachable := (Reachable.fresh.call hasked).call hemptied
  obtain ⟨y, -, -, -, -, hcall, hassign, -⟩ := reachable_answers hnan hreachable hplace
  obtain ⟨m, hm, hlater, -⟩ := hcall .size
  refine ⟨hnan, hreachable, hplace, ⟨m, hm, hlater⟩, hassign "name" fun slot => ?_⟩
  cases slot <;> decide

end Memo
end Formulary
