import Formulary.Formula.Sameness
import Formulary.Proofs.Formula.Preorder

/-!
# The left spine

A node is addressed by the positions of the operands on the way to it, and the
left spine is what first operands lead to. The operations with certain symbols
may be confined to it. Operands are confined one by one or as a list, of which
only the first may have such an operation at all, and then a formula is confined
just when it is put together from a list that is (`firstOnly_concat_apply`).
-/

namespace Formulary.Formula

/-- The node that a path of operand positions leads to. -/
def at? (t : Formula) : List Nat → Option Formula
  | [] => some t
  | i :: path => t.operands[i]?.bind fun x => x.at? path

/-- The operation symbol of the node that a path leads to. -/
def symbolAt? (t : Formula) (path : List Nat) : Option String := (t.at? path).bind symbol?

/-- Every operation with such a symbol is reached through first operands only. -/
def OnLeftSpine (p : String → Prop) (t : Formula) : Prop :=
  ∀ path symbol, t.symbolAt? path = some symbol → p symbol → ∀ i ∈ path, i = 0

/-- No operation has such a symbol. -/
def Without (p : String → Prop) (t : Formula) : Prop :=
  ∀ path symbol, t.symbolAt? path = some symbol → ¬ p symbol

/-- Of several formulas the first has such operations on its left spine, the others none. -/
def FirstOnly (p : String → Prop) : List Formula → Prop
  | [] => True
  | x :: xs => x.OnLeftSpine p ∧ ∀ y ∈ xs, y.Without p

variable {p : String → Prop}

/-! ## Paths -/

theorem symbolAt?_nil (t : Formula) : t.symbolAt? [] = t.symbol? := rfl

theorem symbolAt?_cons (t : Formula) (i : Nat) (path : List Nat) :
    t.symbolAt? (i :: path) = t.operands[i]?.bind fun x => x.symbolAt? path :=
  Option.bind_assoc ..

theorem symbolAt?_cons_eq_some_iff {t : Formula} {i : Nat} {path : List Nat} {symbol : String} :
    t.symbolAt? (i :: path) = some symbol ↔
      ∃ x, t.operands[i]? = some x ∧ x.symbolAt? path = some symbol := by
  rw [symbolAt?_cons, Option.bind_eq_some_iff]

/-- A path to an operation of an operand goes on from the operand's position. -/
theorem exists_symbolAt?_of_mem {t x : Formula} (hx : x ∈ t.operands) {path : List Nat}
    {symbol : String} (h : x.symbolAt? path = some symbol) :
    ∃ i, t.symbolAt? (i :: path) = some symbol := by
  obtain ⟨i, hi⟩ := List.mem_iff_getElem?.mp hx
  exact ⟨i, symbolAt?_cons_eq_some_iff.mpr ⟨x, hi, h⟩⟩

theorem mem_symbols_of_symbolAt? {t : Formula} {path : List Nat} {symbol : String}
    (h : t.symbolAt? path = some symbol) : symbol ∈ t.symbols := by
  have hsymbols : ∀ t : Formula, t.symbols = t.symbol?.toList ++ t.operands.flatMap symbols :=
    filterMap_nodes symbol?
  induction path generalizing t with
  | nil =>
      rw [hsymbols, ← symbolAt?_nil, h]
      exact List.mem_append_left _ List.mem_cons_self
  | cons i path ih =>
      obtain ⟨x, hx, hpath⟩ := symbolAt?_cons_eq_some_iff.mp h
      rw [hsymbols]
      exact List.mem_append_right _
        (List.mem_flatMap.mpr ⟨x, List.mem_of_getElem? hx, ih hpath⟩)

theorem without_of_symbols {t : Formula} (h : ∀ symbol ∈ t.symbols, ¬ p symbol) : t.Without p :=
  fun _ symbol hpath => h symbol (mem_symbols_of_symbolAt? hpath)

/-! ## Confined operations -/

theorem Without.onLeftSpine {t : Formula} (h : t.Without p) : t.OnLeftSpine p :=
  fun path symbol hpath hp => absurd hp (h path symbol hpath)

/-- A formula that is no operation has none. -/
theorem without_of_operands {t : Formula} (hsymbol : t.symbol? = none)
    (hoperands : t.operands = []) : t.Without p := by
  intro path symbol hpath
  cases path with
  | nil =>
      rw [symbolAt?_nil, hsymbol] at hpath
      cases hpath
  | cons i path =>
      rw [symbolAt?_cons, hoperands] at hpath
      cases hpath

theorem without_apply {symbol : String} {xs : List Formula} :
    (apply symbol xs).Without p ↔ ¬ p symbol ∧ ∀ x ∈ xs, x.Without p := by
  constructor
  · intro h
    refine ⟨h [] symbol rfl, fun x hx path name hpath => ?_⟩
    obtain ⟨i, hi⟩ := exists_symbolAt?_of_mem (t := apply symbol xs) hx hpath
    exact h (i :: path) name hi
  · rintro ⟨hsymbol, hxs⟩ path name hpath
    cases path with
    | nil =>
        cases hpath
        exact hsymbol
    | cons i path =>
        obtain ⟨x, hx, hname⟩ := symbolAt?_cons_eq_some_iff.mp hpath
        exact hxs x (List.mem_of_getElem? hx) path name hname

/-- The root is on the left spine, so that only the operands matter. -/
theorem onLeftSpine_apply {symbol : String} {xs : List Formula} :
    (apply symbol xs).OnLeftSpine p ↔ FirstOnly p xs := by
  constructor
  · intro h
    cases xs with
    | nil => trivial
    | cons x xs =>
        refine ⟨fun path name hpath hp i hi => ?_, fun y hy path name hpath hp => ?_⟩
        · exact h (0 :: path) name hpath hp i (List.mem_cons_of_mem _ hi)
        · obtain ⟨j, hj⟩ := List.mem_iff_getElem?.mp hy
          have hbehind : (apply symbol (x :: xs)).symbolAt? ((j + 1) :: path) = some name :=
            symbolAt?_cons_eq_some_iff.mpr ⟨y, hj, hpath⟩
          exact Nat.succ_ne_zero j (h _ name hbehind hp (j + 1) List.mem_cons_self)
  · intro h path name hpath hp i hi
    cases path with
    | nil => cases hi
    | cons j path =>
        obtain ⟨y, hy, hname⟩ := symbolAt?_cons_eq_some_iff.mp hpath
        cases xs with
        | nil => cases hy
        | cons x xs =>
            obtain ⟨hx, hxs⟩ := h
            cases j with
            | zero =>
                cases hy
                rcases List.mem_cons.mp hi with rfl | hi
                · rfl
                · exact hx path name hname hp i hi
            | succ j => exact absurd hp (hxs y (List.mem_of_getElem? hy) path name hname)

theorem firstOnly_singleton {t : Formula} : FirstOnly p [t] ↔ t.OnLeftSpine p := by
  simp [FirstOnly]

/-- **Putting together.** When the last of several formulas are made the operands of one, they are
confined as before, but the operation itself may have such a symbol only if nothing is left
before it. -/
theorem firstOnly_concat_apply {symbol : String} {ts xs : List Formula} :
    FirstOnly p (ts ++ [apply symbol xs]) ↔ FirstOnly p (ts ++ xs) ∧ (ts ≠ [] → ¬ p symbol) := by
  cases ts with
  | nil => simp [firstOnly_singleton, onLeftSpine_apply]
  | cons t ts =>
      simp only [List.cons_append, FirstOnly, List.forall_mem_append, List.forall_mem_singleton,
        without_apply, ne_eq, reduceCtorEq, not_false_eq_true, true_imp_iff]
      constructor
      · rintro ⟨ht, hts, hsymbol, hxs⟩
        exact ⟨⟨ht, hts, hxs⟩, hsymbol⟩
      · rintro ⟨⟨ht, hts, hxs⟩, hsymbol⟩
        exact ⟨ht, hts, hsymbol, hxs⟩

theorem FirstOnly.concat {ts : List Formula} {t : Formula} (h : FirstOnly p ts)
    (ht : t.Without p) : FirstOnly p (ts ++ [t]) := by
  cases ts with
  | nil => exact firstOnly_singleton.mpr ht.onLeftSpine
  | cons u us => exact ⟨h.1, List.forall_mem_append.mpr ⟨h.2, by simpa using ht⟩⟩

theorem FirstOnly.left {ts us : List Formula} (h : FirstOnly p (ts ++ us)) : FirstOnly p ts := by
  cases ts with
  | nil => trivial
  | cons t ts => exact ⟨h.1, fun y hy => h.2 y (List.mem_append_left _ hy)⟩

/-! ## Formulas that are the same -/

theorem map_eq_of_sameAll {α : Type} {shared : Bool} {f : Formula → α} {us ts : List Formula}
    (hf : ∀ u ∈ us, ∀ t, same shared u t = true → f u = f t)
    (h : sameAll shared us ts = true) : us.map f = ts.map f := by
  induction us generalizing ts with
  | nil =>
      cases ts with
      | nil => rfl
      | cons t ts => cases h
  | cons u us ih =>
      cases ts with
      | nil => cases h
      | cons t ts =>
          rw [sameAll, Bool.and_eq_true] at h
          obtain ⟨hhere, hbelow⟩ := List.forall_mem_cons.mp hf
          rw [List.map_cons, List.map_cons, hhere t h.1, ih hbelow h.2]

theorem symbol?_eq_of_same {shared : Bool} {u t : Formula} (h : same shared u t = true) :
    u.symbol? = t.symbol? := by
  cases u <;> cases t <;> simp_all [same, symbol?]

theorem sameAll_operands_of_same {shared : Bool} {u t : Formula} (h : same shared u t = true) :
    sameAll shared u.operands t.operands = true := by
  cases u <;> cases t <;> simp_all [same, operands, sameAll]

/-- Formulas that are the same have the same operations in the same places. -/
theorem symbolAt?_eq_of_same {shared : Bool} {u t : Formula} (h : same shared u t = true)
    (path : List Nat) : u.symbolAt? path = t.symbolAt? path := by
  induction path generalizing u t with
  | nil => exact symbol?_eq_of_same h
  | cons i path ih =>
      have hmap : u.operands.map (symbolAt? · path) = t.operands.map (symbolAt? · path) :=
        map_eq_of_sameAll (fun _ _ _ hsame => ih hsame) (sameAll_operands_of_same h)
      have hat : ∀ t : Formula, t.symbolAt? (i :: path) =
          (t.operands.map (symbolAt? · path))[i]?.join := by
        intro t
        rw [symbolAt?_cons, List.getElem?_map]
        cases t.operands[i]? <;> rfl
      rw [hat, hat, hmap]

theorem onLeftSpine_iff_of_same {shared : Bool} {u t : Formula} (h : same shared u t = true) :
    u.OnLeftSpine p ↔ t.OnLeftSpine p := by
  simp only [OnLeftSpine, symbolAt?_eq_of_same h]

end Formulary.Formula
