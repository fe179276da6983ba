/-!
# Grids

A grid is an array of any number of dimensions: a shape, and an entry at every
index. Shapes and indices list the last dimension first, because that is the end
at which the shapes of two grids are aligned. A grid without dimensions is a
single number.

Two shapes join when each dimension that both have is the same in both, or one
in one of them; a grid is read at an index of the joined shape by ignoring the
leading dimensions that it lacks and standing still along dimensions of one.
-/

namespace Formulary

/-- The lengths of the dimensions, the last dimension first. -/
abbrev Shape := List Nat

/-- A position along each dimension, the last dimension first. -/
abbrev Index := List Nat

namespace Shape

/-- The number of entries. -/
def volume (s : Shape) : Nat := s.foldr (· * ·) 1

/-- Two lengths along one dimension: a length of one stretches. -/
def joinLength (a b : Nat) : Option Nat :=
  if a = b then some a else if a = 1 then some b else if b = 1 then some a else none

/-- The shape that both shapes stretch to. -/
def join : Shape → Shape → Option Shape
  | [], t => some t
  | s, [] => some s
  | a :: s, b :: t => do
    let c ← joinLength a b
    let u ← join s t
    return c :: u

/-- The shape that all shapes stretch to. -/
def joinAll (shapes : List Shape) : Option Shape := shapes.foldlM join []

/-- The index in a shape that an index of a joined shape stands for. -/
def project : Shape → Index → Index
  | a :: s, i :: is => (if a = 1 then 0 else i) :: project s is
  | _, _ => []

/-- How many dimensions are left without the leading ones of length one. -/
def reach (s : Shape) : Nat := (s.reverse.dropWhile (· == 1)).length

/-- Whether, when two grids are combined, the second one, of shape `t`, stays at an entry while
the first one, of shape `s`, runs. A single number always does, and nothing does beside a
single number or a grid of its own shape. Otherwise a grid of one entry stays, and so does
one of two entries that lie a whole first grid apart; any other is spread out beforehand
and read entry by entry. -/
def holdsFor (t s : Shape) : Bool :=
  t.isEmpty || !s.isEmpty && s != t &&
    (t.volume == 1 || t.volume == 2 && s.volume != 1 && s.reach < t.reach)

/-- All indices, the last dimension running fastest. -/
def indices : Shape → List Index
  | [] => [[]]
  | a :: s => (indices s).flatMap fun is => (List.range a).map fun i => i :: is

/-- Where an index comes in the list of all indices. -/
def position : Shape → Index → Nat
  | a :: s, i :: is => i + a * position s is
  | _, _ => 0

end Shape

/-- An entry at every index of a shape. -/
structure Grid (α : Type) where
  shape : Shape
  entry : Index → α

namespace Grid

variable {α β γ : Type}

/-- A single number. -/
def scalar (x : α) : Grid α := ⟨[], fun _ => x⟩

/-- A grid from its entries, the last dimension running fastest. -/
def ofEntries (shape : Shape) (entries : Array α) (default : α) : Grid α :=
  ⟨shape, fun i => entries.getD (shape.position i) default⟩

/-- All entries, the last dimension running fastest. -/
def entries (g : Grid α) : List α := g.shape.indices.map g.entry

/-- The entry at an index of a shape that the grid stretches to. -/
def stretched (g : Grid α) (i : Index) : α := g.entry (g.shape.project i)

def map (f : α → β) (g : Grid α) : Grid β := ⟨g.shape, fun i => f (g.entry i)⟩

/-- Two grids combined entry by entry, if their shapes join. -/
def zipWith? (f : α → β → γ) (x : Grid α) (y : Grid β) : Option (Grid γ) :=
  (x.shape.join y.shape).map fun s => ⟨s, fun i => f (x.stretched i) (y.stretched i)⟩

/-- The most dimensions that grids may have to be combined in any number. -/
def mostDimensions : Nat := 32

def isDeep (g : Grid α) : Bool := decide (mostDimensions < g.shape.length)

/-- Any number of grids combined entry by entry, if their shapes join. The function is
told whether the result has a single entry. -/
def combine? (f : Bool → List α → β) (gs : List (Grid α)) : Option (Grid β) :=
  (Shape.joinAll (gs.map shape)).map fun s =>
    ⟨s, fun i => f (s.volume == 1) (gs.map fun g => g.stretched i)⟩

end Grid
end Formulary
