/-!
# Draws

The questions that are tried for a leaf are given by their places in the list of the leaf. Either
all places are taken, or some of them are drawn. Where the draws come from is left open: a source
answers how many places of a list are wanted, and hands on its own state.
-/

namespace QuestionTree

structure DrawSource (γ : Type) where
  /-- Draws a number of items from a list without replacement, in any order, or the whole list if it
  has no more items. -/
  draw : Nat → List Nat → γ → List Nat × γ

namespace DrawSource

variable {γ : Type}

def ascendingOrder (ns : List Nat) : List Nat := ns.mergeSort fun a b => decide (a ≤ b)

/-- Draws a number of items and puts them in ascending order. -/
def drawAscending (source : DrawSource γ) (size : Nat) (items : List Nat) (state : γ) :
    List Nat × γ :=
  let (drawn, state) := source.draw size items state
  (ascendingOrder drawn, state)

/-- The items to be tried: a draw if more than one is asked for, and otherwise all of them. -/
def sample (source : DrawSource γ) (size : Nat) (items : List Nat) (state : γ) : List Nat × γ :=
  if 1 < size then source.drawAscending size items state else (ascendingOrder items, state)

end DrawSource

/-! ### Seeded draws

A generator of words of sixty-four bits that steps its state by a constant and mixes it. Drawing
takes one item after the other out of the list; the generator is stepped once for each item drawn,
so a draw from an empty list leaves it as it was.
-/

/-- The state of a generator of random words. -/
structure Generator where
  state : UInt64
  deriving DecidableEq, Repr

namespace Generator

def ofSeed (seed : Nat) : Generator := ⟨seed.toUInt64⟩

def mix (w : UInt64) : UInt64 :=
  let w := (w ^^^ (w >>> 30)) * 0xBF58476D1CE4E5B9
  let w := (w ^^^ (w >>> 27)) * 0x94D049BB133111EB
  w ^^^ (w >>> 31)

def next (g : Generator) : UInt64 × Generator :=
  let state := g.state + 0x9E3779B97F4A7C15
  (mix state, ⟨state⟩)

def take : Nat → List Nat → Generator → List Nat × Generator
  | 0, _, g => ([], g)
  | _, [], g => ([], g)
  | size + 1, items, g =>
    let (w, g) := g.next
    let place := w.toNat % items.length
    let (drawn, g) := take size (items.eraseIdx place) g
    (items.getD place 0 :: drawn, g)

def source : DrawSource Generator := ⟨take⟩

end Generator

end QuestionTree
