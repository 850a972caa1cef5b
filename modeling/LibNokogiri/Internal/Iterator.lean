/-! # The bidirectional iterator

An iterator walks over a range of positions and never leaves it: at either end
a further step does nothing. Positions stand for the underlying iterators of a
vector that does not change its length.
-/

namespace LibNokogiri.Internal

/-- `bi_iterator` over the range from `first` to `last`. The operators `++`, `--`,
`*`, `==` and `!=` have names; the accessor is an argument of `deref`. -/
structure BiIterator where
  first : Nat
  last : Nat
  current : Nat
  first_le : first ≤ current
  le_last : current ≤ last
deriving DecidableEq

namespace BiIterator

def make (first last : Nat) (range : first ≤ last) (forward : Bool) : BiIterator where
  first := first
  last := last
  current := if forward then first else last
  first_le := by
    cases forward
    · exact range
    · exact Nat.le_refl first
  le_last := by
    cases forward
    · exact Nat.le_refl last
    · exact range

def increment (self : BiIterator) : BiIterator :=
  if h : self.current ≠ self.last then
    { self with
      current := self.current + 1
      first_le := Nat.le_succ_of_le self.first_le
      le_last := Nat.lt_of_le_of_ne self.le_last h }
  else self

def decrement (self : BiIterator) : BiIterator :=
  if h : self.current ≠ self.first then
    { self with
      current := self.current - 1
      first_le := Nat.le_sub_one_of_lt (Nat.lt_of_le_of_ne self.first_le h.symm)
      le_last := Nat.le_trans (Nat.sub_le _ _) self.le_last }
  else self

def deref {β : Type} (accessor : Nat → β) (self : BiIterator) : β := accessor self.current

def eq (self a : BiIterator) : Bool := self.current == a.current

def ne (self a : BiIterator) : Bool := !self.eq a

theorem increment_range (self : BiIterator) :
    self.increment.first = self.first ∧ self.increment.last = self.last := by
  unfold increment
  split <;> exact ⟨rfl, rfl⟩

theorem decrement_range (self : BiIterator) :
    self.decrement.first = self.first ∧ self.decrement.last = self.last := by
  unfold decrement
  split <;> exact ⟨rfl, rfl⟩

theorem increment_current (self : BiIterator) :
    self.increment.current = min (self.current + 1) self.last := by
  have hle := self.le_last
  unfold increment
  split
  · dsimp only
    omega
  · omega

theorem decrement_current (self : BiIterator) :
    self.decrement.current = max (self.current - 1) self.first := by
  have hle := self.first_le
  unfold decrement
  split
  · dsimp only
    omega
  · omega

/-! ## Walks -/

inductive Move
  | increment
  | decrement
deriving DecidableEq, Repr

def Move.offset : Move → Int
  | .increment => 1
  | .decrement => -1

def move (self : BiIterator) : Move → BiIterator
  | .increment => self.increment
  | .decrement => self.decrement

/-- A walk of single steps that is held between `first` and `last`. -/
def clampedWalk (first last : Int) : Int → List Move → Int :=
  List.foldl fun position m => max first (min (position + m.offset) last)

theorem move_current (self : BiIterator) (m : Move) :
    ((self.move m).current : Int) =
      max (self.first : Int) (min (self.current + m.offset) self.last) := by
  have hfirst := self.first_le
  have hlast := self.le_last
  cases m with
  | increment =>
      have h := self.increment_current
      simp only [move, Move.offset]
      omega
  | decrement =>
      have h := self.decrement_current
      simp only [move, Move.offset]
      omega

end BiIterator

end LibNokogiri.Internal
