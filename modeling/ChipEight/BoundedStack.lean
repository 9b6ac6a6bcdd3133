import ChipEight.Address

/-!
# Bounded stacks

A stack in a fixed row of slots. Pushing onto a full stack and popping an empty one
fail. Slots above the depth keep what they last held, but nothing reads them: what
the stack holds is `toList`.
-/

namespace ChipEight

/-- A stack of at most `capacity` values. -/
structure BoundedStack (α : Type) (capacity : Nat) where
  /-- The slots, the oldest value first. -/
  slots : Vector α capacity
  /-- Number of slots in use. -/
  depth : Nat
  /-- No more slots are in use than there are. -/
  depth_le : depth ≤ capacity
  deriving DecidableEq

namespace BoundedStack

variable {α : Type} {capacity : Nat}

/-- The empty stack, with all slots alike. -/
def empty (filler : α) : BoundedStack α capacity := ⟨.replicate capacity filler, 0, by omega⟩

/-- The values on the stack, the oldest first. -/
def toList (s : BoundedStack α capacity) : List α := s.slots.toList.take s.depth

/-- Puts a value on top; a full stack takes none. -/
def push (s : BoundedStack α capacity) (value : α) : Option (BoundedStack α capacity) :=
  if h : s.depth < capacity then some ⟨s.slots.set s.depth value, s.depth + 1, h⟩ else none

/-- Takes the newest value off; an empty stack has none. -/
def pop (s : BoundedStack α capacity) : Option (α × BoundedStack α capacity) :=
  if h : s.depth = 0 then none
  else
    have := s.depth_le
    some (s.slots[s.depth - 1], ⟨s.slots, s.depth - 1, by omega⟩)

/-- The depth is the number of values. -/
@[simp] theorem length_toList (s : BoundedStack α capacity) : s.toList.length = s.depth := by
  have := s.depth_le
  simp [toList]
  omega

/-- The empty stack holds nothing. -/
@[simp] theorem toList_empty (filler : α) :
    (empty filler : BoundedStack α capacity).toList = [] := by
  simp [toList, empty]

/-- A push fails exactly when the stack is full. -/
theorem push_eq_none_iff (s : BoundedStack α capacity) (value : α) :
    s.push value = none ↔ s.depth = capacity := by
  have := s.depth_le
  unfold push
  split
  · next h => simp only [reduceCtorEq, false_iff]; omega
  · next h => simp only [true_iff]; omega

/-- A push puts the value behind the values that the stack held. -/
theorem toList_of_push {s t : BoundedStack α capacity} {value : α} (h : s.push value = some t) :
    t.toList = s.toList ++ [value] := by
  unfold push at h
  split at h
  · next hlt =>
    obtain rfl := Option.some.inj h
    simp only [toList, Vector.toList_set, List.take_set]
    rw [List.take_add_one, List.set_append_right _ _ (by rw [List.length_take, Vector.length_toList]; omega)]
    simp [hlt, Nat.min_eq_left (Nat.le_of_lt hlt)]
  · exact absurd h (by simp)

/-- A pop fails exactly when the stack is empty. -/
theorem pop_eq_none_iff (s : BoundedStack α capacity) : s.pop = none ↔ s.depth = 0 := by
  unfold pop
  split
  · next h => simp only [h]
  · next h => simp only [reduceCtorEq, false_iff]; exact h

/-- A pop takes the last of the values that the stack held. -/
theorem toList_of_pop {s t : BoundedStack α capacity} {value : α} (h : s.pop = some (value, t)) :
    s.toList = t.toList ++ [value] := by
  unfold pop at h
  split at h
  · exact absurd h (by simp)
  · next hne =>
    have hle := s.depth_le
    obtain ⟨rfl, rfl⟩ := Prod.mk.inj (Option.some.inj h)
    have hlt : s.depth - 1 < s.slots.toList.length := by
      rw [Vector.length_toList]; omega
    have hlast : s.slots.toList.take (s.depth - 1 + 1) =
        s.slots.toList.take (s.depth - 1) ++ [s.slots.toList[s.depth - 1]] := by
      rw [List.take_add_one, List.getElem?_eq_getElem hlt, Option.toList_some]
    rw [show s.depth - 1 + 1 = s.depth by omega] at hlast
    simp only [toList, hlast, Vector.getElem_toList]

end BoundedStack

/-- Return addresses of open subroutine calls, at most sixteen. -/
abbrev CallStack := BoundedStack Address 16

end ChipEight
