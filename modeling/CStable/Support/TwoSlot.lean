import Mathlib.Data.List.Induction

/-!
# `CStable.Support.TwoSlot`: two slots written in turn

A commit record is written to one of two slots, by the parity of its id, so that
the previous record stays where it is while the next one is written. A reader
takes the newest record it finds.

For records with the ids 1, 2, 3, .. this always finds the last record, and the
one before it in the other slot (`newest_putAll`). If the write after it is lost it
is still found, alone (`newest_lose`).
-/

set_option autoImplicit false

namespace CStable.Support

variable {β : Type}

/-- The contents of two slots. -/
structure Slots (β : Type) where
  even : Option β
  odd : Option β

namespace Slots

/-- Both slots are empty. -/
def empty : Slots β := ⟨none, none⟩

/-- The slot of the records whose id has the parity of `n`. -/
def slot (s : Slots β) (n : Nat) : Option β := if n % 2 = 0 then s.even else s.odd

/-- Fill the slot of `n`. -/
def set (s : Slots β) (n : Nat) (x : Option β) : Slots β :=
  if n % 2 = 0 then { s with even := x } else { s with odd := x }

/-- A record that was put to a slot is found there. -/
theorem slot_set_self (s : Slots β) (n : Nat) (x : Option β) : (s.set n x).slot n = x := by
  unfold set slot
  split_ifs <;> rfl

/-- Putting a record to the slot of a number leaves the slot of the next number, which is the
other one. -/
theorem slot_set_succ (s : Slots β) (n : Nat) (x : Option β) :
    (s.set n x).slot (n + 1) = s.slot (n + 1) := by
  unfold set slot
  by_cases h : n % 2 = 0
  · rw [if_pos h, if_neg (by omega), if_neg (by omega)]
  · rw [if_neg h, if_pos (by omega), if_pos (by omega)]

/-- Numbers go to the two slots in turn. -/
theorem slot_add_two (s : Slots β) (n : Nat) : s.slot (n + 2) = s.slot n := by
  rw [slot, slot, Nat.add_mod_right]

variable (id : β → Nat)

/-- Write a record to the slot of its id. -/
def put (s : Slots β) (x : β) : Slots β := s.set (id x) (some x)

/-- Write the records of a list one after the other. -/
def putAll (xs : List β) : Slots β := xs.foldl (put id) empty

/-- The record with the larger id, and the other one. -/
def newest (s : Slots β) : Option (β × Option β) :=
  match s.even, s.odd with
  | none, none => none
  | some a, none => some (a, none)
  | none, some b => some (b, none)
  | some a, some b => if id b < id a then some (a, some b) else some (b, some a)

/-- The ids count up from one. -/
def Numbered (xs : List β) : Prop := xs.map id = List.range' 1 xs.length

variable {id}

/-- The last of numbered records has the number of all of them, and those before it are
numbered. -/
theorem Numbered.init {xs : List β} {x : β} (h : Numbered id (xs ++ [x])) :
    Numbered id xs ∧ id x = xs.length + 1 := by
  unfold Numbered at h
  rw [List.map_append, List.length_append, List.length_singleton, List.range'_concat,
    List.map_singleton] at h
  have hlen : (xs.map id).length = (List.range' 1 xs.length).length := by
    rw [List.length_map, List.length_range']
  obtain ⟨hinit, hlast⟩ := List.append_inj h hlen
  refine ⟨hinit, ?_⟩
  have hid := List.head_eq_of_cons_eq hlast
  omega

/-- The last record is in the slot of its id, the one before it in the other. Nothing older is
left, because each record replaced the one two before it. -/
theorem slot_putAll {xs : List β} (h : Numbered id xs) :
    (putAll id xs).slot xs.length = xs.getLast? ∧
      (putAll id xs).slot (xs.length + 1) = xs.dropLast.getLast? := by
  induction xs using List.reverseRecOn with
  | nil => exact ⟨rfl, rfl⟩
  | append_singleton xs x ih =>
    obtain ⟨hinit, hid⟩ := h.init
    have hput : putAll id (xs ++ [x]) = (putAll id xs).set (xs.length + 1) (some x) := by
      rw [putAll, List.foldl_append, ← hid]
      rfl
    rw [hput, List.length_append, List.length_singleton, slot_set_self, slot_set_succ,
      slot_add_two, (ih hinit).1, List.getLast?_concat, List.dropLast_concat]
    exact ⟨rfl, rfl⟩

/-- The last of the records has their number as its id. -/
theorem Numbered.id_getLast? {xs : List β} {x : β} (h : Numbered id xs)
    (hx : xs.getLast? = some x) : id x = xs.length := by
  rcases List.eq_nil_or_concat xs with rfl | ⟨ys, y, rfl⟩
  · cases hx
  · rw [List.concat_eq_append] at *
    rw [List.getLast?_concat] at hx
    cases hx
    rw [h.init.2, List.length_append, List.length_singleton]

/-- Without the last record the others are numbered still. -/
theorem Numbered.dropLast {xs : List β} (h : Numbered id xs) : Numbered id xs.dropLast := by
  rcases List.eq_nil_or_concat xs with rfl | ⟨ys, y, rfl⟩
  · exact h
  · rw [List.concat_eq_append] at *
    rw [List.dropLast_concat]
    exact h.init.1

/-- The choice between two slots, by the slot of a number and the other one. The record with the
higher id is the newest, in whichever of the slots it is. -/
theorem newest_of_slots {s : Slots β} {n : Nat} {x : β} {y : Option β} (hx : s.slot n = some x)
    (hy : s.slot (n + 1) = y) (hlt : ∀ z, y = some z → id z < id x) :
    newest id s = some (x, y) := by
  obtain ⟨even, odd⟩ := s
  unfold slot at hx hy
  -- the parity says which of the two slots is meant
  by_cases h : n % 2 = 0
  · rw [if_pos h] at hx
    rw [if_neg (by omega)] at hy
    cases hx
    cases hy
    cases odd with
    | none => rfl
    | some z => exact if_pos (hlt z rfl)
  · rw [if_neg h] at hx
    rw [if_pos (by omega)] at hy
    cases hx
    cases hy
    cases even with
    | none => rfl
    | some z =>
      have hz := hlt z rfl
      exact if_neg (by omega)

/-- The newest record is the last one, with the one before it. -/
theorem newest_putAll {xs : List β} {x : β} (h : Numbered id xs) (hx : xs.getLast? = some x) :
    newest id (putAll id xs) = some (x, xs.dropLast.getLast?) := by
  obtain ⟨hlast, hprev⟩ := slot_putAll h
  refine newest_of_slots (hlast.trans hx) hprev fun z hz => ?_
  have hz' := h.dropLast.id_getLast? hz
  have hx' := h.id_getLast? hx
  have hne : xs ≠ [] := by
    rintro rfl
    cases hx
  have hpos : 0 < xs.length := List.length_pos_iff.mpr hne
  rw [List.length_dropLast] at hz'
  omega

/-- If the write after the last record is lost, the last record is found, alone: the lost write
had gone to the slot of the record before it. -/
theorem newest_lose {xs : List β} (h : Numbered id xs) :
    newest id ((putAll id xs).set (xs.length + 1) none) = xs.getLast?.map fun x => (x, none) := by
  obtain ⟨hlast, -⟩ := slot_putAll h
  have hlost := slot_set_self (putAll id xs) (xs.length + 1) none
  have hkept := slot_set_succ (putAll id xs) (xs.length + 1) none
  rw [slot_add_two, slot_add_two, hlast] at hkept
  cases hx : xs.getLast? with
  | some x =>
    rw [hx] at hkept
    refine newest_of_slots hkept hlost fun z hz => ?_
    cases hz
  | none =>
    rw [hx] at hkept
    generalize (putAll id xs).set (xs.length + 1) none = s at hlost hkept
    obtain ⟨even, odd⟩ := s
    unfold slot at hlost hkept
    -- nothing was put, so whichever slot is lost, both are empty
    by_cases hpar : xs.length % 2 = 0
    · rw [if_neg (by omega)] at hlost
      rw [if_pos hpar] at hkept
      cases hlost
      cases hkept
      rfl
    · rw [if_pos (by omega)] at hlost
      rw [if_neg hpar] at hkept
      cases hlost
      cases hkept
      rfl

end Slots

end CStable.Support
