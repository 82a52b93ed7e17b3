import Mathlib.Data.List.Forall2
import Mathlib.Data.List.Perm.Basic

/-!
# `CStable.Support.Pieces`: lists put together from pieces

`xs.flatMap f` puts the pieces `f x` together in the order of `xs`.

* `flatMap_perm`, `pairwise_of_flatMap_perm`: the order does not matter exactly when any
  two of the pieces commute.
* `forall₂_of_flatMap_eq`: equal lists from pieces of the same lengths have the same
  pieces.
-/

set_option autoImplicit false

namespace CStable.Support.Pieces

variable {α β : Type} {f : α → List β}

/-- Pieces that commute may be put together in any order. By induction on the permutation; only
a swap of two neighbours needs that they commute. -/
theorem flatMap_perm {xs ys : List α} (h : ys.Perm xs) :
    (xs.Pairwise fun a b => f a ++ f b = f b ++ f a) → ys.flatMap f = xs.flatMap f := by
  induction h with
  | nil => exact fun _ => rfl
  | cons x _ ih =>
    intro hxs
    rw [List.flatMap_cons, List.flatMap_cons, ih (List.pairwise_cons.mp hxs).2]
  | swap x y l =>
    intro hxs
    have hxy := (List.pairwise_cons.mp hxs).1 y List.mem_cons_self
    rw [List.flatMap_cons, List.flatMap_cons, List.flatMap_cons, List.flatMap_cons,
      ← List.append_assoc, ← List.append_assoc, hxy]
  | @trans l₁ l₂ l₃ _ h₂₃ ih₁₂ ih₂₃ =>
    intro hxs
    have hl₂ : l₂.Pairwise fun a b => f a ++ f b = f b ++ f a :=
      (h₂₃.pairwise_iff fun hab => hab.symm).mpr hxs
    rw [ih₁₂ hl₂, ih₂₃ hxs]

/-- Pieces that may be put together in any order commute: any two of them can be moved to
the front, in either order. -/
theorem pairwise_of_flatMap_perm {xs : List α}
    (h : ∀ ys : List α, ys.Perm xs → ys.flatMap f = xs.flatMap f) :
    xs.Pairwise fun a b => f a ++ f b = f b ++ f a := by
  have hfront : ∀ a b rest, (a :: b :: rest).Perm xs → f a ++ f b = f b ++ f a := by
    intro a b rest hperm
    have heq := (h _ hperm).trans (h _ ((List.Perm.swap a b rest).trans hperm)).symm
    rw [List.flatMap_cons, List.flatMap_cons, List.flatMap_cons, List.flatMap_cons,
      ← List.append_assoc, ← List.append_assoc] at heq
    exact List.append_cancel_right heq
  clear h
  induction xs with
  | nil => exact .nil
  | cons x xs ih =>
    refine .cons (fun y hy => ?_) (ih fun a b rest hperm => ?_)
    · obtain ⟨before, behind, rfl⟩ := List.append_of_mem hy
      exact hfront x y (before ++ behind) (.cons x List.perm_middle.symm)
    · have hmoved : (a :: b :: (rest ++ [x])).Perm (x :: xs) :=
        (@List.perm_append_comm α (a :: b :: rest) [x]).trans (.cons x hperm)
      exact hfront a b _ hmoved

/-- Two ways to put pieces together that have the same lengths have the same pieces. Without the
lengths a piece could end elsewhere. -/
theorem forall₂_of_flatMap_eq {γ : Type} {g : γ → List β} {xs : List α} {ys : List γ}
    (hlen : List.Forall₂ (fun x y => (f x).length = (g y).length) xs ys) :
    xs.flatMap f = ys.flatMap g → List.Forall₂ (fun x y => f x = g y) xs ys := by
  induction hlen with
  | nil => exact fun _ => .nil
  | cons hxy _ ih =>
    intro heq
    rw [List.flatMap_cons, List.flatMap_cons] at heq
    obtain ⟨hhead, htail⟩ := List.append_inj heq hxy
    exact .cons hhead (ih htail)

end CStable.Support.Pieces
