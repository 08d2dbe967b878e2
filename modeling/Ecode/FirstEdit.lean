-- One edit of a list at the first item that meets a condition, or at its end: what is in front of
-- the item and behind it stays. Nothing here is about a program: the items are arbitrary.
import Mathlib

namespace Ecode.edits

variable {α : Type} {p : α → Bool} {g : α → List α} {e : List α}

/-- The first item with `p` makes place for what `g` has for it; where there is none, `e` comes at
the end. -/
def edit_first (p : α → Bool) (g : α → List α) (e : List α) : List α → List α
  | [] => e
  | x :: xs => if p x then g x ++ xs else x :: edit_first p g e xs

theorem edit_first_pos {x : α} (h : p x = true) (xs : List α) :
    edit_first p g e (x :: xs) = g x ++ xs := by
  simp [edit_first, h]

theorem edit_first_neg {x : α} (h : p x = false) (xs : List α) :
    edit_first p g e (x :: xs) = x :: edit_first p g e xs := by
  simp [edit_first, h]

theorem edit_first_append {xs : List α} (h : ∀ x ∈ xs, p x = false) (ys : List α) :
    edit_first p g e (xs ++ ys) = xs ++ edit_first p g e ys := by
  induction xs with
  | nil => rfl
  | cons x xs ih =>
    have hx := h x List.mem_cons_self
    rw [List.cons_append, edit_first_neg hx, ih fun y hy => h y (List.mem_cons_of_mem x hy)]
    rfl

/-- Where no item has `p`, the edit is at the end. -/
theorem edit_first_none {xs : List α} (h : ∀ x ∈ xs, p x = false) :
    edit_first p g e xs = xs ++ e := by
  have happend := edit_first_append (g := g) (e := e) h []
  rwa [List.append_nil] at happend

/-- What is true of an item of every replacement is true of an item of the edited list. -/
theorem any_edit_first {r : α → Bool} (hg : ∀ x, p x = true → (g x).any r = true)
    (he : e.any r = true) (xs : List α) : (edit_first p g e xs).any r = true := by
  induction xs with
  | nil => exact he
  | cons x xs ih =>
    rcases hx : p x with _ | _
    · rw [edit_first_neg hx, List.any_cons, ih, Bool.or_true]
    · rw [edit_first_pos hx, List.any_append, hg x hx, Bool.true_or]

/-! ## Edits by places -/

theorem insertIdx_eq_edit_first (x : α) (xs : List α) :
    xs.insertIdx (xs.findIdx p) x = edit_first p (fun y => [x, y]) [x] xs := by
  induction xs with
  | nil => rfl
  | cons y ys ih =>
    rcases hy : p y with _ | _
    · rw [edit_first_neg hy, List.findIdx_cons, hy]
      simpa using ih
    · rw [edit_first_pos hy, List.findIdx_cons, hy]
      rfl

theorem set_eq_edit_first (x : α) (xs : List α) :
    (match xs.findIdx? p with
      | some i => xs.set i x
      | none => xs ++ [x]) = edit_first p (fun _ => [x]) [x] xs := by
  induction xs with
  | nil => rfl
  | cons y ys ih =>
    rcases hy : p y with _ | _
    · rw [edit_first_neg hy, ← ih, List.findIdx?_cons, hy]
      cases ys.findIdx? p <;> rfl
    · rw [edit_first_pos hy, List.findIdx?_cons, hy]
      rfl

end Ecode.edits
