-- Cuts of texts at a byte: lengths, and what a part of the text decides.
import Ecode.Text

namespace Ecode.Text

theorem len_cons (c : Char) (t : Text) : len (c :: t) = c.utf8Size + len t := by
  simp [len]

theorem len_eq_zero {t : Text} : len t = 0 ↔ t = [] := by
  cases t with
  | nil => simp [len]
  | cons c t =>
    have hpos := c.utf8Size_pos
    rw [len_cons]
    simp
    omega

theorem len_append (a b : Text) : len (a ++ b) = len a + len b := by
  simp [len]

theorem cut_zero (t : Text) : cut 0 t = some ([], t) := by
  cases t <;> rfl

theorem cut_len {n : Nat} {t : Text} {p : Text × Text} (h : cut n t = some p) :
    len p.1 = n ∧ len p.1 + len p.2 = len t := by
  induction t generalizing n p with
  | nil =>
    cases n with
    | zero =>
      obtain rfl : ([], []) = p := by simpa [cut] using h
      simp [len]
    | succ n => simp [cut] at h
  | cons c t ih =>
    cases n with
    | zero =>
      obtain rfl : ([], c :: t) = p := by simpa [cut] using h
      simp [len]
    | succ n =>
      simp only [cut] at h
      split at h
      · rename_i hle
        obtain ⟨q, hq, rfl⟩ := Option.map_eq_some_iff.mp h
        obtain ⟨h1, h2⟩ := ih hq
        simp only [len, List.map_cons, List.sum_cons] at h1 h2 ⊢
        omega
      · cases h

/-- Behind a character the cut is one of the rest. -/
theorem cut_cons (c : Char) (t : Text) (n : Nat) :
    cut (c.utf8Size + n) (c :: t) = (cut n t).map fun p => (c :: p.1, p.2) := by
  have hpos := c.utf8Size_pos
  obtain ⟨m, hm⟩ := Nat.exists_eq_add_of_lt hpos
  rw [show c.utf8Size + n = (m + n) + 1 by omega, cut, if_pos (by omega)]
  congr 2
  omega

theorem cut_append_left {n : Nat} {a : Text} (h : n ≤ len a) (b : Text) :
    cut n (a ++ b) = (cut n a).map fun p => (p.1, p.2 ++ b) := by
  induction a generalizing n with
  | nil =>
    obtain rfl := Nat.le_zero.mp h
    rw [cut_zero, cut_zero]
    rfl
  | cons c a ih =>
    rcases n with _ | n
    · rfl
    · rw [List.cons_append, cut, cut]
      split
      · rw [len_cons] at h
        rw [ih (by omega), Option.map_map, Option.map_map]
        rfl
      · rfl

theorem cut_append_right (a b : Text) (n : Nat) :
    cut (len a + n) (a ++ b) = (cut n b).map fun p => (a ++ p.1, p.2) := by
  induction a with
  | nil =>
    rw [show len [] + n = n from Nat.zero_add n]
    exact Option.map_id'.symm
  | cons c a ih =>
    rw [len_cons, Nat.add_assoc, List.cons_append, cut_cons, ih, Option.map_map]
    rfl

theorem cut_self (t : Text) : cut (len t) t = some (t, []) := by
  have h := cut_append_right t [] 0
  rw [List.append_nil, cut_zero] at h
  simpa using h

theorem cut_append {n : Nat} {t : Text} {p : Text × Text} (h : cut n t = some p) :
    p.1 ++ p.2 = t := by
  induction t generalizing n p with
  | nil =>
    rcases n with _ | n
    · obtain rfl := Option.some.inj h
      rfl
    · cases h
  | cons c t ih =>
    rcases n with _ | n
    · obtain rfl := Option.some.inj h
      rfl
    · rw [cut] at h
      split at h
      · obtain ⟨q, hq, rfl⟩ := Option.map_eq_some_iff.mp h
        exact congrArg (c :: ·) (ih hq)
      · cases h

end Ecode.Text
