-- Session ids and their two text forms (`uuid::Uuid`).
import Ecode.Text

namespace Ecode.rollout_catalog

/-- `uuid::Uuid`, as the number it is. -/
abbrev Uuid := Fin (2 ^ 128)

instance Uuid.lawfulBEq : LawfulBEq Uuid := inferInstance

instance Uuid.neZero : NeZero (2 ^ 128 : Nat) := inferInstance

def hex_digit (n : Nat) : Char := Char.ofNat (if n < 10 then 48 + n else 87 + n)

/-- The last `len` hexadecimal digits of `n`. -/
def hex (n len : Nat) : Text :=
  (List.range len).map fun i => hex_digit (n / 16 ^ (len - 1 - i) % 16)

/-- `Uuid::simple`: the form without hyphens. -/
def Uuid.simple (id : Uuid) : Text := hex id.val 32

/-- `Uuid::to_string`: the hyphenated form. -/
def Uuid.to_string (id : Uuid) : Text :=
  let digits := Uuid.simple id
  digits.take 8 ++ '-' :: (digits.drop 8).take 4 ++ '-' :: (digits.drop 12).take 4 ++
    '-' :: (digits.drop 16).take 4 ++ '-' :: digits.drop 20

theorem hyphen_mem_to_string (id : Uuid) : '-' ∈ Uuid.to_string id := by
  simp [Uuid.to_string]

theorem length_hex (n len : Nat) : (hex n len).length = len := by
  simp [hex]

theorem length_to_string (id : Uuid) : (Uuid.to_string id).length = 36 := by
  simp [Uuid.to_string, Uuid.simple, length_hex]

theorem hex_digit_inj {a b : Nat} (ha : a < 16) (hb : b < 16) (h : hex_digit a = hex_digit b) :
    a = b := by
  have hall : ∀ a b : Fin 16, hex_digit a = hex_digit b → a = b := by decide
  exact congrArg Fin.val (hall ⟨a, ha⟩ ⟨b, hb⟩ h)

theorem hyphen_notMem_hex (n len : Nat) : '-' ∉ hex n len := by
  have hall : ∀ d : Fin 16, hex_digit d ≠ '-' := by decide
  intro h
  obtain ⟨i, -, hi⟩ := List.mem_map.mp h
  exact hall ⟨_, Nat.mod_lt _ (by omega)⟩ hi

/-- Digits that are the same are those of the same number, up to the length. -/
theorem mod_eq_of_hex {n m : Nat} (len : Nat)
    (h : ∀ i < len, n / 16 ^ i % 16 = m / 16 ^ i % 16) : n % 16 ^ len = m % 16 ^ len := by
  induction len with
  | zero => simp [Nat.mod_one]
  | succ len ih =>
    rw [Nat.mod_pow_succ, Nat.mod_pow_succ, ih fun i hi => h i (by omega), h len (by omega)]

theorem simple_inj {a b : Uuid} (h : Uuid.simple a = Uuid.simple b) : a = b := by
  unfold Uuid.simple hex at h
  have hdigits := List.map_inj_left.mp h
  have hmod : a.val % 16 ^ 32 = b.val % 16 ^ 32 := by
    apply mod_eq_of_hex
    intro i hi
    have hdigit := hdigits (31 - i) (List.mem_range.mpr (by omega))
    have hplace : 32 - 1 - (31 - i) = i := by omega
    rw [hplace] at hdigit
    exact hex_digit_inj (Nat.mod_lt _ (by omega)) (Nat.mod_lt _ (by omega)) hdigit
  have hsize : 16 ^ 32 = 2 ^ 128 := by norm_num
  rw [hsize, Nat.mod_eq_of_lt a.isLt, Nat.mod_eq_of_lt b.isLt] at hmod
  exact Fin.ext hmod

/-- The hyphenated form without its hyphens. -/
theorem filter_to_string (id : Uuid) : (Uuid.to_string id).filter (· ≠ '-') = Uuid.simple id := by
  have hkeep : ∀ t : Text, t ⊆ Uuid.simple id → t.filter (· ≠ '-') = t := by
    intro t ht
    apply List.filter_eq_self.mpr
    intro c hc
    have hne : c ≠ '-' := fun he => hyphen_notMem_hex id.val 32 (he ▸ ht hc)
    simpa using hne
  have hpart : ∀ n : Nat, ((Uuid.simple id).drop n).take 4 ⊆ Uuid.simple id := by
    intro n c hc
    exact List.mem_of_mem_drop (List.mem_of_mem_take hc)
  have hcons : ∀ t : Text, ('-' :: t).filter (· ≠ '-') = t.filter (· ≠ '-') := fun _ => rfl
  unfold Uuid.to_string
  dsimp only
  rw [List.filter_append, List.filter_append, List.filter_append, List.filter_append, hcons, hcons,
    hcons, hcons, hkeep _ (List.take_subset 8 _), hkeep _ (hpart 8), hkeep _ (hpart 12),
    hkeep _ (hpart 16), hkeep _ (List.drop_subset 20 _)]
  generalize Uuid.simple id = digits
  have hjoin : ∀ n : Nat, digits.take n ++ (digits.drop n).take 4 = digits.take (n + 4) := by
    intro n
    rw [List.take_add]
  rw [hjoin, hjoin, hjoin, List.take_append_drop]

theorem to_string_inj {a b : Uuid} (h : Uuid.to_string a = Uuid.to_string b) : a = b := by
  apply simple_inj
  rw [← filter_to_string, ← filter_to_string, h]

end Ecode.rollout_catalog
