-- Texts in UTF-8: the bytes of a text, and the text that is read from any bytes, with a
-- replacement character for each sequence that breaks off. Nothing here is about a program.
import Mathlib

namespace Ecode.utf8

/-- The bytes of a text. -/
def encode (t : List Char) : List UInt8 := t.flatMap String.utf8EncodeChar

/-! ## Reading -/

/-- What the first byte of a character says: how many bytes follow, the bounds of the next one, and
the first bits of the character. -/
def lead (b : Nat) : Option (Nat × Nat × Nat × Nat) :=
  if b < 0x80 then some (0, 0x80, 0xBF, b)
  else if b < 0xC2 then none
  else if b < 0xE0 then some (1, 0x80, 0xBF, b % 32)
  else if b = 0xE0 then some (2, 0xA0, 0xBF, b % 16)
  else if b = 0xED then some (2, 0x80, 0x9F, b % 16)
  else if b < 0xF0 then some (2, 0x80, 0xBF, b % 16)
  else if b = 0xF0 then some (3, 0x90, 0xBF, b % 8)
  else if b < 0xF4 then some (3, 0x80, 0xBF, b % 8)
  else if b = 0xF4 then some (3, 0x80, 0x8F, b % 8)
  else none

/-- The bytes that follow the first one are read as long as they fit. -/
def follow : Nat → Nat → Nat → Nat → List UInt8 → Option Nat × List UInt8
  | 0, _, _, v, rest => (some v, rest)
  | _ + 1, _, _, _, [] => (none, [])
  | n + 1, low, high, v, b :: rest =>
    if low ≤ b.toNat ∧ b.toNat ≤ high then follow n 0x80 0xBF (v * 64 + b.toNat % 64) rest
    else (none, b :: rest)

/-- A character and what is left after it, or what is left after a sequence that breaks off. -/
def read_char (b : UInt8) (rest : List UInt8) : Option Nat × List UInt8 :=
  match lead b.toNat with
  | none => (none, rest)
  | some (n, low, high, v) => follow n low high v rest

def REPLACEMENT_CHARACTER : Char := '\uFFFD'

/-- The character of a value that was read. -/
def char_of (v : Option Nat) : Char := (v.map Char.ofNat).getD REPLACEMENT_CHARACTER

def read_lossy : Nat → List UInt8 → List Char
  | 0, _ => []
  | _ + 1, [] => []
  | fuel + 1, b :: rest => char_of (read_char b rest).1 :: read_lossy fuel (read_char b rest).2

/-- `String::from_utf8_lossy`. -/
def from_utf8_lossy (bytes : List UInt8) : List Char := read_lossy bytes.length bytes

/-! ## The bytes of a text -/

theorem encode_cons (c : Char) (t : List Char) :
    encode (c :: t) = String.utf8EncodeChar c ++ encode t := List.flatMap_cons

theorem length_encode (t : List Char) : (encode t).length = (t.map Char.utf8Size).sum := by
  induction t with
  | nil => rfl
  | cons c t ih =>
    rw [encode_cons, List.length_append, ih, String.length_utf8EncodeChar, List.map_cons,
      List.sum_cons]

/-- Any number of first bytes of a text are the bytes of a first part and the beginning of a
character. -/
theorem exists_cut (t : List Char) (n : Nat) (hn : n ≤ (encode t).length) :
    ∃ head p q tail, (encode t).take n = encode head ++ p ∧ (encode t).drop n = q ++ encode tail ∧
      ((p = [] ∧ q = [] ∧ t = head ++ tail) ∨
        ∃ c, String.utf8EncodeChar c = p ++ q ∧ p ≠ [] ∧ q ≠ [] ∧ t = head ++ c :: tail) := by
  induction t generalizing n with
  | nil =>
    refine ⟨[], [], [], [], ?_, ?_, .inl ⟨rfl, rfl, rfl⟩⟩
    · simp [encode]
    · simp [encode]
  | cons c t ih =>
    rw [encode_cons] at hn ⊢
    rcases Nat.lt_or_ge n (String.utf8EncodeChar c).length with hlt | hge
    · rcases Nat.eq_zero_or_pos n with rfl | hpos
      · exact ⟨[], [], [], c :: t, rfl, (encode_cons c t).symm, .inl ⟨rfl, rfl, rfl⟩⟩
      · refine ⟨[], (String.utf8EncodeChar c).take n, (String.utf8EncodeChar c).drop n, t, ?_, ?_,
          .inr ⟨c, (List.take_append_drop n _).symm, ?_, ?_, rfl⟩⟩
        · rw [List.take_append_of_le_length (Nat.le_of_lt hlt)]
          rfl
        · rw [List.drop_append_of_le_length (Nat.le_of_lt hlt)]
        · intro hnil
          have hlen := congrArg List.length hnil
          rw [List.length_take, List.length_nil] at hlen
          omega
        · intro hnil
          have hlen := congrArg List.length hnil
          rw [List.length_drop, List.length_nil] at hlen
          omega
    · obtain ⟨m, rfl⟩ := Nat.exists_eq_add_of_le hge
      rw [List.length_append] at hn
      obtain ⟨head, p, q, tail, htake, hdrop, hparts⟩ := ih m (by omega)
      refine ⟨c :: head, p, q, tail, ?_, ?_, ?_⟩
      · rw [List.take_length_add_append, htake, encode_cons, List.append_assoc]
      · rw [List.drop_length_add_append, hdrop]
      · rcases hparts with ⟨hp, hq, ht⟩ | ⟨d, hd, hp, hq, ht⟩
        · exact .inl ⟨hp, hq, congrArg (c :: ·) ht⟩
        · exact .inr ⟨d, hd, hp, hq, congrArg (c :: ·) ht⟩

/-! ## One character -/

theorem toNat_ofNat {n : Nat} (h : n < 256) : (UInt8.ofNat n).toNat = n := by
  rw [UInt8.toNat_ofNat']
  exact Nat.mod_eq_of_lt h

theorem follow_cons {n low high v : Nat} {b : UInt8} (rest : List UInt8)
    (h : low ≤ b.toNat ∧ b.toNat ≤ high) :
    follow (n + 1) low high v (b :: rest) = follow n 0x80 0xBF (v * 64 + b.toNat % 64) rest :=
  if_pos h

theorem lead_of_continuation {b : Nat} (h : 0x80 ≤ b) (h' : b < 0xC0) : lead b = none := by
  unfold lead
  rw [if_neg (by omega), if_pos (by omega)]

theorem lead_of_two {b : Nat} (h : 0xC2 ≤ b) (h' : b < 0xE0) :
    lead b = some (1, 0x80, 0xBF, b % 32) := by
  unfold lead
  rw [if_neg (by omega), if_neg (by omega), if_pos h']

/-- The second byte of three is bounded so that no shorter form and no surrogate is read. -/
theorem lead_of_three {b : Nat} (second : Nat) (h : 0xE0 ≤ b) (h' : b < 0xF0) (hlow : 0x80 ≤ second)
    (hhigh : second ≤ 0xBF) (hshort : b = 0xE0 → 0xA0 ≤ second)
    (hsurrogate : b = 0xED → second ≤ 0x9F) :
    ∃ low high, lead b = some (2, low, high, b % 16) ∧ low ≤ second ∧ second ≤ high := by
  unfold lead
  rw [if_neg (by omega), if_neg (by omega), if_neg (by omega)]
  by_cases h0 : b = 0xE0
  · exact ⟨0xA0, 0xBF, if_pos h0, hshort h0, hhigh⟩
  · rw [if_neg h0]
    by_cases hD : b = 0xED
    · exact ⟨0x80, 0x9F, if_pos hD, hlow, hsurrogate hD⟩
    · rw [if_neg hD]
      exact ⟨0x80, 0xBF, if_pos h', hlow, hhigh⟩

/-- The second byte of four is bounded so that no shorter form and nothing too large is read. -/
theorem lead_of_four {b : Nat} (second : Nat) (h : 0xF0 ≤ b) (h' : b ≤ 0xF4) (hlow : 0x80 ≤ second)
    (hhigh : second ≤ 0xBF) (hshort : b = 0xF0 → 0x90 ≤ second)
    (hlarge : b = 0xF4 → second ≤ 0x8F) :
    ∃ low high, lead b = some (3, low, high, b % 8) ∧ low ≤ second ∧ second ≤ high := by
  unfold lead
  rw [if_neg (by omega), if_neg (by omega), if_neg (by omega), if_neg (by omega),
    if_neg (by omega), if_neg (by omega)]
  by_cases h0 : b = 0xF0
  · exact ⟨0x90, 0xBF, if_pos h0, hshort h0, hhigh⟩
  · rw [if_neg h0]
    by_cases h4 : b < 0xF4
    · exact ⟨0x80, 0xBF, if_pos h4, hlow, hhigh⟩
    · rw [if_neg h4]
      exact ⟨0x80, 0x8F, if_pos (by omega), hlow, hlarge (by omega)⟩

/-- A scalar value is no surrogate and not too large. -/
theorem toNat_bounds (c : Char) : c.toNat < 0xD800 ∨ 0xDFFF < c.toNat ∧ c.toNat < 0x110000 :=
  c.valid

/-- A character is a first byte and bytes that cannot come first, and it is what is read. -/
theorem read_char_encode (c : Char) : ∃ b rest, String.utf8EncodeChar c = b :: rest ∧
    (∀ d ∈ rest, lead d.toNat = none) ∧ read_char b rest = (some c.toNat, []) := by
  have hbounds := toNat_bounds c
  have hval : c.val.toNat = c.toNat := rfl
  have htail (v : Nat) : (UInt8.ofNat (v % 64 + 128)).toNat = v % 64 + 128 :=
    toNat_ofNat (by omega)
  have hnext (v : Nat) : lead (UInt8.ofNat (v % 64 + 128)).toNat = none := by
    rw [htail]
    exact lead_of_continuation (by omega) (by omega)
  unfold String.utf8EncodeChar read_char
  rw [hval]
  generalize c.toNat = v at hbounds
  dsimp only
  by_cases h1 : v ≤ 0x7f
  · rw [if_pos h1]
    refine ⟨_, _, rfl, List.forall_mem_nil _, ?_⟩
    have hlead : lead v = some (0, 0x80, 0xBF, v) := if_pos (by omega)
    rw [toNat_ofNat (by omega), hlead]
    rfl
  rw [if_neg h1]
  by_cases h2 : v ≤ 0x7ff
  · rw [if_pos h2]
    refine ⟨_, _, rfl, List.forall_mem_cons.mpr ⟨hnext _, List.forall_mem_nil _⟩, ?_⟩
    rw [toNat_ofNat (by omega), lead_of_two (by omega) (by omega)]
    dsimp only
    rw [follow_cons _ (by rw [htail]; omega), htail, follow]
    congr 2
    omega
  rw [if_neg h2]
  by_cases h3 : v ≤ 0xffff
  · rw [if_pos h3]
    refine ⟨_, _, rfl, List.forall_mem_cons.mpr ⟨hnext _, List.forall_mem_cons.mpr
      ⟨hnext _, List.forall_mem_nil _⟩⟩, ?_⟩
    obtain ⟨low, high, hlead, hsecond⟩ := lead_of_three (b := v / 4096 % 0x10 + 0xe0)
      (v / 64 % 64 + 128) (by omega) (by omega) (by omega) (by omega) (by omega) (by omega)
    rw [toNat_ofNat (by omega), hlead]
    dsimp only
    rw [follow_cons _ (by rw [htail]; exact hsecond), follow_cons _ (by rw [htail]; omega), htail,
      htail, follow]
    congr 2
    omega
  · rw [if_neg h3]
    refine ⟨_, _, rfl, List.forall_mem_cons.mpr ⟨hnext _, List.forall_mem_cons.mpr
      ⟨hnext _, List.forall_mem_cons.mpr ⟨hnext _, List.forall_mem_nil _⟩⟩⟩, ?_⟩
    obtain ⟨low, high, hlead, hsecond⟩ := lead_of_four (b := v / 262144 % 0x08 + 0xf0)
      (v / 4096 % 64 + 128) (by omega) (by omega) (by omega) (by omega) (by omega) (by omega)
    rw [toNat_ofNat (by omega), hlead]
    dsimp only
    rw [follow_cons _ (by rw [htail]; exact hsecond), follow_cons _ (by rw [htail]; omega),
      follow_cons _ (by rw [htail]; omega), htail, htail, htail, follow]
    congr 2
    omega

/-! ## Whole and broken characters -/

theorem follow_length (n low high v : Nat) (bytes : List UInt8) :
    (follow n low high v bytes).2.length ≤ bytes.length := by
  induction bytes generalizing n low high v with
  | nil => cases n <;> exact Nat.le_refl 0
  | cons b bytes ih =>
    rcases n with _ | n
    · exact Nat.le_refl _
    · unfold follow
      split
      · exact Nat.le_succ_of_le (ih _ _ _ _)
      · exact Nat.le_refl _

/-- Bytes that are all read are read before others too, and fewer of them break off. -/
theorem follow_of_all {n low high v w : Nat} {bytes : List UInt8}
    (h : follow n low high v bytes = (some w, [])) :
    (∀ rest, follow n low high v (bytes ++ rest) = (some w, rest)) ∧
      ∀ k < bytes.length, follow n low high v (bytes.take k) = (none, []) := by
  induction bytes generalizing n low high v with
  | nil =>
    rcases n with _ | n
    · obtain ⟨hv, -⟩ := Prod.mk.inj h
      exact ⟨fun rest => by rw [List.nil_append, follow, hv], fun k hk => absurd hk (Nat.not_lt_zero k)⟩
    · cases h
  | cons b bytes ih =>
    rcases n with _ | n
    · cases h
    · by_cases hb : low ≤ b.toNat ∧ b.toNat ≤ high
      · rw [follow_cons _ hb] at h
        obtain ⟨hwhole, hbroken⟩ := ih h
        constructor
        · intro rest
          rw [List.cons_append, follow_cons _ hb, hwhole rest]
        · intro k hk
          rcases k with _ | k
          · rfl
          · rw [List.take_succ_cons, follow_cons _ hb,
              hbroken k (Nat.lt_of_succ_lt_succ hk)]
      · unfold follow at h
        rw [if_neg hb] at h
        cases h

theorem read_char_length (b : UInt8) (rest : List UInt8) :
    (read_char b rest).2.length ≤ rest.length := by
  unfold read_char
  split
  · exact Nat.le_refl _
  · exact follow_length _ _ _ _ rest

theorem read_char_of_all {b : UInt8} {bytes : List UInt8} {w : Nat}
    (h : read_char b bytes = (some w, [])) :
    (∀ rest, read_char b (bytes ++ rest) = (some w, rest)) ∧
      ∀ k < bytes.length, read_char b (bytes.take k) = (none, []) := by
  unfold read_char at h ⊢
  split at h
  · cases h
  · exact follow_of_all h

theorem read_lossy_fuel {fuel : Nat} {bytes : List UInt8} (h : bytes.length ≤ fuel) :
    read_lossy fuel bytes = from_utf8_lossy bytes := by
  unfold from_utf8_lossy
  generalize hfuel : bytes.length = fuel'
  replace hfuel := hfuel.le
  induction fuel generalizing bytes fuel' with
  | zero =>
    obtain rfl := List.length_eq_zero_iff.mp (Nat.le_zero.mp h)
    cases fuel' <;> rfl
  | succ fuel ih =>
    rcases bytes with _ | ⟨b, rest⟩
    · cases fuel' <;> rfl
    · rcases fuel' with _ | fuel'
      · cases hfuel
      · have hlen := read_char_length b rest
        rw [List.length_cons] at h hfuel
        unfold read_lossy
        rw [ih (by omega) fuel' (by omega)]

/-- The characters are read one after the other. -/
theorem from_utf8_lossy_cons (b : UInt8) (rest : List UInt8) : from_utf8_lossy (b :: rest) =
    char_of (read_char b rest).1 :: from_utf8_lossy (read_char b rest).2 := by
  rw [← read_lossy_fuel (read_char_length b rest)]
  rfl

/-- A text is read back, and then what follows it. -/
theorem from_utf8_lossy_encode (t : List Char) (rest : List UInt8) :
    from_utf8_lossy (encode t ++ rest) = t ++ from_utf8_lossy rest := by
  induction t with
  | nil => rfl
  | cons c t ih =>
    obtain ⟨b, bytes, hc, -, hread⟩ := read_char_encode c
    rw [encode_cons, hc, List.append_assoc, List.cons_append, from_utf8_lossy_cons,
      (read_char_of_all hread).1, ih]
    simp [char_of]

/-- The beginning of a character is read as one replacement character. -/
theorem from_utf8_lossy_beginning {c : Char} {p q : List UInt8}
    (h : String.utf8EncodeChar c = p ++ q) (hp : p ≠ []) (hq : q ≠ []) :
    from_utf8_lossy p = [REPLACEMENT_CHARACTER] := by
  obtain ⟨b, bytes, hc, -, hread⟩ := read_char_encode c
  rcases p with _ | ⟨d, p⟩
  · exact absurd rfl hp
  · rw [hc, List.cons_append] at h
    obtain ⟨rfl, rfl⟩ := List.cons_eq_cons.mp h
    have hlt : p.length < (p ++ q).length := by
      rw [List.length_append]
      exact Nat.lt_add_of_pos_right (List.length_pos_iff.mpr hq)
    have hbroken := (read_char_of_all hread).2 p.length hlt
    rw [List.take_left] at hbroken
    rw [from_utf8_lossy_cons, hbroken]
    rfl

/-- Each byte of the end of a character is read as a replacement character. -/
theorem from_utf8_lossy_end {c : Char} {p q : List UInt8}
    (h : String.utf8EncodeChar c = p ++ q) (hp : p ≠ []) (rest : List UInt8) :
    from_utf8_lossy (q ++ rest) =
      List.replicate q.length REPLACEMENT_CHARACTER ++ from_utf8_lossy rest := by
  obtain ⟨b, bytes, hc, hnext, -⟩ := read_char_encode c
  have hnone : ∀ d ∈ q, lead d.toNat = none := by
    rcases p with _ | ⟨d, p⟩
    · exact absurd rfl hp
    · rw [hc, List.cons_append] at h
      obtain ⟨-, rfl⟩ := List.cons_eq_cons.mp h
      exact fun d hd => hnext d (List.mem_append_right p hd)
  clear h
  induction q with
  | nil => rfl
  | cons d q ih =>
    have hread : read_char d (q ++ rest) = (none, q ++ rest) := by
      unfold read_char
      rw [hnone d List.mem_cons_self]
    rw [List.cons_append, from_utf8_lossy_cons, hread,
      ih fun e he => hnone e (List.mem_cons_of_mem d he)]
    rfl

end Ecode.utf8
