import Mathlib.Data.Int.Basic
import Mathlib.Tactic.Common
import Mathlib.Tactic.Ring
import JaxDas.Lib.Fallible

/-!
# Base-64 variable-length quantities

An integer is written with its sign in the lowest bit, five bits a digit, least significant
first. Every digit but the last has the bit `VLQ_MORE_MASK`. A decoder takes digits from an
iterator, which is the list of the bytes it has not read yet.
-/

namespace JaxDas.SourceMap

/-- The exceptions of the module. -/
inductive PyError
  /-- An iterator has run out. -/
  | stopIteration
  /-- `None & int`: a byte that is no digit. -/
  | typeError
  /-- `RuntimeError: No current group. Forgot to call new_group()?` -/
  | runtimeError
  | assertionError
  | indexError
  /-- A character or byte that is not ASCII. -/
  | unicodeError
  deriving DecidableEq, Repr

/-- `VLQ_ALPHABET` -/
def vlqAlphabet : List UInt8 :=
  (List.range 26).map (fun i => UInt8.ofNat (65 + i)) ++
    (List.range 26).map (fun i => UInt8.ofNat (97 + i)) ++
    (List.range 10).map (fun i => UInt8.ofNat (48 + i)) ++ [43, 47]

/-- `VLQ_DECODE_TABLE` -/
def vlqDecodeTable (c : UInt8) : Option ℕ :=
  vlqAlphabet.idxOf? c

/-- The loop of `decode_vlq` after the digit `d`, with the shift of the next digit. -/
def decodeMore (d shift value : ℕ) : List UInt8 → Except PyError (ℕ × List UInt8)
  | [] => if d &&& 0x20 ≠ 0 then .error .stopIteration else .ok (value, [])
  | c :: enc =>
      if d &&& 0x20 ≠ 0 then
        match vlqDecodeTable c with
        | none => .error .typeError
        | some d => decodeMore d (shift + 5) (value ||| (d &&& 0x1F) <<< shift) enc
      else .ok (value, c :: enc)

/-- `decode_vlq`, with what is left of the iterator. The first digit holds four bits of the
value, so the shift of the second one is `-1 + VLQ_VALUE_BITWIDTH`. -/
def decodeVlq : List UInt8 → Except PyError (ℤ × List UInt8)
  | [] => .error .stopIteration
  | c :: enc =>
      match vlqDecodeTable c with
      | none => .error .typeError
      | some d => do
          let (value, enc) ← decodeMore d 4 ((d &&& 0x1F) >>> 1) enc
          return (if d &&& 0x01 ≠ 0 then -(value : ℤ) else value, enc)

/-- The loop of `encode_vlq`. -/
def encodeDigits (value : ℕ) : List UInt8 :=
  let d := value &&& 0x1F
  if value >>> 5 > 0 then
    vlqAlphabet.getD (d ||| 0x20) 0 :: encodeDigits (value >>> 5)
  else [vlqAlphabet.getD d 0]
  termination_by value
  decreasing_by
    rw [Nat.shiftRight_eq_div_pow] at *
    omega

/-- `encode_vlq` -/
def encodeVlq (value : ℤ) : List UInt8 :=
  encodeDigits (if value < 0 then value.natAbs <<< 1 ||| 1 else value.natAbs <<< 1)

/-! ### Digits -/

theorem vlqDecodeTable_alphabet {d : ℕ} (h : d < 64) :
    vlqDecodeTable (vlqAlphabet.getD d 0) = some d := by
  have hall : ∀ d : Fin 64, vlqDecodeTable (vlqAlphabet.getD d 0) = some d.val := by decide
  exact hall ⟨d, h⟩

/-- A digit that is not the last one. -/
theorem more_digit {x : ℕ} (h : x < 32) :
    x ||| 0x20 < 64 ∧ (x ||| 0x20) &&& 0x20 ≠ 0 ∧ (x ||| 0x20) &&& 0x1F = x ∧
      (x ||| 0x20) &&& 0x01 = x % 2 := by
  have hall : ∀ x : Fin 32, x.val ||| 0x20 < 64 ∧ (x.val ||| 0x20) &&& 0x20 ≠ 0 ∧
      (x.val ||| 0x20) &&& 0x1F = x ∧ (x.val ||| 0x20) &&& 0x01 = x.val % 2 := by decide
  exact hall ⟨x, h⟩

/-- The last digit. -/
theorem last_digit {x : ℕ} (h : x < 32) :
    x &&& 0x20 = 0 ∧ x &&& 0x1F = x ∧ x &&& 0x01 = x % 2 := by
  have hall : ∀ x : Fin 32, x.val &&& 0x20 = 0 ∧ x.val &&& 0x1F = x ∧
      x.val &&& 0x01 = x.val % 2 := by decide
  exact hall ⟨x, h⟩

theorem encodeDigits_eq (n : ℕ) :
    encodeDigits n = if n / 32 > 0 then
      vlqAlphabet.getD (n % 32 ||| 0x20) 0 :: encodeDigits (n / 32)
    else [vlqAlphabet.getD (n % 32) 0] := by
  have hand : n &&& 0x1F = n % 32 := Nat.and_two_pow_sub_one_eq_mod n 5
  have hshift : n >>> 5 = n / 32 := Nat.shiftRight_eq_div_pow n 5
  rw [encodeDigits, hand, hshift]

theorem decodeMore_last {d : ℕ} (h : d &&& 0x20 = 0) (shift value : ℕ) (enc : List UInt8) :
    decodeMore d shift value enc = .ok (value, enc) := by
  cases enc <;> exact if_neg (not_not_intro h)

theorem or_shiftLeft {value shift : ℕ} (h : value < 2 ^ shift) (x : ℕ) :
    value ||| x <<< shift = value + x * 2 ^ shift := by
  rw [Nat.or_comm, ← Nat.shiftLeft_add_eq_or_of_lt h, Nat.shiftLeft_eq, Nat.add_comm]

/-- What the loop of the decoder makes of the digits of a number. -/
theorem decodeMore_encodeDigits (n : ℕ) : ∀ {d shift value : ℕ} (rest : List UInt8),
    d &&& 0x20 ≠ 0 → value < 2 ^ shift →
    decodeMore d shift value (encodeDigits n ++ rest) = .ok (value + n * 2 ^ shift, rest) := by
  induction n using Nat.strongRecOn with
  | ind n ih =>
      intro d shift value rest hd hvalue
      have hlt : n % 32 < 32 := Nat.mod_lt n (by omega)
      have hpow : 2 ^ (shift + 5) = 2 ^ shift * 32 := Nat.pow_add 2 shift 5
      have hnext : value + n % 32 * 2 ^ shift < 2 ^ (shift + 5) := by
        have hmul : n % 32 * 2 ^ shift ≤ 31 * 2 ^ shift := Nat.mul_le_mul_right _ (by omega)
        omega
      rw [encodeDigits_eq]
      by_cases hmore : n / 32 > 0
      · obtain ⟨hdig, hflag, hval, _⟩ := more_digit hlt
        have hsmall : n / 32 < n := by omega
        rw [if_pos hmore]
        rw [List.cons_append, decodeMore, if_pos hd]
        simp only [vlqDecodeTable_alphabet hdig, hval, or_shiftLeft hvalue]
        rw [ih (n / 32) hsmall rest hflag hnext]
        have hsplit : n % 32 + 32 * (n / 32) = n := Nat.mod_add_div n 32
        have hsum : value + n % 32 * 2 ^ shift + n / 32 * 2 ^ (shift + 5) =
            value + (n % 32 + 32 * (n / 32)) * 2 ^ shift := by
          rw [hpow]
          ring
        rw [hsum, hsplit]
      · obtain ⟨hflag, hval, _⟩ := last_digit hlt
        have hn : n % 32 = n := Nat.mod_eq_of_lt (by omega)
        rw [if_neg hmore]
        rw [List.cons_append, List.nil_append, decodeMore, if_pos hd]
        simp only [vlqDecodeTable_alphabet (by omega : n % 32 < 64), hval, or_shiftLeft hvalue]
        rw [decodeMore_last hflag, hn]

/-- The decoder gives the integer back and reads exactly what the encoder wrote. -/
theorem decodeVlq_encodeVlq (v : ℤ) (rest : List UInt8) :
    decodeVlq (encodeVlq v ++ rest) = .ok (v, rest) := by
  -- the number that is written: the magnitude, and the sign below it
  obtain ⟨n, hn, hhalf, hsign⟩ : ∃ n, encodeVlq v = encodeDigits n ∧ n / 2 = v.natAbs ∧
      (n % 2 ≠ 0 ↔ v < 0) := by
    unfold encodeVlq
    split
    · rename_i hneg
      refine ⟨_, rfl, ?_⟩
      have hor : v.natAbs <<< 1 ||| 1 = 2 * v.natAbs + 1 := by
        rw [← Nat.shiftLeft_add_eq_or_of_lt (by omega), Nat.shiftLeft_eq]
        omega
      rw [hor]
      exact ⟨by omega, by omega⟩
    · rename_i hpos
      refine ⟨_, rfl, ?_⟩
      rw [Nat.shiftLeft_eq]
      exact ⟨by omega, by omega⟩
  rw [hn, encodeDigits_eq]
  have hlt : n % 32 < 32 := Nat.mod_lt n (by omega)
  have hresult : (if n % 2 ≠ 0 then -((n / 2 : ℕ) : ℤ) else (n / 2 : ℕ)) = v := by
    rw [hhalf]
    split <;> omega
  have hmod : n % 32 % 2 = n % 2 := Nat.mod_mod_of_dvd n (by decide)
  have hshift : (n % 32) >>> 1 = n % 32 / 2 := Nat.shiftRight_eq_div_pow _ 1
  by_cases hmore : n / 32 > 0
  · obtain ⟨hdig, hflag, hval, hbit⟩ := more_digit hlt
    have hfour : n % 32 / 2 < 2 ^ 4 := by omega
    have hsum : n % 32 / 2 + n / 32 * 2 ^ 4 = n / 2 := by omega
    rw [if_pos hmore, List.cons_append, decodeVlq, vlqDecodeTable_alphabet hdig]
    simp only [hval, hbit, hmod, hshift]
    rw [decodeMore_encodeDigits (n / 32) rest hflag hfour, hsum]
    exact congrArg (fun x => Except.ok (x, rest)) hresult
  · obtain ⟨hflag, hval, hbit⟩ := last_digit hlt
    have hhalf' : n % 32 / 2 = n / 2 := by omega
    rw [if_neg hmore, List.cons_append, decodeVlq,
      vlqDecodeTable_alphabet (by omega : n % 32 < 64)]
    simp only [hval, hbit, hmod, hshift]
    rw [List.nil_append, decodeMore_last hflag, hhalf']
    exact congrArg (fun x => Except.ok (x, rest)) hresult

/-! ### The bytes of an encoding -/

theorem encodeDigits_mem {n : ℕ} {c : UInt8} (h : c ∈ encodeDigits n) : c ∈ vlqAlphabet := by
  induction n using Nat.strongRecOn with
  | ind n ih =>
      have hget : ∀ {d : ℕ}, d < 64 → vlqAlphabet.getD d 0 ∈ vlqAlphabet := by
        intro d hd
        have hall : ∀ d : Fin 64, vlqAlphabet.getD d 0 ∈ vlqAlphabet := by decide
        exact hall ⟨d, hd⟩
      have hlt : n % 32 < 32 := Nat.mod_lt n (by omega)
      rw [encodeDigits_eq] at h
      split at h
      · rcases List.mem_cons.mp h with rfl | h
        · exact hget (more_digit hlt).1
        · exact ih (n / 32) (by omega) h
      · rw [List.mem_singleton.mp h]
        exact hget (by omega)

theorem encodeDigits_ne_nil (n : ℕ) : encodeDigits n ≠ [] := by
  rw [encodeDigits_eq]
  split <;> exact List.cons_ne_nil _ _

end JaxDas.SourceMap
