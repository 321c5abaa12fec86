import Mathlib.Data.Nat.Notation
import Mathlib.Logic.Function.Basic
import Mathlib.Tactic.Common

/-!
# Permutations of words

Rotation permutes the words of a width, and so does a round that adds, rotates and takes the
exclusive or, for any two words at a time. Rounds one after the other permute again.
-/

namespace JaxDas.AddRotateXor

variable {w : ℕ}

theorem rotateRight_rotateLeft (x : BitVec w) (r : ℕ) : (x.rotateLeft r).rotateRight r = x := by
  refine BitVec.eq_of_getLsbD_eq fun i hi => ?_
  have hr := Nat.mod_lt r (show 0 < w by omega)
  rw [BitVec.getLsbD_rotateRight]
  by_cases hlow : i < w - r % w
  · have hge : ¬ r % w + i < r % w := by omega
    have hsub : r % w + i - r % w = i := by omega
    have hwidth : r % w + i < w := by omega
    simp only [BitVec.getLsbD_rotateLeft, hlow, hge, hwidth, hsub, decide_true, decide_false,
      cond_true, cond_false, Bool.true_and]
  · have hlt : i - (w - r % w) < r % w := by omega
    have hadd : w - r % w + (i - (w - r % w)) = i := by omega
    simp only [BitVec.getLsbD_rotateLeft, hlow, hlt, hi, hadd, decide_true, decide_false, cond_true,
      cond_false, Bool.true_and]

theorem rotateLeft_rotateRight (x : BitVec w) (r : ℕ) : (x.rotateRight r).rotateLeft r = x := by
  refine BitVec.eq_of_getLsbD_eq fun i hi => ?_
  have hr := Nat.mod_lt r (show 0 < w by omega)
  rw [BitVec.getLsbD_rotateLeft]
  by_cases hlow : i < r % w
  · have hge : ¬ w - r % w + i < w - r % w := by omega
    have hsub : w - r % w + i - (w - r % w) = i := by omega
    have hwidth : w - r % w + i < w := by omega
    simp only [BitVec.getLsbD_rotateRight, hlow, hge, hwidth, hsub, decide_true, decide_false,
      cond_true, cond_false, Bool.true_and]
  · have hlt : i - r % w < w - r % w := by omega
    have hadd : r % w + (i - r % w) = i := by omega
    simp only [BitVec.getLsbD_rotateRight, hlow, hlt, hi, hadd, decide_true, decide_false,
      cond_true, cond_false, Bool.true_and]

/-- The round with rotation `r`. -/
def round (r : ℕ) (v : BitVec w × BitVec w) : BitVec w × BitVec w :=
  (v.1 + v.2, (v.1 + v.2) ^^^ v.2.rotateLeft r)

def unround (r : ℕ) (v : BitVec w × BitVec w) : BitVec w × BitVec w :=
  (v.1 - (v.1 ^^^ v.2).rotateRight r, (v.1 ^^^ v.2).rotateRight r)

theorem unround_round (r : ℕ) (v : BitVec w × BitVec w) : unround r (round r v) = v := by
  have hsnd : ((v.1 + v.2) ^^^ ((v.1 + v.2) ^^^ v.2.rotateLeft r)).rotateRight r = v.2 := by
    rw [← BitVec.xor_assoc, BitVec.xor_self, BitVec.zero_xor, rotateRight_rotateLeft]
  unfold unround round
  rw [hsnd, BitVec.add_sub_cancel]

theorem round_unround (r : ℕ) (v : BitVec w × BitVec w) : round r (unround r v) = v := by
  unfold unround round
  rw [BitVec.sub_add_cancel, rotateLeft_rotateRight, ← BitVec.xor_assoc, BitVec.xor_self,
    BitVec.zero_xor]

theorem round_bijective (r : ℕ) : Function.Bijective (round r : BitVec w × BitVec w → _) :=
  Function.bijective_iff_has_inverse.mpr ⟨unround r, unround_round r, round_unround r⟩

/-- Adding a word to each of two. -/
theorem add_bijective (a b : BitVec w) :
    Function.Bijective fun v : BitVec w × BitVec w => (v.1 + a, v.2 + b) :=
  Function.bijective_iff_has_inverse.mpr ⟨fun v => (v.1 - a, v.2 - b),
    fun v => by simp only [BitVec.add_sub_cancel],
    fun v => by simp only [BitVec.sub_add_cancel]⟩

theorem foldl_bijective {α β : Type} {f : α → β → α} : ∀ bs : List β,
    (∀ b ∈ bs, Function.Bijective (f · b)) → Function.Bijective fun a => bs.foldl f a
  | [], _ => Function.bijective_id
  | b :: bs, h =>
      (foldl_bijective bs fun c hc => h c (List.mem_cons_of_mem _ hc)).comp (h b List.mem_cons_self)

end JaxDas.AddRotateXor
