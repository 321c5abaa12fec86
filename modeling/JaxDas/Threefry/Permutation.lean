import JaxDas.Lib.AddRotateXor
import JaxDas.Threefry.Counters

/-!
# Different counters, different keys

For every key the hash permutes the pairs of words. So nothing that is made of whole hashes of
different counters can coincide: the keys of `_threefry_split_foldlike`, the keys of
`threefry_fold_in` and the 64-bit elements of the partitionable mode.
-/

namespace JaxDas.Threefry

variable {rolled : Bool} {key : Pair}

/-! ## The hash -/

theorem rotateLeft_eq {d : Word} (hd : 0 < d.toNat ∧ d.toNat < 32) (x : Word) :
    rotateLeft x d = x.rotateLeft d.toNat := by
  have hsub : (32 - d : Word).toNat = 32 - d.toNat := by
    rw [BitVec.toNat_sub]
    have h32 : (32 : Word).toNat = 32 := rfl
    omega
  rw [rotateLeft, BitVec.rotateLeft_def, BitVec.shiftLeft_eq', BitVec.ushiftRight_eq', hsub,
    Nat.mod_eq_of_lt hd.2]

theorem applyRound_bijective {rot : Word} (hrot : 0 < rot.toNat ∧ rot.toNat < 32) :
    Function.Bijective (applyRound · rot) := by
  have hround : (applyRound · rot) = AddRotateXor.round rot.toNat := by
    funext v
    rw [applyRound, rotateLeft_eq hrot]
    rfl
  rw [hround]
  exact AddRotateXor.round_bijective rot.toNat

theorem rounds_bijective {rots : List Word} (h : ∀ r ∈ rots, 0 < r.toNat ∧ r.toNat < 32) :
    Function.Bijective fun v => rots.foldl applyRound v :=
  AddRotateXor.foldl_bijective rots fun r hr => applyRound_bijective (h r hr)

/-- What is added to the words between the rounds. -/
def inject (a b c : Word) (v : Pair) : Pair := (v.1 + a, v.2 + b + c)

theorem inject_bijective (a b c : Word) : Function.Bijective (inject a b c) := by
  have hadd := AddRotateXor.add_bijective a (b + c)
  simp only [← BitVec.add_assoc] at hadd
  exact hadd

def rotations₀ : List Word := [13, 15, 26, 6]

def rotations₁ : List Word := [17, 29, 16, 24]

theorem rotations₀_bijective : Function.Bijective fun v => rotations₀.foldl applyRound v :=
  rounds_bijective (by simp [rotations₀])

theorem rotations₁_bijective : Function.Bijective fun v => rotations₁.foldl applyRound v :=
  rounds_bijective (by simp [rotations₁])

theorem threefry2x32Lowering_eq (key x : Pair) :
    threefry2x32Lowering key x false =
      inject (key.1 ^^^ key.2 ^^^ 0x1BD11BDA) key.1 5 (rotations₀.foldl applyRound
        (inject key.2 (key.1 ^^^ key.2 ^^^ 0x1BD11BDA) 4 (rotations₁.foldl applyRound
          (inject key.1 key.2 3 (rotations₀.foldl applyRound
            (inject (key.1 ^^^ key.2 ^^^ 0x1BD11BDA) key.1 2 (rotations₁.foldl applyRound
              (inject key.2 (key.1 ^^^ key.2 ^^^ 0x1BD11BDA) 1 (rotations₀.foldl applyRound
                (x.1 + key.1, x.2 + key.2)))))))))) := rfl

/-- For every key the hash is a permutation of the pairs of words. -/
theorem threefry2x32Lowering_bijective (key : Pair) (rolled : Bool) :
    Function.Bijective fun x => threefry2x32Lowering key x rolled := by
  have hunrolled : Function.Bijective fun x => threefry2x32Lowering key x false := by
    have h₁ := rotations₀_bijective.comp (AddRotateXor.add_bijective key.1 key.2)
    have h₂ := rotations₁_bijective.comp
      ((inject_bijective key.2 (key.1 ^^^ key.2 ^^^ 0x1BD11BDA) 1).comp h₁)
    have h₃ := rotations₀_bijective.comp
      ((inject_bijective (key.1 ^^^ key.2 ^^^ 0x1BD11BDA) key.1 2).comp h₂)
    have h₄ := rotations₁_bijective.comp ((inject_bijective key.1 key.2 3).comp h₃)
    have h₅ := rotations₀_bijective.comp
      ((inject_bijective key.2 (key.1 ^^^ key.2 ^^^ 0x1BD11BDA) 4).comp h₄)
    have h₆ := (inject_bijective (key.1 ^^^ key.2 ^^^ 0x1BD11BDA) key.1 5).comp h₅
    simp only [Function.comp_def] at h₆
    simp only [threefry2x32Lowering_eq]
    exact h₆
  cases rolled with
  | true =>
      simp only [rolled_eq_unrolled]
      exact hunrolled
  | false => exact hunrolled

/-! ## Seeds and keys -/

/-- `threefry_seed`, for a seed of 32 or of 64 bits -/
def threefrySeed {w : ℕ} (seed : BitVec w) : Pair :=
  ((seed >>> 32).setWidth 32, (seed &&& BitVec.ofNat w 0xFFFFFFFF).setWidth 32)

/-- `threefry_fold_in`, for data of a `uint32` -/
def threefryFoldIn (rolled : Bool) (key : Pair) (data : Word) : List Word :=
  threefry2x32 rolled key [(threefrySeed data).1, (threefrySeed data).2]

/-- `_threefry_split_foldlike`. The words of a key are next to each other in the last dimension. -/
def threefrySplitFoldlike (rolled : Bool) (key : Pair) (shape : List ℕ) : Option (NdArray Word) := do
  let counts ← iota2x32Shape shape
  some (.ofFn (shape ++ [2]) fun idx =>
    let bits := threefry2x32Lowering key (counts idx.dropLast) rolled
    if idx.getLastD 0 = 0 then bits.1 else bits.2)

/-- The key at an index. -/
def keyAt (keys : NdArray Word) (idx : List ℕ) : Option Pair := do
  let hi ← keys.get? (idx ++ [0])
  let lo ← keys.get? (idx ++ [1])
  some (hi, lo)

/-- A seed of 32 bits is the low word. -/
theorem threefrySeed_word (seed : Word) : threefrySeed seed = (0, seed) := by
  refine Prod.ext (BitVec.eq_of_toNat_eq ?_) (BitVec.eq_of_toNat_eq ?_)
  · have hlt := seed.isLt
    simp only [threefrySeed, BitVec.toNat_setWidth, BitVec.toNat_ushiftRight,
      Nat.shiftRight_eq_div_pow, Nat.div_eq_of_lt hlt]
    rfl
  · simp [threefrySeed, Nat.and_two_pow_sub_one_eq_mod seed.toNat 32, seed.isLt]

theorem threefryFoldIn_eq (rolled : Bool) (key : Pair) (data : Word) :
    threefryFoldIn rolled key data = [(threefry2x32Lowering key (0, data) rolled).1,
      (threefry2x32Lowering key (0, data) rolled).2] := by
  rw [threefryFoldIn, threefrySeed_word]
  simp [threefry2x32, threefry2x32P]

theorem counterWords_injOn : Set.InjOn counterWords (Set.Iio (2 ^ 64)) := by
  intro i hi j hj h
  rw [← counterWords_toNat hi, ← counterWords_toNat hj, h]

/-- What `_threefry_split_foldlike` returns, key by key. -/
theorem threefrySplitFoldlike_spec (rolled : Bool) (key : Pair) {shape : List ℕ}
    (hn : size shape ≤ 2 ^ 64) : ∃ keys, threefrySplitFoldlike rolled key shape = some keys ∧
      keys.shape = shape ++ [2] ∧ ∀ idx, Within shape idx → keyAt keys idx =
        some (threefry2x32Lowering key (counterWords (rowMajor shape idx)) rolled) := by
  obtain ⟨counts, hcounts, hget⟩ := iota2x32Shape_spec shape
  refine ⟨_, Option.bind_eq_some_iff.mpr ⟨counts, hcounts, rfl⟩, rfl, fun idx hidx => ?_⟩
  have hwithin : ∀ k < 2, Within (shape ++ [2]) (idx ++ [k]) :=
    fun k hk => within_append.mpr ⟨idx, [k], rfl, hidx, .cons hk .nil⟩
  have hcount := hget idx hidx (Nat.lt_of_lt_of_le (rowMajor_lt hidx) hn)
  rw [keyAt, NdArray.ofFn_get? _ (hwithin 0 (by omega)), NdArray.ofFn_get? _ (hwithin 1 (by omega))]
  simp [hcount]

/-- **The keys of a split.** They are pairwise different, and the first ones are the keys that the
numbers fold in to. -/
theorem threefrySplitFoldlike_keys (rolled : Bool) (key : Pair) {shape : List ℕ}
    (hn : size shape ≤ 2 ^ 64) : ∃ keys, threefrySplitFoldlike rolled key shape = some keys ∧
      keys.shape = shape ++ [2] ∧
      (∀ idx idx', Within shape idx → Within shape idx' → keyAt keys idx = keyAt keys idx' →
        idx = idx') ∧
      ∀ idx, Within shape idx → rowMajor shape idx < 2 ^ 32 → ∃ k, keyAt keys idx = some k ∧
        threefryFoldIn rolled key (BitVec.ofNat 32 (rowMajor shape idx)) = [k.1, k.2] := by
  obtain ⟨keys, hkeys, hshape, hget⟩ := threefrySplitFoldlike_spec rolled key hn
  refine ⟨keys, hkeys, hshape, fun idx idx' hidx hidx' heq => ?_, fun idx hidx hlt => ?_⟩
  · rw [hget idx hidx, hget idx' hidx'] at heq
    have hcounters : counterWords (rowMajor shape idx) = counterWords (rowMajor shape idx') :=
      (threefry2x32Lowering_bijective key rolled).injective (Option.some.inj heq)
    refine rowMajor_inj hidx hidx' (counterWords_injOn ?_ ?_ hcounters)
    · exact Nat.lt_of_lt_of_le (rowMajor_lt hidx) hn
    · exact Nat.lt_of_lt_of_le (rowMajor_lt hidx') hn
  · refine ⟨_, hget idx hidx, ?_⟩
    have hhi : counterWords (rowMajor shape idx) =
        (0, BitVec.ofNat 32 (rowMajor shape idx)) := by
      rw [counterWords, Nat.div_eq_of_lt hlt]
      rfl
    rw [threefryFoldIn_eq, hhi]

theorem threefrySplitFoldlike_square : ∃ keys, threefrySplitFoldlike true (0, 42) [2, 2] = some keys ∧
    keys.shape = [2, 2] ++ [2] ∧
    (∀ idx idx', Within [2, 2] idx → Within [2, 2] idx' → keyAt keys idx = keyAt keys idx' →
      idx = idx') ∧
    ∀ idx, Within [2, 2] idx → rowMajor [2, 2] idx < 2 ^ 32 → ∃ k, keyAt keys idx = some k ∧
      threefryFoldIn true (0, 42) (BitVec.ofNat 32 (rowMajor [2, 2] idx)) = [k.1, k.2] :=
  threefrySplitFoldlike_keys true (0, 42) (by decide)

/-- Different numbers fold in to different keys. -/
theorem threefryFoldIn_injective (rolled : Bool) (key : Pair) :
    Function.Injective (threefryFoldIn rolled key) := by
  intro a b h
  rw [threefryFoldIn_eq, threefryFoldIn_eq] at h
  obtain ⟨hhi, hlo⟩ := List.cons.inj h
  have hpair : ((0, a) : Pair) = (0, b) := (threefry2x32Lowering_bijective key rolled).injective
    (Prod.ext hhi (List.cons.inj hlo).1)
  exact (Prod.mk.inj hpair).2

/-! ## 64-bit elements -/

theorem joinWords_injective {x y : Pair} (h : joinWords 64 x.1 x.2 = joinWords 64 y.1 y.2) :
    x = y := by
  have hx₁ := x.1.isLt
  have hx₂ := x.2.isLt
  have hy₁ := y.1.isLt
  have hy₂ := y.2.isLt
  have hnat := congrArg BitVec.toNat h
  rw [joinWords_eq, joinWords_eq, BitVec.toNat_ofNat, BitVec.toNat_ofNat, Nat.mod_eq_of_lt (by omega),
    Nat.mod_eq_of_lt (by omega)] at hnat
  exact Prod.ext (BitVec.eq_of_toNat_eq (by omega)) (BitVec.eq_of_toNat_eq (by omega))

/-- **64-bit elements.** No two elements of the partitionable mode are equal. -/
theorem threefryRandomBitsPartitionable_distinct (rolled : Bool) (key : Pair) {shape : List ℕ}
    (hn : size shape ≤ 2 ^ 64) :
    ∃ x, threefryRandomBitsPartitionable rolled key 64 shape = .ok x ∧ x.shape = shape ∧
      ∀ idx idx', Within shape idx → Within shape idx' → x.get? idx = x.get? idx' →
        idx = idx' := by
  obtain ⟨x, hx, hshape, hget⟩ := threefryRandomBitsPartitionable_eq rolled key 64 hn
  refine ⟨x, hx, hshape, fun idx idx' hidx hidx' heq => ?_⟩
  rw [hget idx hidx, hget idx' hidx', packHash, packHash, if_pos rfl, if_pos rfl] at heq
  have hcounters : counterWords (rowMajor shape idx) = counterWords (rowMajor shape idx') :=
    (threefry2x32Lowering_bijective key rolled).injective (joinWords_injective (Option.some.inj heq))
  refine rowMajor_inj hidx hidx' (counterWords_injOn ?_ ?_ hcounters)
  · exact Nat.lt_of_lt_of_le (rowMajor_lt hidx) hn
  · exact Nat.lt_of_lt_of_le (rowMajor_lt hidx') hn

theorem threefryRandomBits_distinct : ∃ x,
    threefryRandomBitsPartitionable false (0, 42) 64 [3, 4] = .ok x ∧ x.shape = [3, 4] ∧
      ∀ idx idx', Within [3, 4] idx → Within [3, 4] idx' → x.get? idx = x.get? idx' →
        idx = idx' :=
  threefryRandomBitsPartitionable_distinct false (0, 42) (by decide)

end JaxDas.Threefry
