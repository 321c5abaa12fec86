import JaxDas.Threefry.RandomBits
import Mathlib.Data.Set.Function
import Mathlib.Data.Nat.ModEq

/-!
# Every counter once

Which hash every word of `threefry_2x32` is a part of, and which words every element is made of. In
the original mode the words are the parts of the hashes of different pairs of counters, in the
partitionable mode an element is the hash of its row-major index.
-/

namespace JaxDas.Threefry

variable {rolled : Bool} {key : Pair}

/-! ## The words of a hash -/

def halfCount (n : ℕ) : ℕ := (n + 1) / 2

/-- The counters that are hashed together, a padding 0 included. -/
def pairAt (count : List Word) (j : ℕ) : Pair :=
  (count.getD j 0, count.getD (halfCount count.length + j) 0)

/-- The pair of counters a word is hashed from, and whether it is the second word of the hash. -/
def source (count : List Word) (k : ℕ) : Pair × Bool :=
  if k < halfCount count.length then (pairAt count k, false)
  else (pairAt count (k - halfCount count.length), true)

def hashWord (rolled : Bool) (key : Pair) (s : Pair × Bool) : Word :=
  if s.2 then (threefry2x32Lowering key s.1 rolled).2 else (threefry2x32Lowering key s.1 rolled).1

theorem padded_spec (count : List Word) :
    (if count.length % 2 ≠ 0 then count ++ [0] else count).length = 2 * halfCount count.length ∧
      ∀ i, (if count.length % 2 ≠ 0 then count ++ [0] else count).getD i 0 = count.getD i 0 := by
  unfold halfCount
  split
  · refine ⟨by rw [List.length_append, List.length_singleton]; omega, fun i => ?_⟩
    rcases Nat.lt_trichotomy i count.length with hi | rfl | hi
    · rw [List.getD_append _ _ _ _ hi]
    · simp [List.getD]
    · rw [List.getD_eq_default _ _ (by rw [List.length_append, List.length_singleton]; omega),
        List.getD_eq_default _ _ (Nat.le_of_lt hi)]
  · exact ⟨by omega, fun _ => rfl⟩

theorem getD_map_zipWith (f : Word → Word → Pair) (g : Pair → Word) {x₀ x₁ : List Word} {j : ℕ}
    (h₀ : j < x₀.length) (h₁ : j < x₁.length) :
    ((List.zipWith f x₀ x₁).map g).getD j 0 = g (f (x₀.getD j 0) (x₁.getD j 0)) := by
  simp [List.getD, h₀, h₁]

theorem threefry2x32P_getD {x₀ x₁ : List Word} {j : ℕ} (h₀ : j < x₀.length) (h₁ : j < x₁.length) :
    (threefry2x32P rolled key x₀ x₁).1.getD j 0 =
        (threefry2x32Lowering key (x₀.getD j 0, x₁.getD j 0) rolled).1 ∧
      (threefry2x32P rolled key x₀ x₁).2.getD j 0 =
        (threefry2x32Lowering key (x₀.getD j 0, x₁.getD j 0) rolled).2 :=
  ⟨getD_map_zipWith _ Prod.fst h₀ h₁, getD_map_zipWith _ Prod.snd h₀ h₁⟩

/-- The words before the last one is dropped, where there was a padding. -/
theorem out_spec (count : List Word) {padded : List Word}
    (hlen : padded.length = 2 * halfCount count.length)
    (hget : ∀ i, padded.getD i 0 = count.getD i 0) :
    let x := threefry2x32P rolled key (padded.take (padded.length / 2))
      (padded.drop (padded.length / 2))
    (x.1 ++ x.2).length = 2 * halfCount count.length ∧
      ∀ k < 2 * halfCount count.length,
        (x.1 ++ x.2).getD k 0 = hashWord rolled key (source count k) := by
  intro x
  have hhalf : padded.length / 2 = halfCount count.length := by omega
  have htake : (padded.take (padded.length / 2)).length = halfCount count.length := by
    rw [List.length_take]
    omega
  have hdrop : (padded.drop (padded.length / 2)).length = halfCount count.length := by
    rw [List.length_drop]
    omega
  have hlen₁ : x.1.length = halfCount count.length := by
    simp only [x, threefry2x32P, List.length_map, List.length_zipWith, htake, hdrop, Nat.min_self]
  have hlen₂ : x.2.length = halfCount count.length := by
    simp only [x, threefry2x32P, List.length_map, List.length_zipWith, htake, hdrop, Nat.min_self]
  have hpair : ∀ j < halfCount count.length, ((padded.take (padded.length / 2)).getD j 0,
      (padded.drop (padded.length / 2)).getD j 0) = pairAt count j := by
    intro j hj
    rw [pairAt, ← hget j, ← hget (halfCount count.length + j), hhalf]
    simp [List.getD, hj]
  refine ⟨by rw [List.length_append, hlen₁, hlen₂]; omega, fun k hk => ?_⟩
  unfold source hashWord
  by_cases hfirst : k < halfCount count.length
  · rw [if_pos hfirst, List.getD_append _ _ _ _ (by omega),
      (threefry2x32P_getD (by omega) (by omega)).1, hpair k hfirst]
    rfl
  · rw [if_neg hfirst, List.getD_append_right _ _ _ _ (by omega), hlen₁,
      (threefry2x32P_getD (by omega) (by omega)).2, hpair _ (by omega)]
    rfl

theorem threefry2x32_spec (rolled : Bool) (key : Pair) (count : List Word) :
    (threefry2x32 rolled key count).length = count.length ∧
      ∀ k < count.length,
        (threefry2x32 rolled key count).getD k 0 = hashWord rolled key (source count k) := by
  obtain ⟨hlen, hget⟩ := padded_spec count
  obtain ⟨hout, hwords⟩ := @out_spec rolled key count _ hlen hget
  unfold threefry2x32
  dsimp only at hout hwords ⊢
  unfold halfCount at hout hwords
  split
  · next hodd =>
      rw [if_pos hodd] at hout hwords
      refine ⟨by rw [List.length_dropLast, hout]; omega, fun k hk => ?_⟩
      rw [← hwords k (by omega), List.getD, List.getD, List.getElem?_dropLast, if_pos (by omega)]
  · next heven =>
      rw [if_neg heven] at hout hwords
      exact ⟨by rw [hout]; omega, fun k hk => hwords k (by omega)⟩

/-! ## Different counters -/

theorem length_iota (n : ℕ) : (iota n).length = n := by simp [iota]

theorem iota_getD {n i : ℕ} (hi : i < n) : (iota n).getD i 0 = BitVec.ofNat 32 i := by
  simp [iota, List.getD, hi]

/-- No two words are the same part of the hash of the same counters. -/
theorem source_injOn {n : ℕ} (hn : n < 2 ^ 32 - 1) : Set.InjOn (source (iota n)) (Set.Iio n) := by
  have hpair : ∀ {j j' : ℕ}, j < n → j' < n → pairAt (iota n) j = pairAt (iota n) j' → j = j' := by
    intro j j' hj hj' heq
    have hfst := congrArg (fun p : Pair => p.1.toNat) heq
    simp only [pairAt, iota_getD hj, iota_getD hj', BitVec.toNat_ofNat] at hfst
    rwa [Nat.mod_eq_of_lt (by omega), Nat.mod_eq_of_lt (by omega)] at hfst
  intro k hk k' hk' heq
  rw [Set.mem_Iio] at hk hk'
  unfold source at heq
  rw [length_iota] at heq
  have hhalf : n ≤ 2 * halfCount n := by unfold halfCount; omega
  split at heq
  · split at heq
    · exact hpair hk hk' (congrArg Prod.fst heq)
    · cases congrArg Prod.snd heq
  · split at heq
    · cases congrArg Prod.snd heq
    · have := hpair (by omega) (by omega) (congrArg Prod.fst heq)
      omega

/-! ## The elements of the original mode -/

/-- The element `i` of an array of `n` elements, in the words that are drawn. -/
def element (bit_width n : ℕ) (words : List Word) (i : ℕ) : BitVec bit_width :=
  if bit_width = 64 then
    BitVec.ofNat bit_width ((words.getD i 0).toNat * 2 ^ 32 + (words.getD (n + i) 0).toNat)
  else (words.getD (i / (32 / bit_width)) 0).extractLsb' (bit_width * (i % (32 / bit_width))) bit_width

theorem joinWords_eq (hi lo : Word) :
    joinWords 64 hi lo = BitVec.ofNat 64 (hi.toNat * 2 ^ 32 + lo.toNat) := by
  have hhi := hi.isLt
  have hlo := lo.isLt
  apply BitVec.eq_of_toNat_eq
  have hshift : ((hi.setWidth 64) <<< 32).toNat = hi.toNat <<< 32 := by
    rw [BitVec.toNat_shiftLeft, BitVec.toNat_setWidth, Nat.shiftLeft_eq, Nat.shiftLeft_eq]
    omega
  rw [joinWords, BitVec.toNat_or, hshift, BitVec.toNat_setWidth, BitVec.toNat_ofNat,
    Nat.mod_eq_of_lt (show lo.toNat < 2 ^ 64 by omega), ← Nat.shiftLeft_add_eq_or_of_lt hlo,
    Nat.shiftLeft_eq, Nat.mod_eq_of_lt (show _ < 2 ^ 64 by omega)]

/-- A field of a word, by a shift and a mask. -/
theorem field_eq {bit_width i : ℕ} (b : Word) (hw : bit_width ≤ 32) (hi : bit_width * i < 32) :
    (BitVec.ofNat 32 (2 ^ bit_width - 1) &&&
      b >>> (BitVec.ofNat 32 bit_width * BitVec.ofNat 32 i)).setWidth bit_width =
      b.extractLsb' (bit_width * i) bit_width := by
  have hshift : (BitVec.ofNat 32 bit_width * BitVec.ofNat 32 i).toNat = bit_width * i := by
    rw [BitVec.toNat_mul, BitVec.toNat_ofNat, BitVec.toNat_ofNat, ← Nat.mul_mod,
      Nat.mod_eq_of_lt (by omega)]
  have hmask : 2 ^ bit_width - 1 < 2 ^ 32 := by
    have := Nat.pow_le_pow_right (show 0 < 2 by omega) hw
    omega
  apply BitVec.eq_of_toNat_eq
  rw [BitVec.toNat_setWidth, BitVec.toNat_and, BitVec.toNat_ofNat, Nat.mod_eq_of_lt hmask,
    BitVec.ushiftRight_eq', hshift, BitVec.toNat_ushiftRight, BitVec.extractLsb'_toNat,
    Nat.and_comm, Nat.and_two_pow_sub_one_eq_mod, Nat.mod_mod]

/-- The rows of a rectangle, one after the other. -/
theorem flatMap_range {β : Type} (f : ℕ → ℕ → β) {m : ℕ} (hm : 0 < m) : ∀ n : ℕ,
    (List.range n).flatMap (fun j => (List.range m).map (f j)) =
      (List.range (n * m)).map fun k => f (k / m) (k % m)
  | 0 => by simp
  | n + 1 => by
      rw [List.range_succ, List.flatMap_append, flatMap_range f hm n, Nat.succ_mul, List.range_add,
        List.map_append, List.flatMap_singleton, List.map_map]
      congr 1
      refine List.map_congr_left fun i hi => ?_
      have hi := List.mem_range.mp hi
      rw [Function.comp_apply, Nat.mul_comm, Nat.mul_add_div hm, Nat.div_eq_of_lt hi, Nat.add_zero,
        Nat.mul_add_mod, Nat.mod_eq_of_lt hi]

def IsBitWidth (bit_width : ℕ) : Prop :=
  bit_width = 8 ∨ bit_width = 16 ∨ bit_width = 32 ∨ bit_width = 64

/-- The number of words is rounded up. -/
theorem maxCount_eq (bit_width n : ℕ) : maxCount bit_width n = (bit_width * n + 31) / 32 := by
  unfold maxCount
  split <;> omega

theorem columns_fieldRows (bit_width : ℕ) (words : List Word) :
    columns (fieldRows bit_width words) words.length =
      (List.range words.length).flatMap fun j => (List.range (32 / bit_width)).map fun i =>
        BitVec.ofNat 32 (2 ^ bit_width - 1) &&&
          words.getD j 0 >>> (BitVec.ofNat 32 bit_width * BitVec.ofNat 32 i) := by
  refine List.flatMap_congr fun j hj => ?_
  have hj := List.mem_range.mp hj
  rw [fieldRows, List.map_map]
  refine List.map_congr_left fun i _ => ?_
  simp [List.getD, hj]

theorem unpack_narrow {bit_width n : ℕ} (hw : bit_width = 8 ∨ bit_width = 16) {words : List Word}
    (hlen : words.length = maxCount bit_width n) :
    unpack bit_width words n = (List.range n).map (element bit_width n words) := by
  have hne : bit_width ≠ 64 := by omega
  have hfields : 0 < 32 / bit_width ∧ bit_width * (32 / bit_width) = 32 := by
    rcases hw with rfl | rfl <;> decide
  have hcount : n ≤ words.length * (32 / bit_width) := by
    rw [hlen, maxCount_eq]
    rcases hw with rfl | rfl <;> omega
  rw [unpack, if_neg hne, if_pos hw, columns_fieldRows, flatMap_range _ hfields.1, List.map_map,
    ← List.map_take, List.take_range, Nat.min_eq_left hcount]
  refine List.map_congr_left fun k _ => ?_
  have hi : bit_width * (k % (32 / bit_width)) < 32 := by
    have hlt := Nat.mod_lt k hfields.1
    have hle := Nat.mul_le_mul_left bit_width (show k % (32 / bit_width) + 1 ≤ 32 / bit_width from hlt)
    rw [Nat.mul_add, hfields.2] at hle
    omega
  rw [element, if_neg hne, ← field_eq _ (by omega) hi]
  rfl

theorem unpack_word {n : ℕ} {words : List Word} (hlen : words.length = maxCount 32 n) :
    unpack 32 words n = (List.range n).map (element 32 n words) := by
  have hn : words.length = n := by rw [hlen, maxCount_eq]; omega
  rw [unpack, if_neg (by decide), if_neg (by decide)]
  refine List.ext_getElem (by simp [hn]) fun i hi hi' => ?_
  have hi : i < words.length := by simpa using hi
  simp only [List.getElem_map, List.getElem_range, element, Nat.reduceDiv, Nat.div_one, Nat.mod_one,
    Nat.reduceEqDiff, if_false, Nat.mul_zero, List.getD_eq_getElem _ _ hi]
  exact BitVec.eq_of_toNat_eq (by simp)

theorem unpack_wide {n : ℕ} {words : List Word} (hlen : words.length = maxCount 64 n) :
    unpack 64 words n = (List.range n).map (element 64 n words) := by
  have hn : words.length = n + n := by rw [hlen, maxCount_eq]; omega
  have hhalf : words.length / 2 = n := by omega
  rw [unpack, if_pos rfl, hhalf]
  refine List.ext_getElem (by simp [hn]) fun i hi hi' => ?_
  have hi : i < n := by simpa using hi'
  simp only [List.getElem_zipWith, List.getElem_take, List.getElem_drop, List.getElem_map,
    List.getElem_range, element, if_true]
  rw [joinWords_eq, List.getD_eq_getElem _ _ (show i < words.length by omega),
    List.getD_eq_getElem _ _ (show n + i < words.length by omega)]

theorem unpack_eq {bit_width n : ℕ} (hw : IsBitWidth bit_width) {words : List Word}
    (hlen : words.length = maxCount bit_width n) :
    unpack bit_width words n = (List.range n).map (element bit_width n words) := by
  rcases hw with rfl | rfl | rfl | rfl
  · exact unpack_narrow (.inl rfl) hlen
  · exact unpack_narrow (.inr rfl) hlen
  · exact unpack_word hlen
  · exact unpack_wide hlen

/-- The array of the original mode, from the words of one hash over 0, 1, 2, ... -/
theorem threefryRandomBitsOriginal_eq {bit_width : ℕ} {shape : List ℕ} (hw : IsBitWidth bit_width)
    (hcount : maxCount bit_width (size shape) < 2 ^ 32 - 1) :
    ∃ t, threefryRandomBitsOriginal rolled key bit_width shape = some t ∧ t.shape = shape ∧
      t.data = (List.range (size shape)).map (element bit_width (size shape)
        (threefry2x32 rolled key (iota (maxCount bit_width (size shape))))) := by
  have hwords : randomWords rolled key (maxCount bit_width (size shape)) =
      threefry2x32 rolled key (iota (maxCount bit_width (size shape))) := by
    rw [randomWords, if_pos (Nat.div_eq_of_lt hcount), Nat.mod_eq_of_lt hcount]
  have hlen : (threefry2x32 rolled key (iota (maxCount bit_width (size shape)))).length =
      maxCount bit_width (size shape) := by
    rw [(threefry2x32_spec rolled key _).1, length_iota]
  have hunpack := unpack_eq hw hlen
  rw [← hwords] at hunpack ⊢
  have hsize : (unpack bit_width (randomWords rolled key (maxCount bit_width (size shape)))
      (size shape)).length = size shape := by
    rw [hunpack, List.length_map, List.length_range]
  exact ⟨_, dif_pos hsize, rfl, hunpack⟩

/-! ## The counters of the partitionable mode -/

/-- The strides, by recursion over the shape. -/
def weights : List ℕ → List (BitVec 64)
  | [] => []
  | _ :: dims => BitVec.ofNat 64 (size dims) :: weights dims

theorem cumprod_append : ∀ (acc : BitVec 64) (ds : List ℕ) (d : ℕ), cumprod acc (ds ++ [d]) =
    cumprod acc ds ++ [acc * BitVec.ofNat 64 (size ds) * BitVec.ofNat 64 d]
  | acc, [], d => by simp [cumprod, size]
  | acc, e :: ds, d => by
      rw [List.cons_append, cumprod, cumprod, cumprod_append, size, BitVec.ofNat_mul,
        List.cons_append, BitVec.mul_assoc acc]

theorem size_reverse : ∀ ds : List ℕ, size ds.reverse = size ds
  | [] => rfl
  | d :: ds => by
      have hone : size [d] = d := Nat.mul_one d
      rw [List.reverse_cons, size_append, size_reverse ds, hone]
      exact Nat.mul_comm _ _

theorem strides_eq : ∀ {shape : List ℕ}, shape ≠ [] → strides shape = weights shape
  | [_], _ => rfl
  | d :: e :: dims, _ => by
      have ih := strides_eq (List.cons_ne_nil e dims)
      rw [strides, List.tail_cons] at ih
      rw [strides, List.tail_cons, List.reverse_cons, cumprod_append, List.reverse_append,
        List.reverse_singleton, List.singleton_append, List.cons_append, ih, size_reverse,
        BitVec.mul_comm _ (BitVec.ofNat 64 e)]
      simp [weights, size, BitVec.ofNat_mul]

theorem foldl_weights : ∀ {shape idx : List ℕ} (acc : BitVec 64), idx.length = shape.length →
    (List.zipWith (fun i s => s * BitVec.ofNat 64 i) idx (weights shape)).foldl (· + ·) acc =
      acc + BitVec.ofNat 64 (rowMajor shape idx)
  | [], [], acc, _ => by simp [rowMajor, weights]
  | d :: dims, i :: idx, acc, h => by
      rw [weights, List.zipWith_cons_cons, List.foldl_cons, foldl_weights _ (Nat.succ.inj h), rowMajor,
        BitVec.ofNat_add, BitVec.ofNat_mul, BitVec.add_assoc, BitVec.mul_comm (BitVec.ofNat 64 i)]

theorem foldl_pointwise (idx : List ℕ) : ∀ (fs : List Value) (f : Value),
    fs.foldl (fun x y idx => x idx + y idx) f idx =
      (fs.map fun g => g idx).foldl (· + ·) (f idx)
  | [], _ => rfl
  | g :: fs, f => by
      rw [List.foldl_cons, foldl_pointwise idx fs, List.map_cons, List.foldl_cons]

theorem reduce_pointwise {fs : List Value} (hne : fs ≠ []) :
    ∃ counts, reduce (fun x y idx => x idx + y idx) fs = some counts ∧
      ∀ idx, counts idx = (fs.map fun g => g idx).foldl (· + ·) 0#64 := by
  obtain ⟨f, fs, rfl⟩ := List.exists_cons_of_ne_nil hne
  refine ⟨_, rfl, fun idx => ?_⟩
  rw [foldl_pointwise, List.map_cons, List.foldl_cons, BitVec.zero_add]

def iotas (n : ℕ) : List Value :=
  (List.range n).map fun dimension idx => BitVec.ofNat 64 (idx.getD dimension 0)

theorem iotas_at {n : ℕ} {idx : List ℕ} (h : idx.length = n) (ws : List (BitVec 64)) :
    (List.zipWith (fun i s => (fun idx => s * i idx : Value)) (iotas n) ws).map (fun g => g idx) =
      List.zipWith (fun i s => s * BitVec.ofNat 64 i) idx ws := by
  refine List.ext_getElem (by simp [iotas, h]) fun k hk hk' => ?_
  have hlt : k < idx.length := by
    rw [List.length_zipWith] at hk'
    omega
  simp [iotas, List.getD, hlt]

/-- The counters are the row-major numbers. -/
theorem bcastIotas_spec {shape : List ℕ} (hne : shape ≠ []) :
    ∃ counts, bcastIotasToReshapedIota (fun x y idx => x idx + y idx) (fun s x idx => s * x idx)
        shape (iotas shape.length) = some counts ∧
      ∀ idx, idx.length = shape.length →
        counts idx = BitVec.ofNat 64 (rowMajor shape idx) := by
  have hzip : List.zipWith (fun i s => (fun idx => s * i idx : Value)) (iotas shape.length)
      (strides shape) ≠ [] := by
    obtain ⟨d, dims, rfl⟩ := List.exists_cons_of_ne_nil hne
    rw [strides_eq hne, weights, iotas, List.length_cons, List.range_succ_eq_map]
    exact List.cons_ne_nil _ _
  obtain ⟨counts, hcounts, hget⟩ := reduce_pointwise hzip
  refine ⟨counts, hcounts, fun idx hidx => ?_⟩
  rw [hget idx, iotas_at hidx, strides_eq hne, foldl_weights 0#64 hidx, BitVec.zero_add]

/-- The two words of a 64-bit counter. -/
def counterWords (i : ℕ) : Pair := (BitVec.ofNat 32 (i / 2 ^ 32), BitVec.ofNat 32 i)

theorem counterWords_eq {i : ℕ} (hi : i < 2 ^ 64) :
    ((BitVec.ofNat 64 i >>> 32).setWidth 32, (BitVec.ofNat 64 i).setWidth 32) = counterWords i := by
  refine Prod.ext (BitVec.eq_of_toNat_eq ?_) (BitVec.eq_of_toNat_eq ?_)
  · simp only [counterWords, BitVec.toNat_setWidth, BitVec.toNat_ushiftRight, BitVec.toNat_ofNat,
      Nat.shiftRight_eq_div_pow, Nat.mod_eq_of_lt hi]
  · simp only [counterWords, BitVec.toNat_setWidth, BitVec.toNat_ofNat, Nat.mod_eq_of_lt hi]

theorem counterWords_toNat {i : ℕ} (hi : i < 2 ^ 64) :
    (counterWords i).1.toNat * 2 ^ 32 + (counterWords i).2.toNat = i := by
  simp only [counterWords, BitVec.toNat_ofNat]
  omega

theorem iota2x32Shape_spec (shape : List ℕ) : ∃ counts, iota2x32Shape shape = some counts ∧
    ∀ idx, Within shape idx → rowMajor shape idx < 2 ^ 64 →
      counts idx = counterWords (rowMajor shape idx) := by
  unfold iota2x32Shape
  by_cases hne : shape = []
  · subst hne
    refine ⟨_, if_pos rfl, fun idx hidx _ => ?_⟩
    rw [List.forall₂_nil_right_iff.mp hidx]
    rfl
  · obtain ⟨counts, hcounts, hget⟩ := bcastIotas_spec hne
    rw [if_neg (by rwa [List.length_eq_zero_iff])]
    refine ⟨_, Option.bind_eq_some_iff.mpr ⟨counts, hcounts, rfl⟩, fun idx hidx hlt => ?_⟩
    rw [hget idx hidx.length_eq]
    exact counterWords_eq hlt

/-- An element of the partitionable mode is the hash of its row-major index. -/
theorem threefryRandomBitsPartitionable_eq (rolled : Bool) (key : Pair) (bit_width : ℕ)
    {shape : List ℕ} (hn : size shape ≤ 2 ^ 64) :
    ∃ x, threefryRandomBitsPartitionable rolled key bit_width shape = .ok x ∧ x.shape = shape ∧
      ∀ idx, Within shape idx → x.get? idx = some (packHash bit_width
        (threefry2x32Lowering key (counterWords (rowMajor shape idx)) rolled)) := by
  obtain ⟨counts, hcounts, hget⟩ := iota2x32Shape_spec shape
  refine ⟨.ofFn shape fun idx => packHash bit_width (threefry2x32Lowering key (counts idx) rolled),
    ?_, rfl, fun idx hidx => ?_⟩
  · rw [threefryRandomBitsPartitionable, if_neg (by omega), hcounts]
  · rw [NdArray.ofFn_get? _ hidx, hget idx hidx (Nat.lt_of_lt_of_le (rowMajor_lt hidx) hn)]

/-! ## Both modes -/

/-- `n` elements from words that are different parts of the hashes of the pairs of counters. -/
structure OriginalBits (rolled : Bool) (key : Pair) (bit_width : ℕ) (shape : List ℕ)
    (words : List Word) (count : ℕ) : Prop where
  array : ∃ t, threefryRandomBitsOriginal rolled key bit_width shape = some t ∧ t.shape = shape ∧
    t.data = (List.range (size shape)).map (element bit_width (size shape) words)
  length_eq : words.length = count
  word_eq : ∀ k < count, words.getD k 0 = hashWord rolled key (source (iota count) k)
  distinct : Set.InjOn (source (iota count)) (Set.Iio count)

theorem threefryRandomBits_spec (rolled : Bool) (key : Pair) {bit_width : ℕ}
    (hw : IsBitWidth bit_width) (shape : List ℕ) :
    ((bit_width * size shape + 31) / 32 < 2 ^ 32 - 1 →
      OriginalBits rolled key bit_width shape
        (threefry2x32 rolled key (iota ((bit_width * size shape + 31) / 32)))
        ((bit_width * size shape + 31) / 32)) ∧
    (size shape ≤ 2 ^ 64 →
      ∃ x, threefryRandomBitsPartitionable rolled key bit_width shape = .ok x ∧ x.shape = shape ∧
        ∀ idx, Within shape idx →
          x.get? idx = some (packHash bit_width
            (threefry2x32Lowering key (counterWords (rowMajor shape idx)) rolled)) ∧
          (counterWords (rowMajor shape idx)).1.toNat * 2 ^ 32 +
            (counterWords (rowMajor shape idx)).2.toNat = rowMajor shape idx) ∧
    ∀ x, threefry2x32Lowering key x true = threefry2x32Lowering key x false := by
  refine ⟨fun hcount => ?_, fun hn => ?_, rolled_eq_unrolled key⟩
  · obtain ⟨hlen, hwords⟩ := threefry2x32_spec rolled key (iota ((bit_width * size shape + 31) / 32))
    rw [length_iota] at hlen hwords
    have harray := @threefryRandomBitsOriginal_eq rolled key bit_width shape hw
    rw [maxCount_eq] at harray
    exact ⟨harray hcount, hlen, hwords, source_injOn hcount⟩
  · obtain ⟨x, hx, hshape, hget⟩ :=
      threefryRandomBitsPartitionable_eq rolled key bit_width hn
    refine ⟨x, hx, hshape, fun idx hidx => ⟨hget idx hidx, counterWords_toNat ?_⟩⟩
    exact Nat.lt_of_lt_of_le (rowMajor_lt hidx) hn

/-- Five bytes are drawn from two words, the two parts of the hash of the counters 0 and 1. -/
theorem threefryRandomBits_bytes : ∃ t, threefryRandomBitsOriginal true (0, 42) 8 [5] = some t ∧
    t.shape = [5] ∧ t.data = (List.range 5).map (element 8 5 (threefry2x32 true (0, 42) (iota 2))) :=
  ((threefryRandomBits_spec true (0, 42) (.inl rfl) [5]).1 (by decide)).array

end JaxDas.Threefry
