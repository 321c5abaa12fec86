import JaxDas.Lib.BasicIndexing
import JaxDas.Lib.Tensor
import Mathlib.Data.BitVec

/-!
# Threefry random bits

The hash of `threefry2x32` in its two lowerings, and the two ways in which `threefry_random_bits`
makes an array of it. A width of 64 supposes that the 64-bit types are enabled.
-/

namespace JaxDas.Threefry

abbrev Word := BitVec 32

/-- The two words of a key, and the two words that are hashed at a time. -/
abbrev Pair := Word × Word

/-! ## The hash -/

def rotateLeft (x d : Word) : Word := x <<< d ||| x >>> (32 - d)

def applyRound (v : Pair) (rot : Word) : Pair :=
  let v₀ := v.1 + v.2
  (v₀, v₀ ^^^ rotateLeft v.2 rot)

def rotateList {α : Type} (xs : List α) : List α := xs.drop 1 ++ xs.take 1

/-- The state of the rolled loop. -/
structure LoopState where
  x : Pair
  ks : List Word
  rotations : List (List Word)

def rolledLoopStep (i : ℕ) (state : LoopState) : LoopState :=
  let x := (state.rotations.getD 0 []).foldl applyRound state.x
  { x := (x.1 + state.ks.getD 0 0, x.2 + state.ks.getD 1 0 + BitVec.ofNat 32 (i + 1))
    ks := rotateList state.ks
    rotations := rotateList state.rotations }

/-- `_threefry2x32_lowering` -/
def threefry2x32Lowering (key x : Pair) (use_rolled_loops : Bool) : Pair :=
  let rotations₀ : List Word := [13, 15, 26, 6]
  let rotations₁ : List Word := [17, 29, 16, 24]
  let ks₀ := key.1
  let ks₁ := key.2
  let ks₂ := key.1 ^^^ key.2 ^^^ 0x1BD11BDA
  let x := (x.1 + ks₀, x.2 + ks₁)
  if use_rolled_loops then
    ((List.range 5).foldl (fun state i => rolledLoopStep i state)
      ⟨x, rotateList [ks₀, ks₁, ks₂], [rotations₀, rotations₁]⟩).x
  else
    let x := rotations₀.foldl applyRound x
    let x := (x.1 + ks₁, x.2 + ks₂ + 1)
    let x := rotations₁.foldl applyRound x
    let x := (x.1 + ks₂, x.2 + ks₀ + 2)
    let x := rotations₀.foldl applyRound x
    let x := (x.1 + ks₀, x.2 + ks₁ + 3)
    let x := rotations₁.foldl applyRound x
    let x := (x.1 + ks₁, x.2 + ks₂ + 4)
    let x := rotations₀.foldl applyRound x
    (x.1 + ks₂, x.2 + ks₀ + 5)

/-- The two lowerings compute the same words. -/
theorem rolled_eq_unrolled (key x : Pair) :
    threefry2x32Lowering key x true = threefry2x32Lowering key x false := rfl

/-- `threefry2x32_p`, on a platform with one of the lowerings. -/
def threefry2x32P (rolled : Bool) (key : Pair) (x₀ x₁ : List Word) : List Word × List Word :=
  let hashes := List.zipWith (fun a b => threefry2x32Lowering key (a, b) rolled) x₀ x₁
  (hashes.map Prod.fst, hashes.map Prod.snd)

def iota (n : ℕ) : List Word := (List.range n).map (BitVec.ofNat 32)

/-- `threefry_2x32`, for counts in one dimension. -/
def threefry2x32 (rolled : Bool) (key : Pair) (count : List Word) : List Word :=
  let odd_size := count.length % 2
  let padded := if odd_size ≠ 0 then count ++ [0] else count
  let half := padded.length / 2
  let x := threefry2x32P rolled key (padded.take half) (padded.drop half)
  let out := x.1 ++ x.2
  if odd_size ≠ 0 then out.dropLast else out

/-! ## The original mode -/

/-- `_threefry_split_original`, for a shape of one dimension -/
def threefrySplitOriginal (rolled : Bool) (key : Pair) (num : ℕ) : List Pair :=
  let words := threefry2x32 rolled key (iota (num * 2))
  (List.range num).map fun i => (words.getD (2 * i) 0, words.getD (2 * i + 1) 0)

/-- The words of `_threefry_random_bits_original`. -/
def randomWords (rolled : Bool) (key : Pair) (max_count : ℕ) : List Word :=
  let nblocks := max_count / (2 ^ 32 - 1)
  let rem := max_count % (2 ^ 32 - 1)
  if nblocks = 0 then threefry2x32 rolled key (iota rem)
  else
    let keys := threefrySplitOriginal rolled key (nblocks + 1)
    let blocks := keys.dropLast.flatMap fun subkey => threefry2x32 rolled subkey (iota (2 ^ 32 - 1))
    blocks ++ threefry2x32 rolled (keys.getLastD key) (iota rem)

/-- A matrix read column by column: `lax.reshape` to one dimension with `dimensions=(1, 0)`. -/
def columns (rows : List (List Word)) (width : ℕ) : List Word :=
  (List.range width).flatMap fun j => rows.map fun row => row.getD j 0

/-- The fields of some words, one row for each position in a word. -/
def fieldRows (bit_width : ℕ) (bits : List Word) : List (List Word) :=
  (List.range (32 / bit_width)).map fun i =>
    bits.map fun b =>
      BitVec.ofNat 32 (2 ^ bit_width - 1) &&&
        b >>> (BitVec.ofNat 32 bit_width * BitVec.ofNat 32 i)

/-- `lax.shift_left(hi, 32) | lo`, in the dtype -/
def joinWords (bit_width : ℕ) (hi lo : Word) : BitVec bit_width :=
  hi.setWidth bit_width <<< 32 ||| lo.setWidth bit_width

/-- Elements of the dtype from the words. -/
def unpack (bit_width : ℕ) (bits : List Word) (size : ℕ) : List (BitVec bit_width) :=
  if bit_width = 64 then
    let half := bits.length / 2
    List.zipWith (fun hi lo : Word => joinWords bit_width hi lo) (bits.take half) (bits.drop half)
  else if bit_width = 8 ∨ bit_width = 16 then
    ((columns (fieldRows bit_width bits) bits.length).map (·.setWidth bit_width)).take size
  else bits.map (·.setWidth bit_width)

def maxCount (bit_width n : ℕ) : ℕ :=
  if bit_width * n % 32 > 0 then bit_width * n / 32 + 1 else bit_width * n / 32

/-- `_threefry_random_bits_original`. The last step fails when there are not as many elements as the
shape has. -/
def threefryRandomBitsOriginal (rolled : Bool) (key : Pair) (bit_width : ℕ) (shape : List ℕ) :
    Option (Tensor (BitVec bit_width)) :=
  let bits := unpack bit_width (randomWords rolled key (maxCount bit_width (size shape)))
    (size shape)
  if h : bits.length = size shape then some ⟨shape, bits, h⟩ else none

/-! ## The partitionable mode -/

/-- `np.cumprod`, on 64-bit integers. -/
def cumprod : BitVec 64 → List ℕ → List (BitVec 64)
  | _, [] => []
  | acc, d :: dims => (acc * BitVec.ofNat 64 d) :: cumprod (acc * BitVec.ofNat 64 d) dims

def strides (shape : List ℕ) : List (BitVec 64) := (cumprod 1 shape.tail.reverse).reverse ++ [1]

/-- `functools.reduce` -/
def reduce {V : Type} (f : V → V → V) : List V → Option V
  | [] => none
  | v :: vs => some (vs.foldl f v)

def bcastIotasToReshapedIota {V : Type} (add : V → V → V) (mul : BitVec 64 → V → V)
    (shape : List ℕ) (iotas : List V) : Option V :=
  reduce add (List.zipWith (fun i s => mul s i) iotas (strides shape))

/-- A value of the lowering, by index. -/
abbrev Value := List ℕ → BitVec 64

/-- The counter that `iota_2x32_shape` has at an index, as its high and its low word. -/
def iota2x32Shape (shape : List ℕ) : Option (List ℕ → Pair) :=
  if shape.length = 0 then some fun _ => (0, 0)
  else do
    let iotas := (List.range shape.length).map fun dimension : ℕ =>
      ((fun idx => BitVec.ofNat 64 (idx.getD dimension 0)) : Value)
    let counts ← bcastIotasToReshapedIota (fun x y idx => x idx + y idx)
      (fun s x idx => s * x idx) shape iotas
    some fun idx => ((counts idx >>> 32).setWidth 32, (counts idx).setWidth 32)

inductive RandomBitsError where
  | notImplementedError (msg : String)
  | typeError
deriving DecidableEq

/-- An element of the partitionable mode from the two words of a hash. -/
def packHash (bit_width : ℕ) (bits : Pair) : BitVec bit_width :=
  if bit_width = 64 then joinWords bit_width bits.1 bits.2
  else (bits.1 ^^^ bits.2).setWidth bit_width

/-- `_threefry_random_bits_partitionable` -/
def threefryRandomBitsPartitionable (rolled : Bool) (key : Pair) (bit_width : ℕ) (shape : List ℕ) :
    Except RandomBitsError (NdArray (BitVec bit_width)) :=
  if size shape > 2 ^ 64 then
    .error (.notImplementedError "random bits array of size exceeding 2 ** 64")
  else
    match iota2x32Shape shape with
    | none => .error .typeError
    | some counts =>
        .ok (.ofFn shape fun idx =>
          packHash bit_width (threefry2x32Lowering key (counts idx) rolled))

end JaxDas.Threefry
