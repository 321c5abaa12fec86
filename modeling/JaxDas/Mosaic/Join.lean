import JaxDas.Mosaic.Generalizes

/-!
# The join of two layouts

`join` merges the offsets of layouts with the same tiling. A layout that is replicated in both
dimensions is absorbed by the other one: every entry of its registers has the value, so the tiling does
not matter. That is more than `generalizes` says, which compares the tilings and the stored offsets.
-/

namespace JaxDas.Mosaic

namespace VectorLayout

/-- The offset of a single row in a tiling of one row is replicated as well. -/
def getCanonicalOffsets (self : VectorLayout) (shape : List ℕ) : Option ℕ × Option ℕ :=
  let tiled_ishape := self.getImplicitTiledDims shape 1
  (if self.tiling.1 = 1 ∧ tiled_ishape.1 = 1 then none else self.offsets.1, self.offsets.2)

def isFullyReplicated (self : VectorLayout) (shape : List ℕ) : Bool :=
  self.getCanonicalOffsets shape = (none, none)

def layoutRank (self : VectorLayout) : ℕ := self.implicit_dim.layoutRank

/-- `lo.has_value() ? lo : ro` -/
def mergeOffset (lo ro : Option ℕ) : Option ℕ := lo.or ro

theorem mergeOffset_lt {l r : VectorLayout} (h : l.tiling = r.tiling) :
    (mergeOffset l.offsets.1 r.offsets.1).getD 0 < l.tiling.1 := by
  cases hl : l.offsets.1 with
  | none => exact h ▸ r.offset_lt
  | some o =>
      have := l.offset_lt
      rwa [hl] at this

/-- `lo && ro && lo != ro` -/
def offsetsDiffer (lo ro : Option ℕ) : Bool := lo.isSome ∧ ro.isSome ∧ lo ≠ ro

def join (l r : VectorLayout) (shape : List ℕ) : Option VectorLayout :=
  if l.isFullyReplicated shape ∧ r.layoutRank ≤ l.layoutRank then some r
  else if r.isFullyReplicated shape ∧ l.layoutRank ≤ r.layoutRank then some l
  else if h : l.bitwidth = r.bitwidth ∧ l.tiling = r.tiling then
    if l.getImplicitTiledDims shape 1 ≠ r.getImplicitTiledDims shape 1 then none
    else if offsetsDiffer l.offsets.1 r.offsets.1 ∨ offsetsDiffer l.offsets.2 r.offsets.2 then none
    else some {
      bitwidth := l.bitwidth
      offsets := (mergeOffset l.offsets.1 r.offsets.1, mergeOffset l.offsets.2 r.offsets.2)
      tiling := l.tiling
      implicit_dim := l.implicit_dim
      bitwidth_mem := l.bitwidth_mem
      tiling_pos := l.tiling_pos
      offset_lt := mergeOffset_lt h.2 }
  else none

/-! ## What is joined -/

/-- The layout is fully replicated, and tiles at least as many dimensions. -/
def Absorbed (l r : VectorLayout) (shape : List ℕ) : Prop :=
  l.isFullyReplicated shape = true ∧ r.layoutRank ≤ l.layoutRank

/-- The stored second minor offset, the sizes and the tilings agree, in the terms of `generalizes`. -/
structure Compatible (l r : VectorLayout) (shape : List ℕ) (target_shape : ℕ × ℕ) : Prop where
  offset : OffsetCovers l.offsets.1 r.offsets.1
  dims : SameDims (some shape) l r
  tiles : SameTiles target_shape (some shape) l r

/-- The join is a special case of both operands, and the order does not matter; but for an operand
that is absorbed by one that it is not compatible with. -/
structure Joins (l r j : VectorLayout) (shape : List ℕ) (target_shape : ℕ × ℕ) : Prop where
  left : generalizes l j target_shape (some shape) = true ↔
    (Absorbed l r shape → Compatible l r shape target_shape)
  right : generalizes r j target_shape (some shape) = true ↔
    (Absorbed r l shape → ¬ Absorbed l r shape → Compatible r l shape target_shape)
  swapped : ∃ j', join r l shape = some j' ∧
    (equivalentTo j' j target_shape (some shape) = true ↔
      (Absorbed l r shape → Absorbed r l shape →
        Compatible l r shape target_shape ∧ Compatible r l shape target_shape))

variable {l r j : VectorLayout} {shape : List ℕ} {target_shape : ℕ × ℕ}

theorem Absorbed.generalizes_iff (h : Absorbed l r shape) (hbits : l.bitwidth = r.bitwidth) :
    generalizes l r target_shape (some shape) = true ↔ Compatible l r shape target_shape := by
  have hminor : l.offsets.2 = none := congrArg Prod.snd (of_decide_eq_true h.1)
  rw [VectorLayout.generalizes_iff]
  constructor
  · rintro ⟨-, ⟨hoffset, -⟩, hdims, htiles⟩
    exact ⟨hoffset, hdims, htiles⟩
  · rintro ⟨hoffset, hdims, htiles⟩
    exact ⟨hbits, ⟨hoffset, .inl hminor⟩, hdims, htiles⟩

theorem equivalentTo_refl (a : VectorLayout) (target_shape : ℕ × ℕ) (shape : Option (List ℕ)) :
    equivalentTo a a target_shape shape = true := by
  rw [equivalentTo, generalizes_refl]
  rfl

theorem offsetsDiffer_comm (lo ro : Option ℕ) : offsetsDiffer lo ro = offsetsDiffer ro lo := by
  unfold offsetsDiffer
  rw [decide_eq_decide]
  tauto

theorem mergeOffset_covers {lo ro : Option ℕ} (h : offsetsDiffer lo ro = false) :
    OffsetCovers lo (mergeOffset lo ro) ∧ OffsetCovers ro (mergeOffset lo ro) ∧
      mergeOffset lo ro = mergeOffset ro lo := by
  cases lo with
  | none =>
      refine ⟨.inl rfl, .inr rfl, ?_⟩
      cases ro <;> rfl
  | some o =>
      cases ro with
      | none => exact ⟨.inr rfl, .inl rfl, rfl⟩
      | some o' =>
          have heq : o = o' := by
            by_contra hne
            simp [offsetsDiffer, hne] at h
          subst heq
          exact ⟨.inr rfl, .inr rfl, rfl⟩

theorem join_absorbed (h : Absorbed l r shape) : join l r shape = some r := if_pos h

theorem join_absorbing (hnot : ¬ Absorbed l r shape) (h : Absorbed r l shape) :
    join l r shape = some l := (if_neg hnot).trans (if_pos h)

/-- Layouts of which none is absorbed can be merged: the tilings and the sizes are the same, and the
offsets do not differ. -/
structure Mergeable (l r : VectorLayout) (shape : List ℕ) : Prop where
  bits : l.bitwidth = r.bitwidth
  tiling : l.tiling = r.tiling
  dims : l.getImplicitTiledDims shape 1 = r.getImplicitTiledDims shape 1
  second : offsetsDiffer l.offsets.1 r.offsets.1 = false
  minor : offsetsDiffer l.offsets.2 r.offsets.2 = false

theorem Mergeable.symm (h : Mergeable l r shape) : Mergeable r l shape :=
  ⟨h.bits.symm, h.tiling.symm, h.dims.symm, offsetsDiffer_comm .. ▸ h.second,
    offsetsDiffer_comm .. ▸ h.minor⟩

def Mergeable.merged (h : Mergeable l r shape) : VectorLayout where
  bitwidth := l.bitwidth
  offsets := (mergeOffset l.offsets.1 r.offsets.1, mergeOffset l.offsets.2 r.offsets.2)
  tiling := l.tiling
  implicit_dim := l.implicit_dim
  bitwidth_mem := l.bitwidth_mem
  tiling_pos := l.tiling_pos
  offset_lt := mergeOffset_lt h.tiling

theorem join_mergeable (hl : ¬ Absorbed l r shape) (hr : ¬ Absorbed r l shape)
    (h : Mergeable l r shape) : join l r shape = some h.merged := by
  refine (if_neg hl).trans ((if_neg hr).trans ((dif_pos ⟨h.bits, h.tiling⟩).trans ?_))
  rw [if_neg (not_not.mpr h.dims), h.second, h.minor]
  rfl

theorem mergeable_of_join (hl : ¬ Absorbed l r shape) (hr : ¬ Absorbed r l shape)
    (h : join l r shape = some j) : ∃ hm : Mergeable l r shape, j = hm.merged := by
  have hm : Mergeable l r shape := by
    rw [Absorbed] at hl hr
    rw [join, if_neg hl, if_neg hr] at h
    split at h
    · next heq =>
        split at h
        · cases h
        · next hdims =>
            split at h
            · cases h
            · next hoffsets =>
                rw [not_or, Bool.not_eq_true, Bool.not_eq_true] at hoffsets
                exact ⟨heq.1, heq.2, not_not.mp hdims, hoffsets.1, hoffsets.2⟩
    · cases h
  exact ⟨hm, Option.some.inj (h.symm.trans (join_mergeable hl hr hm))⟩

theorem Mergeable.generalizes_left (h : Mergeable l r shape) :
    generalizes l h.merged target_shape (some shape) = true :=
  generalizes_iff.mpr ⟨rfl, ⟨(mergeOffset_covers h.second).1, (mergeOffset_covers h.minor).1⟩,
    .inl rfl, .inl rfl⟩

theorem Mergeable.generalizes_right (h : Mergeable l r shape) :
    generalizes r h.merged target_shape (some shape) = true :=
  generalizes_iff.mpr ⟨h.bits.symm,
    ⟨(mergeOffset_covers h.second).2.1, (mergeOffset_covers h.minor).2.1⟩,
    .inr (.inr ⟨shape, rfl, h.dims.symm⟩), .inl h.tiling.symm⟩

/-- The merged layouts of both orders differ in the implicit dimension only. -/
theorem Mergeable.generalizes_symm (h : Mergeable l r shape) :
    generalizes h.symm.merged h.merged target_shape (some shape) = true :=
  generalizes_iff.mpr ⟨h.bits.symm,
    ⟨.inr (mergeOffset_covers h.second).2.2.symm, .inr (mergeOffset_covers h.minor).2.2.symm⟩,
    .inr (.inr ⟨shape, rfl, h.dims.symm⟩), .inl h.tiling.symm⟩

/-! ## The join -/

/-- `join` finds a common special case of two layouts, up to what is absorbed. -/
theorem join_joins (hbits : l.bitwidth = r.bitwidth) (h : join l r shape = some j) :
    Joins l r j shape target_shape := by
  by_cases hl : Absorbed l r shape
  · obtain rfl := Option.some.inj ((join_absorbed hl).symm.trans h)
    refine ⟨?_, iff_of_true (generalizes_refl ..) fun _ hnot => absurd hl hnot, ?_⟩
    · rw [hl.generalizes_iff hbits, imp_iff_right hl]
    · by_cases hr : Absorbed r l shape
      · -- either operand may be absorbed
        refine ⟨l, join_absorbed hr, ?_⟩
        rw [equivalentTo, Bool.and_eq_true, hl.generalizes_iff hbits, hr.generalizes_iff hbits.symm,
          imp_iff_right hl, imp_iff_right hr]
      · exact ⟨r, join_absorbing hr hl,
          iff_of_true (equivalentTo_refl r _ _) fun _ hr' => absurd hr' hr⟩
  · by_cases hr : Absorbed r l shape
    · obtain rfl := Option.some.inj ((join_absorbing hl hr).symm.trans h)
      refine ⟨iff_of_true (generalizes_refl ..) fun hl' => absurd hl' hl, ?_,
        l, join_absorbed hr, iff_of_true (equivalentTo_refl l _ _) fun hl' => absurd hl' hl⟩
      rw [hr.generalizes_iff hbits.symm, imp_iff_right hr, imp_iff_right hl]
    · obtain ⟨hm, rfl⟩ := mergeable_of_join hl hr h
      refine ⟨iff_of_true hm.generalizes_left fun hl' => absurd hl' hl,
        iff_of_true hm.generalizes_right fun hr' => absurd hr' hr,
        hm.symm.merged, join_mergeable hr hl hm.symm, iff_of_true ?_ fun hl' => absurd hl' hl⟩
      rw [equivalentTo, hm.generalizes_symm, hm.symm.generalizes_symm]
      rfl

/-- Tiles of eight rows that are replicated along them, and tiles of eight rows that start at lane 3. -/
theorem join_joins_merged :
    Joins (⟨32, (none, some 3), (8, 128), .kNone, by decide, by decide, by decide⟩ : VectorLayout)
      ⟨32, (some 0, none), (8, 128), .kNone, by decide, by decide, by decide⟩
      ⟨32, (some 0, some 3), (8, 128), .kNone, by decide, by decide, by decide⟩ [5, 100] (8, 128) :=
  join_joins rfl rfl

/-- A layout that is replicated in tiles of eight rows is absorbed by one with tiles of one row, which it
does not generalize. -/
theorem join_other_tiling :
    Applies (⟨32, (none, none), (8, 128), .kNone, by decide, by decide, by decide⟩ : VectorLayout)
        (8, 128) (some [5, 100]) ∧
      Applies (plain 1 128 .kNone (by decide) (by decide)) (8, 128) (some [5, 100]) ∧
      join ⟨32, (none, none), (8, 128), .kNone, by decide, by decide, by decide⟩
        (plain 1 128 .kNone (by decide) (by decide)) [5, 100] =
          some (plain 1 128 .kNone (by decide) (by decide)) ∧
      generalizes ⟨32, (none, none), (8, 128), .kNone, by decide, by decide, by decide⟩
        (plain 1 128 .kNone (by decide) (by decide)) (8, 128) (some [5, 100]) = false := by
  refine ⟨⟨by decide, ?_⟩, ⟨by decide, ?_⟩, by decide, by decide⟩
  · exact fun s hs => Option.some.inj hs ▸ by decide
  · exact fun s hs => Option.some.inj hs ▸ by decide

end VectorLayout

end JaxDas.Mosaic
