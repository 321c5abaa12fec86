import JaxDas.Mosaic.VectorLayout

/-!
# Whether generalizing is a preorder

`generalizes` is documented as a non-strict partial order. A layout with a tiling of one row may
squeeze an implicit second minor dimension in or out, whatever the size of the dimension, but only
against a layout with a tiling of one row. Where a row fits a tile, or has one element, such a layout
is also equivalent to others, and the chain breaks.
-/

namespace JaxDas.Mosaic

namespace VectorLayout

variable {self other a b c : VectorLayout} {target_shape : ℕ × ℕ} {shape : Option (List ℕ)}

/-! ## The parts of the relation -/

/-- A replicated offset, or the same. -/
def OffsetCovers (s o : Option ℕ) : Prop := s = none ∨ s = o

/-- The elements are in the same place before tiling. -/
def SameDims (shape : Option (List ℕ)) (a b : VectorLayout) : Prop :=
  a.implicit_dim = b.implicit_dim ∨ squeezes a b = true ∨
    ∃ s ∈ shape, a.getImplicitTiledDims s 1 = b.getImplicitTiledDims s 1

/-- The tilings are the same, or no second tile is used. -/
def SameTiles (target_shape : ℕ × ℕ) (shape : Option (List ℕ)) (a b : VectorLayout) : Prop :=
  a.tiling = b.tiling ∨ ∃ s ∈ shape, singleTile a b target_shape s = true

theorem offsetClashes_eq_false {s o : Option ℕ} : offsetClashes s o = false ↔ OffsetCovers s o := by
  cases s <;> simp [offsetClashes, OffsetCovers]

theorem generalizes_iff : generalizes a b target_shape shape = true ↔
    a.bitwidth = b.bitwidth ∧
      (OffsetCovers a.offsets.1 b.offsets.1 ∧ OffsetCovers a.offsets.2 b.offsets.2) ∧
      SameDims shape a b ∧ SameTiles target_shape shape a b := by
  unfold generalizes SameDims SameTiles
  rw [← offsetClashes_eq_false, ← offsetClashes_eq_false]
  split
  · next h => exact iff_of_false Bool.false_ne_true fun h' => h h'.1
  · next hbits =>
      split
      · next h =>
          refine iff_of_false Bool.false_ne_true fun h' => ?_
          rw [h'.2.1.1, h'.2.1.2] at h
          simp at h
      · next hoffsets =>
          rw [not_or, Bool.not_eq_true, Bool.not_eq_true] at hoffsets
          split
          · next h =>
              refine iff_of_false Bool.false_ne_true fun h' => ?_
              rcases h'.2.2.1 with hsame | hsame | hsame
              · exact h.1 hsame
              · exact h.2.1 hsame
              · exact h.2.2 hsame
          · next hdims =>
              split
              · next h =>
                  refine iff_of_false Bool.false_ne_true fun h' => ?_
                  exact h'.2.2.2.elim h.1 h.2
              · next htiles =>
                  refine iff_of_true rfl ⟨not_not.mp hbits, hoffsets, ?_, ?_⟩
                  · by_contra hnot
                    obtain ⟨h₁, hnot⟩ := not_or.mp hnot
                    exact hdims ⟨h₁, not_or.mp hnot⟩
                  · by_contra hnot
                    exact htiles (not_or.mp hnot)

theorem OffsetCovers.trans {s o p : Option ℕ} (h : OffsetCovers s o) (h' : OffsetCovers o p) :
    OffsetCovers s p := by
  rcases h with h | rfl
  · exact .inl h
  · exact h'

theorem OffsetCovers.getD_le {s o : Option ℕ} (h : OffsetCovers s o) : s.getD 0 ≤ o.getD 0 := by
  rcases h with rfl | rfl
  · exact Nat.zero_le _
  · exact Nat.le_refl _

theorem generalizes_refl (a : VectorLayout) (target_shape : ℕ × ℕ) (shape : Option (List ℕ)) :
    generalizes a a target_shape shape = true :=
  generalizes_iff.mpr ⟨rfl, ⟨.inr rfl, .inr rfl⟩, .inl rfl, .inl rfl⟩

/-- What holds for all shapes holds for each. -/
theorem generalizes_of_none (h : generalizes a b target_shape none = true)
    (shape : Option (List ℕ)) : generalizes a b target_shape shape = true := by
  obtain ⟨hbits, hoffsets, hdims, htiles⟩ := generalizes_iff.mp h
  refine generalizes_iff.mpr ⟨hbits, hoffsets, ?_, ?_⟩
  · rcases hdims with hdims | hdims | ⟨s, hs, -⟩
    · exact .inl hdims
    · exact .inr (.inl hdims)
    · cases hs
  · rcases htiles with htiles | ⟨s, hs, -⟩
    · exact .inl htiles
    · cases hs

/-! ## Tiles -/

theorem singleTile_iff {s : List ℕ} : singleTile a b target_shape s = true ↔
    a.tiling.2 = b.tiling.2 ∧ a.tiling.2 = target_shape.2 ∧
      a.offsets.2.getD 0 + (a.getImplicitTiledDims s 1).2 ≤ target_shape.2 ∧
      a.offsets.1.getD 0 + (a.getImplicitTiledDims s 1).1 ≤ min a.tiling.1 b.tiling.1 :=
  decide_eq_true_iff

theorem squeezes_iff : squeezes a b = true ↔ a.tiling.1 = 1 ∧ b.tiling.1 = 1 ∧
    ((a.implicit_dim = .kSecondMinor ∧ b.implicit_dim = .kNone) ∨
      (a.implicit_dim = .kNone ∧ b.implicit_dim = .kSecondMinor)) :=
  decide_eq_true_iff

theorem squeezes_comm : squeezes a b = squeezes b a := by
  rw [Bool.eq_iff_iff, squeezes_iff, squeezes_iff]
  tauto

theorem squeezes_twice (h : squeezes a b = true) (h' : squeezes b c = true) :
    a.implicit_dim = c.implicit_dim := by
  obtain ⟨-, -, ⟨ha, hb⟩ | ⟨ha, hb⟩⟩ := squeezes_iff.mp h
  · obtain ⟨-, -, ⟨hb', -⟩ | ⟨-, hc⟩⟩ := squeezes_iff.mp h'
    · rw [hb] at hb'
      cases hb'
    · exact ha.trans hc.symm
  · obtain ⟨-, -, ⟨-, hc⟩ | ⟨hb', -⟩⟩ := squeezes_iff.mp h'
    · exact ha.trans hc.symm
    · rw [hb] at hb'
      cases hb'

/-- Tiles with the same sizes in the two minormost dimensions. -/
theorem SameTiles.trans (h : SameTiles target_shape shape a b) (h' : SameTiles target_shape shape b c)
    (hoffsets : OffsetCovers a.offsets.1 b.offsets.1 ∧ OffsetCovers a.offsets.2 b.offsets.2)
    (hdims : ∀ s ∈ shape, a.getImplicitTiledDims s 1 = b.getImplicitTiledDims s 1) :
    SameTiles target_shape shape a c := by
  rcases h' with heq | ⟨s, hs, h'⟩
  · rcases h with h | ⟨s, hs, h⟩
    · exact .inl (h.trans heq)
    · refine .inr ⟨s, hs, ?_⟩
      rw [singleTile_iff] at h ⊢
      rwa [← heq]
  · obtain ⟨hlanes, htarget, hminor, hsecond⟩ := singleTile_iff.mp h'
    have hle := hoffsets.1.getD_le
    have hle' := hoffsets.2.getD_le
    have hd := hdims s hs
    refine .inr ⟨s, hs, singleTile_iff.mpr ?_⟩
    rcases h with h | ⟨s', hs', h⟩
    · rw [h, hd]
      exact ⟨hlanes, htarget, by omega, by omega⟩
    · obtain rfl := Option.mem_unique hs hs'
      obtain ⟨hlanes₁, htarget₁, hminor₁, hsecond₁⟩ := singleTile_iff.mp h
      refine ⟨hlanes₁.trans hlanes, htarget₁, hminor₁, ?_⟩
      rw [hd] at hsecond₁ ⊢
      omega

/-- On a target with one sublane, a tile as wide as the target has one row. -/
theorem one_row (hbits : a.bitwidth = b.bitwidth) (hsublane : target_shape.1 = 1)
    (ha : a.isValid target_shape = true) (hb : b.isValid target_shape = true)
    (hrow : a.tiling.1 = 1) (hlanes : a.tiling.2 = target_shape.2)
    (hlanes' : b.tiling.2 = target_shape.2) : b.tiling.1 = 1 := by
  obtain ⟨-, -, -, -, hfits, -⟩ := isValid_spec ha
  obtain ⟨-, -, -, -, -, hdiv⟩ := isValid_spec hb
  have hpos : 0 < target_shape.2 := hlanes ▸ a.tiling_pos.2
  have hpacking : a.packing = 1 := by
    rw [hrow, hlanes, Nat.one_mul] at hfits
    have hdvd : a.packing * target_shape.2 ∣ 1 * target_shape.2 := by
      rw [Nat.one_mul]
      exact Nat.dvd_of_mod_eq_zero hfits
    exact Nat.dvd_one.mp (Nat.dvd_of_mul_dvd_mul_right hpos hdvd)
  have hpacking' : b.packing = 1 := by rw [packing, ← hbits]; exact hpacking
  rw [hpacking', hlanes', Nat.one_mul, Nat.mul_div_cancel _ hpos, hsublane] at hdiv
  exact Nat.dvd_one.mp (Nat.dvd_of_mod_eq_zero hdiv)

/-! ## Chains -/

/-- The squeezed dimension has size 1, or no row fits a tile, or there is one sublane, where all tiles
of the width of the target have one row, and a row has not one element. -/
def Unambiguous (target_shape : ℕ × ℕ) (shape : Option (List ℕ)) : Prop :=
  ∀ s ∈ shape, s.length < 2 ∨ s.getD (s.length - 2) 0 = 1 ∨
    target_shape.2 < s.getD (s.length - 1) 0 ∨
      (target_shape.1 = 1 ∧ s.getD (s.length - 1) 0 ≠ 1)

/-- Generalizing is a preorder, and equivalence an equivalence, on the layouts that are valid for the
target and apply to the shape. -/
structure Preordered (target_shape : ℕ × ℕ) (shape : Option (List ℕ)) : Prop where
  refl : ∀ a : VectorLayout, Applies a target_shape shape →
    generalizes a a target_shape shape = true
  trans : ∀ a b c : VectorLayout, Applies a target_shape shape → Applies b target_shape shape →
    Applies c target_shape shape → generalizes a b target_shape shape = true →
      generalizes b c target_shape shape = true → generalizes a c target_shape shape = true
  equivalence : Equivalence fun a b : {a : VectorLayout // Applies a target_shape shape} =>
    equivalentTo a.1 b.1 target_shape shape = true
  all_shapes : ∀ a b : VectorLayout, Applies a target_shape shape → Applies b target_shape shape →
    generalizes a b target_shape none = true → generalizes a b target_shape shape = true

section

variable {s : List ℕ}

theorem dims_eq_of_implicit (h : a.implicit_dim = b.implicit_dim) :
    a.getImplicitTiledDims s 1 = b.getImplicitTiledDims s 1 := by
  rw [getImplicitTiledDims, getImplicitTiledDims, h]

/-- Layouts that differ in a squeezed dimension have the same rows. -/
theorem squeezed_dims (hsq : squeezes a b = true)
    (hne : a.getImplicitTiledDims s 1 ≠ b.getImplicitTiledDims s 1) :
    (a.getImplicitTiledDims s 1).2 = s.getD (s.length - 1) 0 ∧
      (b.getImplicitTiledDims s 1).2 = s.getD (s.length - 1) 0 ∧ s.getD (s.length - 2) 0 ≠ 1 := by
  obtain ⟨-, -, himplicit⟩ := squeezes_iff.mp hsq
  rcases himplicit with ⟨ha, hb⟩ | ⟨ha, hb⟩
  · rw [getImplicitTiledDims, getImplicitTiledDims, ha, hb] at hne ⊢
    exact ⟨rfl, rfl, fun h => hne (congrArg (·, s.getD (s.length - 1) 0) h.symm)⟩
  · rw [getImplicitTiledDims, getImplicitTiledDims, ha, hb] at hne ⊢
    exact ⟨rfl, rfl, fun h => hne (congrArg (·, s.getD (s.length - 1) 0) h)⟩

/-- Past a squeezed dimension, the same sizes have the same implicit dimension. -/
theorem implicit_eq_of_squeezed (hsq : squeezes a b = true)
    (hne : a.getImplicitTiledDims s 1 ≠ b.getImplicitTiledDims s 1)
    (hdims : b.getImplicitTiledDims s 1 = c.getImplicitTiledDims s 1)
    (hrow : s.getD (s.length - 1) 0 ≠ 1) : c.implicit_dim = b.implicit_dim := by
  obtain ⟨-, hb, -⟩ := squeezed_dims hsq hne
  have hminor : (c.getImplicitTiledDims s 1).2 ≠ 1 := by rwa [← hdims, hb]
  have hother : c.implicit_dim ≠ a.implicit_dim := fun h =>
    hne ((dims_eq_of_implicit h).symm.trans hdims.symm)
  obtain ⟨-, -, himplicit⟩ := squeezes_iff.mp hsq
  cases hc : c.implicit_dim with
  | kMinor => rw [getImplicitTiledDims, hc] at hminor; exact absurd rfl hminor
  | kMinorAndSecondMinor => rw [getImplicitTiledDims, hc] at hminor; exact absurd rfl hminor
  | kNone =>
      rcases himplicit with ⟨-, hb⟩ | ⟨ha, -⟩
      · exact hb.symm
      · exact absurd (hc.trans ha.symm) hother
  | kSecondMinor =>
      rcases himplicit with ⟨ha, -⟩ | ⟨-, hb⟩
      · exact absurd (hc.trans ha.symm) hother
      · exact hb.symm

theorem rank_of_squeezes (ha : Applies a target_shape (some s)) (hb : Applies b target_shape (some s))
    (hsq : squeezes a b = true) : 2 ≤ s.length := by
  obtain ⟨-, -, himplicit⟩ := squeezes_iff.mp hsq
  have hranka := ha.rank s rfl
  have hrankb := hb.rank s rfl
  rcases himplicit with ⟨-, h⟩ | ⟨h, -⟩
  · rwa [h] at hrankb
  · rwa [h] at hranka

/-- Past a squeezed dimension, the tiling still has one row. -/
theorem squeezes_past (htarget : 0 < target_shape.2) (h : Unambiguous target_shape (some s))
    (ha : Applies a target_shape (some s)) (hb : Applies b target_shape (some s))
    (hc : Applies c target_shape (some s)) (hbits : b.bitwidth = c.bitwidth)
    (hsq : squeezes a b = true)
    (hne : a.getImplicitTiledDims s 1 ≠ b.getImplicitTiledDims s 1)
    (hdims : b.getImplicitTiledDims s 1 = c.getImplicitTiledDims s 1)
    (htiles : b.tiling = c.tiling ∨ b.tiling.2 = target_shape.2 ∧ c.tiling.2 = target_shape.2 ∧
      (b.getImplicitTiledDims s 1).2 ≤ target_shape.2) :
    squeezes a c = true ∧ b.tiling = c.tiling := by
  obtain ⟨-, hrow, hsecond⟩ := squeezed_dims hsq hne
  have hrank := rank_of_squeezes ha hb hsq
  have hcases : target_shape.2 < s.getD (s.length - 1) 0 ∨
      (target_shape.1 = 1 ∧ s.getD (s.length - 1) 0 ≠ 1) := by
    rcases h s rfl with h | h | h
    · omega
    · exact absurd h hsecond
    · exact h
  have hone : s.getD (s.length - 1) 0 ≠ 1 := by omega
  have himplicit := implicit_eq_of_squeezed hsq hne hdims hone
  obtain ⟨ha1, hb1, hdiffer⟩ := squeezes_iff.mp hsq
  have htiling : b.tiling = c.tiling := by
    rcases htiles with htiles | ⟨hlanes, hlanes', hfits⟩
    · exact htiles
    · have hsublane : target_shape.1 = 1 := by omega
      have hc1 := one_row hbits hsublane hb.valid hc.valid hb1 hlanes hlanes'
      exact Prod.ext (hb1.trans hc1.symm) (hlanes.trans hlanes'.symm)
  refine ⟨squeezes_iff.mpr ⟨ha1, htiling ▸ hb1, ?_⟩, htiling⟩
  rwa [himplicit]

theorem tiling_eq_of_squeezes (hsq : squeezes a b = true)
    (h : SameTiles target_shape shape a b) : a.tiling = b.tiling := by
  obtain ⟨ha, hb, -⟩ := squeezes_iff.mp hsq
  rcases h with h | ⟨s, -, h⟩
  · exact h
  · exact Prod.ext (ha.trans hb.symm) (singleTile_iff.mp h).1

/-- Layouts in the same place that have other sizes are squeezed. -/
theorem squeezes_of_ne (h : SameDims (some s) a b)
    (hne : a.getImplicitTiledDims s 1 ≠ b.getImplicitTiledDims s 1) : squeezes a b = true := by
  rcases h with h | h | ⟨s', hs', h⟩
  · exact absurd (dims_eq_of_implicit h) hne
  · exact h
  · obtain rfl := Option.some.inj hs'
    exact absurd h hne

end

theorem generalizes_trans (htarget : 0 < target_shape.2) (h : Unambiguous target_shape shape)
    (ha : Applies a target_shape shape) (hb : Applies b target_shape shape)
    (hc : Applies c target_shape shape) (hab : generalizes a b target_shape shape = true)
    (hbc : generalizes b c target_shape shape = true) :
    generalizes a c target_shape shape = true := by
  obtain ⟨hbits, hoffsets, hdims, htiles⟩ := generalizes_iff.mp hab
  obtain ⟨hbits', hoffsets', hdims', htiles'⟩ := generalizes_iff.mp hbc
  refine generalizes_iff.mpr ⟨hbits.trans hbits',
    ⟨hoffsets.1.trans hoffsets'.1, hoffsets.2.trans hoffsets'.2⟩, ?_⟩
  cases shape with
  | none =>
      -- the tilings are equal, and a squeezed dimension comes back
      have hequal : ∀ {x y : VectorLayout}, SameTiles target_shape none x y → x.tiling = y.tiling :=
        fun h => h.elim id fun ⟨_, hs, _⟩ => by cases hs
      have hplace : ∀ {x y : VectorLayout}, SameDims none x y →
          x.implicit_dim = y.implicit_dim ∨ squeezes x y = true :=
        fun h => h.imp_right fun h => h.elim id fun ⟨_, hs, _⟩ => by cases hs
      refine ⟨?_, .inl ((hequal htiles).trans (hequal htiles'))⟩
      have hab' := hequal htiles
      have hbc' := hequal htiles'
      rcases hplace hdims with h₁ | h₁
      · rcases hplace hdims' with h₂ | h₂
        · exact .inl (h₁.trans h₂)
        · refine .inr (.inl ?_)
          rw [squeezes_iff] at h₂ ⊢
          rwa [hab', h₁]
      · rcases hplace hdims' with h₂ | h₂
        · refine .inr (.inl ?_)
          rw [squeezes_iff] at h₁ ⊢
          rwa [← hbc', ← h₂]
        · exact .inl (squeezes_twice h₁ h₂)
  | some s =>
      by_cases hd : a.getImplicitTiledDims s 1 = b.getImplicitTiledDims s 1
      · by_cases hd' : b.getImplicitTiledDims s 1 = c.getImplicitTiledDims s 1
        · refine ⟨.inr (.inr ⟨s, rfl, hd.trans hd'⟩), htiles.trans htiles' hoffsets fun s' hs' => ?_⟩
          obtain rfl := Option.some.inj hs'
          exact hd
        · -- the chain ends with a squeezed dimension
          have hsq := squeezes_of_ne hdims' hd'
          have hfits : b.tiling = a.tiling ∨ b.tiling.2 = target_shape.2 ∧
              a.tiling.2 = target_shape.2 ∧ (b.getImplicitTiledDims s 1).2 ≤ target_shape.2 := by
            rcases htiles with htiles | ⟨s', hs', htiles⟩
            · exact .inl htiles.symm
            · obtain rfl := Option.some.inj hs'
              obtain ⟨hlanes, hlanes', hminor, -⟩ := singleTile_iff.mp htiles
              exact .inr ⟨hlanes.symm.trans hlanes', hlanes', by rw [← hd]; omega⟩
          rw [squeezes_comm] at hsq
          obtain ⟨hpast, htiling⟩ := squeezes_past htarget h hc hb ha hbits.symm hsq (Ne.symm hd')
            hd.symm hfits
          rw [squeezes_comm] at hsq hpast
          exact ⟨.inr (.inl hpast), .inl (htiling.symm.trans (tiling_eq_of_squeezes hsq htiles'))⟩
      · have hsq := squeezes_of_ne hdims hd
        have hab' := tiling_eq_of_squeezes hsq htiles
        by_cases hd' : b.getImplicitTiledDims s 1 = c.getImplicitTiledDims s 1
        · -- the chain starts with a squeezed dimension
          have hfits : b.tiling = c.tiling ∨ b.tiling.2 = target_shape.2 ∧
              c.tiling.2 = target_shape.2 ∧ (b.getImplicitTiledDims s 1).2 ≤ target_shape.2 := by
            rcases htiles' with htiles' | ⟨s', hs', htiles'⟩
            · exact .inl htiles'
            · obtain rfl := Option.some.inj hs'
              obtain ⟨hlanes, hlanes', hminor, -⟩ := singleTile_iff.mp htiles'
              exact .inr ⟨hlanes', hlanes.symm.trans hlanes', by omega⟩
          obtain ⟨hpast, htiling⟩ := squeezes_past htarget h ha hb hc hbits' hsq hd hd' hfits
          exact ⟨.inr (.inl hpast), .inl (hab'.trans htiling)⟩
        · -- a dimension that is squeezed twice is back
          have hsq' := squeezes_of_ne hdims' hd'
          refine ⟨.inl ?_, .inl (hab'.trans (tiling_eq_of_squeezes hsq' htiles'))⟩
          exact squeezes_twice hsq hsq'

/-! ## Where the chain breaks -/

/-- 32 bits, not replicated, with no offset. -/
def plain (rows lanes : ℕ) (d : ImplicitDim) (hrows : 0 < rows) (hlanes : 0 < lanes) :
    VectorLayout where
  bitwidth := 32
  offsets := (some 0, some 0)
  tiling := (rows, lanes)
  implicit_dim := d
  bitwidth_mem := by decide
  tiling_pos := ⟨hrows, hlanes⟩
  offset_lt := hrows

/-- Tiles of the width of the target, of so many rows that divide its sublanes. -/
theorem isValid_of_dvd (hpacking : a.packing = 1) (hoffsets : a.offsets = (some 0, some 0))
    (hlanes : a.tiling.2 = target_shape.2) (hdvd : a.tiling.1 ∣ target_shape.1)
    (hsublanes : 0 < target_shape.1) : a.isValid target_shape = true := by
  obtain ⟨hrows, hpos⟩ := a.tiling_pos
  obtain ⟨k, hk⟩ := hdvd
  have hk0 : 0 < k := Nat.pos_of_mul_pos_left (hk ▸ hsublanes)
  have hslice : a.vregSlice target_shape = some (a.tiling.1, k * a.tiling.2) := by
    have hcap : a.packing * target_shape.1 * target_shape.2 = k * (a.tiling.1 * a.tiling.2) := by
      rw [hpacking, hk, Nat.one_mul, Nat.mul_comm a.tiling.1 k, Nat.mul_assoc, hlanes]
    have htiles : a.tilesPerVreg target_shape = some k := by
      rw [tilesPerVreg, hcap, Nat.mul_mod_left, if_pos rfl,
        Nat.mul_div_cancel _ (Nat.mul_pos hrows hpos)]
    rw [vregSlice, htiles]
    rfl
  have hin : ¬ ((∃ o ∈ a.offsets.1, a.tiling.1 ≤ o) ∨ ∃ o ∈ a.offsets.2, k * a.tiling.2 ≤ o) := by
    have hminor : 0 < k * a.tiling.2 := Nat.mul_pos hk0 hpos
    rw [hoffsets]
    rintro (⟨o, ho, hle⟩ | ⟨o, ho, hle⟩)
    · obtain rfl := Option.some.inj ho
      omega
    · obtain rfl := Option.some.inj ho
      omega
  rw [isValid, hslice]
  refine (if_neg hin).trans (decide_eq_true ?_)
  rw [hpacking, Nat.one_mul, ← hlanes, Nat.mul_mod_left, Nat.mul_div_cancel _ hpos, hk]
  exact ⟨rfl, Nat.mul_mod_right a.tiling.1 k⟩

theorem applies_plain {s : List ℕ} {rows : ℕ} {d : ImplicitDim} (hrows : 0 < rows)
    (hlanes : 0 < target_shape.2) (hdvd : rows ∣ target_shape.1) (hsublanes : 0 < target_shape.1)
    (hrank : 2 ≤ s.length) : Applies (plain rows target_shape.2 d hrows hlanes) target_shape (some s) := by
  refine ⟨isValid_of_dvd (Nat.div_self (by decide)) rfl rfl hdvd hsublanes, fun s' hs' => ?_⟩
  obtain rfl := Option.some.inj hs'
  exact Nat.le_trans d.layoutRank_le hrank

/-- An ambiguous shape has a chain that breaks. -/
theorem exists_broken_chain {s : List ℕ} (htarget : 0 < target_shape.1 ∧ 0 < target_shape.2)
    (h : ¬ Unambiguous target_shape (some s)) :
    ∃ a b c : VectorLayout, Applies a target_shape (some s) ∧ Applies b target_shape (some s) ∧
      Applies c target_shape (some s) ∧ generalizes a b target_shape (some s) = true ∧
        generalizes b c target_shape (some s) = true ∧
          generalizes a c target_shape (some s) ≠ true := by
  obtain ⟨hsublanes, hlanes⟩ := htarget
  have hcases : 2 ≤ s.length ∧ s.getD (s.length - 2) 0 ≠ 1 ∧
      s.getD (s.length - 1) 0 ≤ target_shape.2 ∧
      (target_shape.1 ≠ 1 ∨ s.getD (s.length - 1) 0 = 1) := by
    by_contra hnot
    refine h fun s' hs' => ?_
    obtain rfl := Option.some.inj hs'
    omega
  obtain ⟨hrank, hsecond, hfits, hor⟩ := hcases
  have happlies : ∀ d : ImplicitDim, Applies (plain 1 target_shape.2 d Nat.one_pos hlanes)
      target_shape (some s) := fun d =>
    applies_plain Nat.one_pos hlanes (Nat.one_dvd _) hsublanes hrank
  have hsqueeze : generalizes (plain 1 target_shape.2 .kNone Nat.one_pos hlanes)
      (plain 1 target_shape.2 .kSecondMinor Nat.one_pos hlanes) target_shape (some s) = true :=
    generalizes_iff.mpr ⟨rfl, ⟨.inr rfl, .inr rfl⟩,
      .inr (.inl (squeezes_iff.mpr ⟨rfl, rfl, .inr ⟨rfl, rfl⟩⟩)), .inl rfl⟩
  by_cases hone : s.getD (s.length - 1) 0 = 1
  · -- a row of one element may have its own dimension implicit, too
    refine ⟨_, _, plain 1 target_shape.2 .kMinorAndSecondMinor Nat.one_pos hlanes, happlies .kNone,
      happlies .kSecondMinor, happlies _, hsqueeze, ?_, ?_⟩
    · exact generalizes_iff.mpr ⟨rfl, ⟨.inr rfl, .inr rfl⟩,
        .inr (.inr ⟨s, rfl, congrArg (1, ·) hone⟩), .inl rfl⟩
    · intro h
      obtain ⟨-, -, hdims, -⟩ := generalizes_iff.mp h
      rcases hdims with hdims | hdims | ⟨s', hs', hdims⟩
      · cases hdims
      · rcases (squeezes_iff.mp hdims).2.2 with ⟨hd, -⟩ | ⟨-, hd⟩
        · cases hd
        · cases hd
      · obtain rfl := Option.some.inj hs'
        exact hsecond (Prod.mk.inj hdims).1
  · -- a row that fits a tile may have a tile of more rows
    have hsub : target_shape.1 ≠ 1 := hor.resolve_right hone
    refine ⟨_, _, plain target_shape.1 target_shape.2 .kSecondMinor hsublanes hlanes,
      happlies .kNone, happlies .kSecondMinor,
      applies_plain hsublanes hlanes (Nat.dvd_refl _) hsublanes hrank, hsqueeze, ?_, ?_⟩
    · refine generalizes_iff.mpr ⟨rfl, ⟨.inr rfl, .inr rfl⟩, .inl rfl,
        .inr ⟨s, rfl, singleTile_iff.mpr ⟨rfl, rfl, ?_, ?_⟩⟩⟩
      · exact Nat.le_trans (Nat.le_of_eq (Nat.zero_add _)) hfits
      · exact Nat.le_min.mpr ⟨Nat.le_refl 1, hsublanes⟩
    · intro h
      obtain ⟨-, -, hdims, -⟩ := generalizes_iff.mp h
      rcases hdims with hdims | hdims | ⟨s', hs', hdims⟩
      · cases hdims
      · exact hsub (squeezes_iff.mp hdims).2.1
      · obtain rfl := Option.some.inj hs'
        exact hsecond (Prod.mk.inj hdims).1

theorem preordered_iff (htarget : 0 < target_shape.1 ∧ 0 < target_shape.2) :
    Preordered target_shape shape ↔ Unambiguous target_shape shape := by
  constructor
  · intro h
    cases shape with
    | none => exact fun s hs => by cases hs
    | some s =>
        by_contra hnot
        obtain ⟨a, b, c, ha, hb, hc, hab, hbc, hac⟩ := exists_broken_chain htarget hnot
        exact hac (h.trans a b c ha hb hc hab hbc)
  · intro h
    refine ⟨fun a _ => generalizes_refl a _ _,
      fun a b c ha hb hc => generalizes_trans htarget.2 h ha hb hc, ⟨?_, ?_, ?_⟩,
      fun a b _ _ hab => generalizes_of_none hab shape⟩
    · intro a
      rw [equivalentTo, generalizes_refl]
      rfl
    · intro a b hab
      rwa [equivalentTo, Bool.and_comm]
    · intro a b c hab hbc
      rw [equivalentTo, Bool.and_eq_true] at hab hbc ⊢
      exact ⟨generalizes_trans htarget.2 h a.2 b.2 c.2 hab.1 hbc.1,
        generalizes_trans htarget.2 h c.2 b.2 a.2 hbc.2 hab.2⟩

/-- Rows of 200 elements do not fit 128 lanes. -/
theorem preordered_wide : Preordered (8, 128) (some [5, 200]) :=
  (preordered_iff (by decide)).mpr fun s hs => by
    obtain rfl := Option.some.inj hs
    exact .inr (.inr (.inl (by decide)))

/-- Rows of 100 elements, in tiles of one row with the second minor dimension or without it, or in
tiles of eight rows. -/
theorem generalizes_not_trans :
    generalizes (plain 1 128 .kNone (by decide) (by decide))
        (plain 1 128 .kSecondMinor (by decide) (by decide)) (8, 128) (some [5, 100]) = true ∧
      generalizes (plain 1 128 .kSecondMinor (by decide) (by decide))
        (plain 8 128 .kSecondMinor (by decide) (by decide)) (8, 128) (some [5, 100]) = true ∧
      generalizes (plain 1 128 .kNone (by decide) (by decide))
        (plain 8 128 .kSecondMinor (by decide) (by decide)) (8, 128) (some [5, 100]) = false ∧
      ¬ Preordered (8, 128) (some [5, 100]) := by
  refine ⟨by decide, by decide, by decide, fun h => ?_⟩
  have hac := h.trans (plain 1 128 .kNone (by decide) (by decide))
    (plain 1 128 .kSecondMinor (by decide) (by decide))
    (plain 8 128 .kSecondMinor (by decide) (by decide))
    (@applies_plain (8, 128) [5, 100] 1 .kNone (by decide) (by decide) (by decide)
      (by decide) (by decide))
    (@applies_plain (8, 128) [5, 100] 1 .kSecondMinor (by decide) (by decide) (by decide)
      (by decide) (by decide))
    (@applies_plain (8, 128) [5, 100] 8 .kSecondMinor (by decide) (by decide) (by decide)
      (by decide) (by decide))
    (by decide) (by decide)
  exact absurd hac (by decide)

end VectorLayout

end JaxDas.Mosaic
