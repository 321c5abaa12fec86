import JaxDas.Serde.RunSerde

/-!
# What a serialized module can be restored to

A module is read back as it was if no value is lost on the way to the version it is written
for. The rules refuse what an older version cannot express, with one exception: the priority of
a DMA is taken away without a look at it.
-/

namespace JaxDas.Serde

open PostOrder

variable {α β ι : Type}

/-! ### Operations that verify -/

/-- The operands of an operation in its declaration. -/
inductive OperandGroup
  | required
  | optional
  | variadic

/-- How many operands a group may have. -/
def OperandGroup.Fits : OperandGroup → ℤ → Prop
  | required, size => size = 1
  | optional, size => size = 0 ∨ size = 1
  | variadic, size => 0 ≤ size

/-- The operands of the operations with `AttrSizedOperandSegments` that have rules. -/
def operandGroups (name : String) : Option (List OperandGroup) :=
  [("tpu.enqueue_dma", [.required, .optional, .required, .required, .optional, .optional]),
    ("tpu.wait_dma2", [.required, .required, .required, .optional, .optional]),
    ("tpu.sem_signal", [.required, .required, .optional, .optional]),
    ("tpu.store", [.required, .required, .variadic, .optional])].lookup name

namespace Operation

/-- The verifier accepts the sizes of the operand groups. -/
def Verified (op : Operation α β ι) : Prop :=
  ∀ groups, operandGroups op.name = some groups → ∃ sizes,
    op.attrs segmentSizesName = some (.denseI32Array sizes) ∧
      List.Forall₂ OperandGroup.Fits groups sizes ∧ sizes.sum = op.operands.length

/-- The declared defaults of the attributes of the operations that have rules. -/
def default (name attr : String) : Option (Attribute α) :=
  [(("tpu.store", "sublane_stride"), .i32 1),
    (("tpu.store", "add"), .bool false),
    (("tpu.enqueue_dma", "priority"), .i32 0),
    (("tpu.enqueue_dma", "strict_ordering"), .bool false),
    (("tpu.wait_dma2", "strict_ordering"), .bool false)].lookup (name, attr)

/-- What an attribute reads as. -/
def read (op : Operation α β ι) (attr : String) : Option (Attribute α) :=
  ((op.attrs attr).or (default op.name attr)).map Attribute.value

/-- The operations read the same. -/
structure Same (op op' : Operation α β ι) : Prop where
  name : op'.name = op.name
  operands : op'.operands = op.operands
  rest : op'.rest = op.rest
  read : ∀ attr, op'.read attr = op.read attr

/-- Nothing is lost on the way to the version. -/
def Restorable (version : ℤ) (op : Operation α β ι) : Prop :=
  (op.name = "tpu.enqueue_dma" → version < 4 → op.read "priority" = some (.i32 0)) ∧
    (op.name = "tpu.dynamic_gather" → version < 5 → op.attrs "dimension" = none) ∧
      (op.name = "tpu.iota" → version < 6 → op.attrs "dimension" = none)

end Operation

/-- The modules read the same, but for the version of the serialized form. -/
structure Module.Same (m m' : Module α β ι) : Prop where
  attrs : ∀ attr, attr ≠ "stable_mosaic.version" → m'.attrs attr = m.attrs attr
  rest : m'.rest = m.rest
  body : List.Forall₂ (LabelTree.Rel Operation.Same) m.body m'.body

/-! ### One operation -/

theorem Attribute.eq_bool_false {a : Attribute α} (h : a.bool? = some false) : a = .bool false := by
  unfold Attribute.bool? at h
  split at h
  · next x =>
      have hx : x = 0 := by simpa using h
      rw [hx]
      rfl
  · cases h

theorem Attribute.eq_denseI32Array {a : Attribute α} {xs : List ℤ}
    (h : a.denseI32Array? = some xs) : a = .denseI32Array xs := by
  cases a with
  | denseI32Array ys => exact congrArg _ (Option.some.inj h)
  | _ => cases h

theorem Attribute.eq_denseElements {a : Attribute α} {e : DenseElements α}
    (h : a.denseElements? = some e) : a = .denseElements e := by
  cases a with
  | denseElements x => exact congrArg _ (Option.some.inj h)
  | _ => cases h

namespace Operation

variable {op op' : Operation α β ι} {version : ℤ}

/-- The operation with its mangled name. -/
def mangled (op : Operation α β ι) : Operation α β ι :=
  { op with name := mangle op.name "stable_mosaic." }

theorem Same.refl (op : Operation α β ι) : op.Same op := ⟨rfl, rfl, rfl, fun _ => rfl⟩

theorem read_congr (hname : op'.name = op.name) {attr : String}
    (hattr : op'.attrs attr = op.attrs attr) : op'.read attr = op.read attr := by
  rw [read, read, hname, hattr]

/-- A downgrade and the upgrade after it restore what can be restored. -/
def Restores (up down : SerdeRule α β ι) (op : Operation α β ι) (version : ℤ) : Prop :=
  ∀ s, down op.mangled version = .ok s →
    ((∃ z, up s version = .ok z ∧ op.Same { z with name := op.name }) ↔ op.Restorable version)

/-- Rules that leave the operation alone. -/
theorem restores_of_id {up down : SerdeRule α β ι} (hdown : down op.mangled version = .ok op.mangled)
    (hup : up op.mangled version = .ok op.mangled) (h : op.Restorable version) :
    Restores up down op version := by
  intro s hs
  cases hdown.symm.trans hs
  exact ⟨fun _ => h, fun _ => ⟨_, hup, .refl op⟩⟩

theorem store_restores (hname : op.name = "tpu.store") :
    Restores storeUpgrade storeDowngrade op version := by
  have hrest : op.Restorable version := by simp [Restorable, hname]
  by_cases hv : version < 11
  · intro s hs
    refine iff_of_true ?_ hrest
    rw [storeDowngrade, if_pos hv] at hs
    split at hs
    · cases hs
    · cases hs
    next hadd =>
    cases hs
    refine ⟨_, if_pos hv, rfl, rfl, rfl, fun attr => ?_⟩
    by_cases hattr : attr = "add"
    · subst hattr
      obtain ⟨a, ha, hfalse⟩ := Option.bind_eq_some_iff.mp hadd
      have hold : op.attrs "add" = some (.bool false) := by
        rw [← Attribute.eq_bool_false hfalse]
        exact ha
      simp [read, hold]
    · refine read_congr (by rfl) ?_
      simp [hattr, mangled]
  · exact restores_of_id (if_neg hv) (if_neg hv) hrest

theorem default_dimension (name : String) :
    default (α := α) name "dimension" = none := by
  simp [default, List.lookup_eq_none_iff]

/-- Of a dimension that is written as one attribute, one of the same name is lost. -/
theorem dimension_restores {since : ℤ}
    (hrest : op.Restorable version ↔ (version < since → op.attrs "dimension" = none)) :
    Restores (dimensionUpgrade since) (dimensionDowngrade since) op version := by
  by_cases hv : version < since
  · intro s hs
    rw [dimensionDowngrade, if_pos hv] at hs
    split at hs
    · cases hs
    case h_3 => cases hs
    next d hdims =>
    cases hs
    obtain ⟨a, ha, hd⟩ := Option.bind_eq_some_iff.mp hdims
    have hold : op.attrs "dimensions" = some (.denseI32Array [d]) := by
      rw [← Attribute.eq_denseI32Array hd]
      exact ha
    have hup : dimensionUpgrade since
        ((op.mangled.removeAttr "dimensions").setAttr "dimension" (.i32 d)) version =
          .ok ((((op.mangled.removeAttr "dimensions").setAttr "dimension" (.i32 d)).removeAttr
            "dimension").setAttr "dimensions" (.denseI32Array [d])) := by
      simp [dimensionUpgrade, hv, Attribute.i32, Attribute.integer?, IntegerType.bitWidth]
    rw [hrest, hup]
    constructor
    · rintro ⟨z, hz, hsame⟩ -
      cases hz
      have hread := hsame.read "dimension"
      simp only [read, default_dimension, Option.or_none] at hread
      simpa using hread.symm
    · intro hnone
      refine ⟨_, rfl, rfl, rfl, rfl, fun attr => read_congr (by rfl) ?_⟩
      by_cases hdim : attr = "dimensions"
      · subst hdim
        simp [hold]
      by_cases hdim' : attr = "dimension"
      · subst hdim'
        simp [hnone hv]
      · simp [hdim, hdim', mangled]
  · exact restores_of_id (if_neg hv) (if_neg hv) (hrest.mpr fun h => absurd h hv)

theorem dynamicGather_restores (hname : op.name = "tpu.dynamic_gather") :
    Restores dynamicGatherUpgrade dynamicGatherDowngrade op version :=
  dimension_restores (by simp [Restorable, hname])

theorem iota_restores (hname : op.name = "tpu.iota") :
    Restores iotaUpgrade iotaDowngrade op version :=
  dimension_restores (by simp [Restorable, hname])

/-- A strict ordering that is not set is taken away, and reads as not set. -/
theorem strictOrdering_read {op₁ : Operation α β ι} (hname : op.name = "tpu.enqueue_dma")
    (h : (if version < 8 then
      match (op.mangled.attrs "strict_ordering").bind Attribute.bool? with
      | some true =>
          .error "Can only downgrade below version 8 when strict ordering is not set to True"
      | some false => .ok (op.mangled.removeAttr "strict_ordering")
      | none => .ok op.mangled
    else .ok op.mangled) = Except.ok op₁) :
    op.Same { op₁ with name := op.name } ∧ op₁.attrs "priority" = op.attrs "priority" := by
  split at h
  · split at h
    · cases h
    · next hfalse =>
        cases h
        refine ⟨⟨rfl, rfl, rfl, fun attr => ?_⟩, rfl⟩
        by_cases hattr : attr = "strict_ordering"
        · subst hattr
          obtain ⟨a, ha, hfalse⟩ := Option.bind_eq_some_iff.mp hfalse
          have hold : op.attrs "strict_ordering" = some (.bool false) := by
            rw [← Attribute.eq_bool_false hfalse]
            exact ha
          have hdefault : default (α := α) op.name "strict_ordering" = some (.bool false) := by
            rw [hname]
            rfl
          simp [read, hold, hdefault]
        · refine read_congr (by rfl) ?_
          simp [hattr, mangled]
    · cases h
      exact ⟨.refl op, rfl⟩
  · cases h
    exact ⟨.refl op, rfl⟩

theorem enqueueDma_restores (hname : op.name = "tpu.enqueue_dma") :
    Restores enqueueDmaUpgrade enqueueDmaDowngrade op version := by
  have hrest : op.Restorable version ↔ (version < 4 → op.read "priority" = some (.i32 0)) := by
    simp [Restorable, hname]
  intro s hs
  rw [hrest]
  obtain ⟨op₁, hordering, hs⟩ := bind_ok.mp hs
  have hv : ¬ version < 2 := by
    intro hv
    rw [if_pos hv] at hs
    cases hs
  rw [if_neg hv] at hs
  cases hs
  obtain ⟨hsame, hpriority⟩ := strictOrdering_read hname hordering
  by_cases hv' : version < 4
  · rw [if_pos hv']
    have hup : enqueueDmaUpgrade (op₁.removeAttr "priority") version =
        .ok ((op₁.removeAttr "priority").setAttr "priority" (.i32 0)) := by
      rw [enqueueDmaUpgrade, if_neg hv, ok_bind, if_pos hv']
    rw [hup]
    have hread : ∀ attr, attr ≠ "priority" → Operation.read
        { (op₁.removeAttr "priority").setAttr "priority" (.i32 0) with name := op.name } attr =
          op.read attr := by
      intro attr hattr
      rw [← hsame.read attr]
      refine read_congr (by rfl) ?_
      simp [hattr]
    have hzero : Operation.read
        { (op₁.removeAttr "priority").setAttr "priority" (.i32 0) with name := op.name }
          "priority" = some (.i32 0) := by
      simp [read, Attribute.i32, Attribute.value]
    constructor
    · rintro ⟨z, hz, hz'⟩ -
      cases hz
      rw [← hz'.read "priority"]
      exact hzero
    · intro h
      refine ⟨_, rfl, rfl, hsame.operands, hsame.rest, fun attr => ?_⟩
      by_cases hattr : attr = "priority"
      · subst hattr
        exact hzero.trans (h hv').symm
      · exact hread attr hattr
  · rw [if_neg hv']
    have hup : enqueueDmaUpgrade op₁ version = .ok op₁ := by
      rw [enqueueDmaUpgrade, if_neg hv, ok_bind, if_neg hv']
    rw [hup]
    exact iff_of_true ⟨_, rfl, hsame⟩ fun h => absurd h hv'

/-- What is put back as it was leaves the operation the same. -/
theorem same_of_put_back {op₁ : Operation α β ι} {attr : String} {a : Attribute α}
    (hold : op.attrs attr = some a)
    (h : op₁ = (op.mangled.removeAttr attr).setAttr attr a) :
    op.Same { op₁ with name := op.name } := by
  subst h
  refine ⟨rfl, rfl, rfl, fun k => read_congr (by rfl) ?_⟩
  by_cases hk : k = attr
  · subst hk
    simp [hold]
  · simp [hk, mangled]

theorem waitDma2_restores (hname : op.name = "tpu.wait_dma2") (hverified : op.Verified) :
    Restores waitDma2Upgrade waitDma2Downgrade op version := by
  have hrest : op.Restorable version := by simp [Restorable, hname]
  obtain ⟨sizes, hsizes, hfits, hsum⟩ := hverified _ (by rw [hname]; rfl)
  intro s hs
  refine iff_of_true ?_ hrest
  obtain ⟨op₁, hsegments, hs⟩ := bind_ok.mp hs
  have hv : ¬ version < 3 := by
    intro hv
    rw [if_pos hv] at hs
    cases hs
  rw [if_neg hv] at hs
  cases hs
  by_cases hv' : version < 7
  · rw [if_pos hv'] at hsegments
    simp only [List.forall₂_cons_left_iff, List.forall₂_nil_left_iff] at hfits
    obtain ⟨_, _, rfl, ⟨_, _, rfl, ⟨_, _, rfl, ⟨deviceId, _, -, ⟨coreId, _, -, rfl, rfl⟩, rfl⟩, rfl⟩,
      rfl⟩, rfl⟩ := hfits
    have hattr : (op.mangled.attrs segmentSizesName).bind Attribute.denseI32Array? =
        some [1, 1, 1, deviceId, coreId] := by
      show (op.attrs segmentSizesName).bind _ = _
      rw [hsizes]
      rfl
    simp only [hattr] at hsegments
    split at hsegments
    · cases hsegments
    next hzero =>
    cases hsegments
    obtain ⟨rfl, rfl⟩ : deviceId = 0 ∧ coreId = 0 := by simpa using hzero
    have hlen : op.operands.length = 3 := by
      simp only [List.sum_cons, List.sum_nil] at hsum
      omega
    refine ⟨_, ?_, same_of_put_back hsizes rfl⟩
    rw [waitDma2Upgrade, if_pos hv']
    exact if_neg (not_not.mpr hlen)
  · rw [if_neg hv'] at hsegments
    cases hsegments
    exact ⟨_, if_neg hv', .refl op⟩

theorem semaphoreSignal_restores (hname : op.name = "tpu.sem_signal") (hverified : op.Verified) :
    Restores semaphoreSignalUpgrade semaphoreSignalDowngrade op version := by
  have hrest : op.Restorable version := by simp [Restorable, hname]
  obtain ⟨sizes, hsizes, hfits, hsum⟩ := hverified _ (by rw [hname]; rfl)
  by_cases hv : version < 2
  · intro s hs
    refine iff_of_true ?_ hrest
    simp only [List.forall₂_cons_left_iff, List.forall₂_nil_left_iff] at hfits
    obtain ⟨_, _, rfl, ⟨_, _, rfl, ⟨deviceId, _, hdevice, ⟨coreId, _, -, rfl, rfl⟩, rfl⟩, rfl⟩,
      rfl⟩ := hfits
    have hattr : (op.mangled.attrs segmentSizesName).bind Attribute.denseI32Array? =
        some [1, 1, deviceId, coreId] := by
      show (op.attrs segmentSizesName).bind _ = _
      rw [hsizes]
      rfl
    rw [semaphoreSignalDowngrade, if_pos hv] at hs
    simp only [hattr] at hs
    split at hs
    · cases hs
    next hzero =>
    cases hs
    obtain rfl : coreId = 0 := not_not.mp hzero
    simp only [List.sum_cons, List.sum_nil] at hsum
    rcases hdevice with rfl | rfl
    · have hlen : op.operands.length = 2 := by omega
      refine ⟨_, ?_, same_of_put_back hsizes rfl⟩
      rw [semaphoreSignalUpgrade, if_pos hv]
      exact if_pos hlen
    · have hlen : op.operands.length = 3 := by omega
      refine ⟨_, ?_, same_of_put_back hsizes rfl⟩
      rw [semaphoreSignalUpgrade, if_pos hv]
      exact (if_neg (by simp [mangled, hlen])).trans (if_pos hlen)
  · exact restores_of_id (if_neg hv) (if_neg hv) hrest

theorem multiDimReduce_restores (hname : op.name = "vector.multi_reduction") :
    Restores vectorMultiDimReduceUpgrade vectorMultiDimReduceDowngrade op version := by
  have hrest : op.Restorable version := by simp [Restorable, hname]
  by_cases hv : version < 3
  · intro s hs
    rw [vectorMultiDimReduceDowngrade, if_pos hv] at hs
    cases hs
  · exact restores_of_id (if_neg hv) (if_neg hv) hrest

theorem arithConstant_restores (hname : op.name = "arith.constant") :
    Restores arithConstantUpgrade arithConstantDowngrade op version := by
  have hrest : op.Restorable version := by simp [Restorable, hname]
  intro s hs
  refine iff_of_true ⟨s, rfl, ?_⟩ hrest
  unfold arithConstantDowngrade at hs
  split at hs
  · split at hs
    · cases hs
      exact .refl op
    next e he =>
    obtain ⟨a, ha, hdense⟩ := Option.bind_eq_some_iff.mp he
    split at hs
    · cases hs
      exact .refl op
    next hi1 =>
    split at hs
    · cases hs
    next hsplat =>
    cases hs
    refine ⟨rfl, rfl, rfl, fun attr => ?_⟩
    by_cases hattr : attr = "value"
    · subst hattr
      have hold : op.attrs "value" = some (.denseElements e) := by
        rw [← Attribute.eq_denseElements hdense]
        exact ha
      have hi1' : e.i1 = true := by simpa using hi1
      have hsplat' : e.splat = true := by simpa using hsplat
      have hbyte : DenseElements.splatValue ⟨e.type, true, true,
          [if e.splatValue then 0xff else 0x00]⟩ = e.splatValue := by
        cases e.splatValue <;> rfl
      simp [read, hold, Attribute.value, hi1', hsplat', hbyte]
    · refine read_congr (by rfl) ?_
      simp [hattr, mangled]
  · cases hs
    exact .refl op

theorem restores_of_lookup {up down : SerdeRule α β ι} (hup : upgradeRules.lookup op.name = some up)
    (hdown : downgradeRules.lookup op.name = some down) (h : Restores up down op version) :
    Restores (applyRule upgradeRules op.name) (applyRule downgradeRules op.name) op version := by
  intro s hs
  rw [applyRule, hdown] at hs
  rw [applyRule, hup]
  exact h s hs

/-- The rules of an operation, if it has any, restore it. -/
theorem rules_restore (hverified : op.Verified) :
    Restores (applyRule upgradeRules op.name) (applyRule downgradeRules op.name) op version := by
  by_cases h₁ : op.name = "tpu.enqueue_dma"
  · exact restores_of_lookup (by rw [h₁]; rfl) (by rw [h₁]; rfl) (enqueueDma_restores h₁)
  by_cases h₂ : op.name = "tpu.wait_dma2"
  · exact restores_of_lookup (by rw [h₂]; rfl) (by rw [h₂]; rfl) (waitDma2_restores h₂ hverified)
  by_cases h₃ : op.name = "tpu.dynamic_gather"
  · exact restores_of_lookup (by rw [h₃]; rfl) (by rw [h₃]; rfl) (dynamicGather_restores h₃)
  by_cases h₄ : op.name = "tpu.iota"
  · exact restores_of_lookup (by rw [h₄]; rfl) (by rw [h₄]; rfl) (iota_restores h₄)
  by_cases h₅ : op.name = "tpu.sem_signal"
  · exact restores_of_lookup (by rw [h₅]; rfl) (by rw [h₅]; rfl)
      (semaphoreSignal_restores h₅ hverified)
  by_cases h₆ : op.name = "vector.multi_reduction"
  · exact restores_of_lookup (by rw [h₆]; rfl) (by rw [h₆]; rfl) (multiDimReduce_restores h₆)
  by_cases h₇ : op.name = "tpu.store"
  · exact restores_of_lookup (by rw [h₇]; rfl) (by rw [h₇]; rfl) (store_restores h₇)
  by_cases h₈ : op.name = "arith.constant"
  · exact restores_of_lookup (by rw [h₈]; rfl) (by rw [h₈]; rfl) (arithConstant_restores h₈)
  have hup : (upgradeRules (α := α) (β := β) (ι := ι)).lookup op.name = none := by
    simp [upgradeRules, List.lookup_eq_none_iff, h₁, h₂, h₃, h₄, h₅, h₆, h₇, h₈]
  have hdown : (downgradeRules (α := α) (β := β) (ι := ι)).lookup op.name = none := by
    simp [downgradeRules, List.lookup_eq_none_iff, h₁, h₂, h₃, h₄, h₅, h₆, h₇, h₈]
  refine restores_of_id ?_ ?_ (by simp [Restorable, h₁, h₃, h₄])
  · rw [applyRule, hdown]
  · rw [applyRule, hup]

/-- At the current version no rule does anything. -/
theorem downgrade_current (op : Operation α β ι) :
    ∀ p ∈ downgradeRules (α := α) (β := β) (ι := ι), p.2 op currentVersion = .ok op := by
  intro p hp
  simp only [downgradeRules, List.mem_cons, List.not_mem_nil, or_false] at hp
  rcases hp with rfl | rfl | rfl | rfl | rfl | rfl | rfl | rfl <;> rfl

theorem applyRule_current (name : String) (op : Operation α β ι) :
    applyRule downgradeRules name op currentVersion = .ok op := by
  unfold applyRule
  cases hrule : downgradeRules.lookup name with
  | none => rfl
  | some rule =>
      obtain ⟨l₁, l₂, hl, -⟩ := List.lookup_eq_some_iff.mp hrule
      exact downgrade_current op (name, rule) (by simp [hl])

theorem demangle_mangle (name dialect : String) :
    demangle (mangle name dialect) dialect = some name := by
  simp [demangle, mangle]

theorem mangled_not_module (op : Operation α β ι) : op.mangled.isModule = false := by
  refine decide_eq_false fun h => ?_
  have hhead := congrArg (fun s => s.toList.head?) h
  simp [mangled, mangle, String.toList_append] at hhead

/-- Serialization, at whatever version, applies the rule of that version. -/
theorem serializeOp_eq (hmodule : op.isModule = false) :
    serializeOp downgradeRules (mosaicOptions version) op =
      applyRule downgradeRules op.name op.mangled version := by
  unfold serializeOp
  rw [hmodule, if_neg Bool.false_ne_true]
  by_cases hv : currentVersion = version
  · subst hv
    rw [applyRule_current]
    exact if_neg (not_not.mpr rfl)
  · exact if_pos hv

/-- The name that the walk has given is kept by the rules. -/
theorem downgrade_name {s : Operation α β ι} :
    ∀ p ∈ downgradeRules (α := α) (β := β) (ι := ι), p.2 op version = .ok s → s.name = op.name := by
  have hdimension : ∀ {since : ℤ}, dimensionDowngrade since op version = .ok s →
      s.name = op.name := by
    intro since h
    unfold dimensionDowngrade at h
    split at h
    · split at h <;> cases h
      rfl
    · cases h
      rfl
  intro p hp
  simp only [downgradeRules, List.mem_cons, List.not_mem_nil, or_false] at hp
  rcases hp with rfl | rfl | rfl | rfl | rfl | rfl | rfl | rfl
  · intro h
    obtain ⟨op₁, h₁, h⟩ := bind_ok.mp h
    have hname : op₁.name = op.name := by
      split at h₁
      · split at h₁ <;> cases h₁ <;> rfl
      · cases h₁
        rfl
    by_cases hv : version < 2
    · rw [if_pos hv] at h
      cases h
    · rw [if_neg hv] at h
      cases h
      rw [← hname]
      split <;> rfl
  · intro h
    obtain ⟨op₁, h₁, h⟩ := bind_ok.mp h
    have hname : op₁.name = op.name := by
      split at h₁
      · split at h₁
        · split at h₁ <;> cases h₁
          rfl
        · cases h₁
      · cases h₁
        rfl
    split at h <;> cases h
    exact hname
  · exact hdimension
  · exact hdimension
  · intro h
    change semaphoreSignalDowngrade op version = .ok s at h
    unfold semaphoreSignalDowngrade at h
    split at h
    · split at h
      · split at h <;> cases h
        rfl
      · cases h
    · cases h
      rfl
  · intro h
    change storeDowngrade op version = .ok s at h
    unfold storeDowngrade at h
    split at h
    · split at h <;> cases h
      rfl
    · cases h
      rfl
  · intro h
    change vectorMultiDimReduceDowngrade op version = .ok s at h
    unfold vectorMultiDimReduceDowngrade at h
    split at h <;> cases h
    rfl
  · intro h
    change arithConstantDowngrade op version = .ok s at h
    unfold arithConstantDowngrade at h
    split at h
    · split at h
      · cases h
        rfl
      · split at h
        · cases h
          rfl
        · split at h <;> cases h
          rfl
    · cases h
      rfl

theorem applyRule_name {s : Operation α β ι} {name : String}
    (h : applyRule downgradeRules name op version = .ok s) : s.name = op.name := by
  unfold applyRule at h
  cases hrule : downgradeRules.lookup name with
  | none =>
      rw [hrule] at h
      cases h
      rfl
  | some rule =>
      rw [hrule] at h
      obtain ⟨l₁, l₂, hl, -⟩ := List.lookup_eq_some_iff.mp hrule
      exact downgrade_name (name, rule) (by simp [hl]) h

/-- An operation that has been serialized is read back as it was if and only if nothing of it
has been lost. -/
theorem back_iff (hverified : op.Verified) {s : Operation α β ι}
    (hs : serializeOp downgradeRules (mosaicOptions version) op = .ok s) :
    Back (serializeOp downgradeRules (mosaicOptions version))
      (deserializeOp upgradeRules (mosaicOptions (-1)) version) Same op ↔ op.Restorable version := by
  cases hmodule : op.isModule with
  | true =>
      have hname : op.name = "builtin.module" := by simpa [isModule] using hmodule
      have hid : ∀ f : Except String (Operation α β ι),
          (if op.isModule then .ok op else f) = .ok op := fun f => if_pos hmodule
      refine iff_of_true ⟨op, op, hid _, hid _, .refl op⟩ ?_
      simp [Restorable, hname]
  | false =>
      rw [serializeOp_eq hmodule] at hs
      rw [← rules_restore hverified s hs]
      have hsname := applyRule_name hs
      have hsmodule : s.isModule = false := by
        rw [isModule, hsname]
        exact mangled_not_module op
      have hback : deserializeOp upgradeRules (mosaicOptions (-1)) version s = (do
          let z ← applyRule upgradeRules op.name s version
          .ok { z with name := op.name }) := by
        have hdemangle : demangle s.name (mosaicOptions (-1)).dialectPrefix = some op.name := by
          rw [hsname]
          exact demangle_mangle _ _
        rw [deserializeOp, hsmodule, if_neg Bool.false_ne_true, hdemangle]
      constructor
      · rintro ⟨s', z, hs', hz, hsame⟩
        rw [serializeOp_eq hmodule] at hs'
        cases hs.symm.trans hs'
        rw [hback] at hz
        obtain ⟨z', hz', heq⟩ := bind_ok.mp hz
        cases heq
        exact ⟨z', hz', hsame⟩
      · rintro ⟨z, hz, hsame⟩
        refine ⟨s, _, (serializeOp_eq hmodule).trans hs, ?_, hsame⟩
        rw [hback, hz]
        rfl

end Operation

/-! ### Modules -/

open Operation

/-- The parts of a serialized module. -/
theorem exists_body {allows keep : Bool} {version : ℤ} {m s : Module α β ι}
    (hs : mosaicSerde allows true version keep m = .ok s) :
    version ≤ currentVersion ∧
      walksM (serializeOp downgradeRules (mosaicOptions version)) m.body = .ok s.body ∧
        s.rest = m.rest ∧ s.attrs = Function.update m.attrs "stable_mosaic.version"
          (some (.integer (.signless 64) version)) := by
  unfold mosaicSerde runSerde at hs
  simp only [Bool.not_true, Bool.false_and, Bool.true_and, if_true] at hs
  rw [if_neg Bool.false_ne_true] at hs
  split at hs
  · cases hs
  next hv =>
  split at hs
  · cases hs
  obtain ⟨body, hbody, hs⟩ := bind_ok.mp hs
  cases hs
  have hle : (mosaicOptions version).serializeVersion ≤ (mosaicOptions version).highestVersion := by
    simpa using hv
  exact ⟨hle, hbody, rfl, rfl⟩

/-- Deserialization, of what has been serialized. -/
theorem deserialize_eq {allows keep : Bool} {version : ℤ} {s : Module α β ι}
    (hversion : version ≤ currentVersion)
    (hattr : s.attrs "stable_mosaic.version" = some (.integer (.signless 64) version)) :
    mosaicSerde allows false (-1) keep s = (do
      let body ← walksM (deserializeOp upgradeRules (mosaicOptions (-1)) version) s.body
      .ok { s with
        attrs := if keep then s.attrs
          else Function.update s.attrs "stable_mosaic.version" none
        body := body }) := by
  have hread : (s.attrs (mosaicOptions (-1)).versionAttrName).bind Attribute.integer? =
      some (.signless 64, version) := by
    show (s.attrs "stable_mosaic.version").bind _ = _
    rw [hattr]
    rfl
  have hle : ¬ (mosaicOptions (-1)).highestVersion < version := Int.not_lt.mpr hversion
  unfold mosaicSerde runSerde
  rw [hread]
  exact if_neg hle

/-- A module that has been serialized at a version is read back as it was if and only if
nothing of its operations has been lost. -/
theorem roundTrip_iff {allows allows' keep keep' : Bool} {version : ℤ} {m s : Module α β ι}
    (hverified : ∀ op ∈ m.operations, op.Verified)
    (hs : mosaicSerde allows true version keep m = .ok s) :
    (∃ m', mosaicSerde allows' false (-1) keep' s = .ok m' ∧ m.Same m') ↔
      ∀ op ∈ m.operations, op.Restorable version := by
  obtain ⟨hversion, hbody, hrest, hattrs⟩ := exists_body hs
  have hattr : s.attrs "stable_mosaic.version" = some (.integer (.signless 64) version) := by
    rw [hattrs, Function.update_self]
  have hops : (∀ op ∈ m.operations, op.Restorable version) ↔
      ∀ op ∈ postorders m.body, Back (serializeOp downgradeRules (mosaicOptions version))
        (deserializeOp upgradeRules (mosaicOptions (-1)) version) Operation.Same op := by
    refine forall₂_congr fun op hop => ?_
    obtain ⟨s', hs'⟩ := exists_of_walksM hbody op hop
    exact (back_iff (hverified op hop) hs').symm
  rw [hops, ← walksM_back (walksM_ok.mp hbody) fun t _ u ht => walkM_back ht,
    deserialize_eq hversion hattr]
  constructor
  · rintro ⟨m', hm', hsame⟩
    obtain ⟨body, hback, hm'⟩ := bind_ok.mp hm'
    cases hm'
    exact ⟨body, hback, hsame.body⟩
  · rintro ⟨body, hback, hrel⟩
    rw [hback]
    refine ⟨_, rfl, fun attr hne => ?_, hrest, hrel⟩
    cases keep' with
    | true => simp [hattrs, hne]
    | false => simp [hattrs, hne]

/-- A local DMA of the priority. -/
def dmaOp (priority : ℤ) : Operation Unit Unit ℕ where
  name := "tpu.enqueue_dma"
  operands := [0, 1, 2]
  attrs attr :=
    if attr = segmentSizesName then some (.denseI32Array [1, 0, 1, 1, 0, 0])
    else if attr = "priority" then some (.i32 priority)
    else none
  rest := ()

def dmaModule (priority : ℤ) : Module Unit Unit ℕ where
  attrs _ := none
  rest := ()
  body := [.node (dmaOp priority) []]

theorem dmaModule_operations (priority : ℤ) :
    (dmaModule priority).operations = [dmaOp priority] := by
  simp [Module.operations, dmaModule]

/-- From version 4 on the priority is kept. -/
theorem roundTrip_dma : ∃ s, mosaicSerde true true 5 false (dmaModule 1) = .ok s ∧
    ∃ m', mosaicSerde true false (-1) false s = .ok m' ∧ (dmaModule 1).Same m' := by
  obtain ⟨s, hs⟩ : ∃ s, mosaicSerde true true 5 false (dmaModule 1) = .ok s := ⟨_, rfl⟩
  refine ⟨s, hs, (roundTrip_iff ?_ hs).mpr ?_⟩
  · intro op hop groups hgroups
    rw [dmaModule_operations, List.mem_singleton] at hop
    subst hop
    cases hgroups
    refine ⟨_, rfl, ?_, rfl⟩
    simp [OperandGroup.Fits]
  · intro op hop
    rw [dmaModule_operations, List.mem_singleton] at hop
    subst hop
    refine ⟨fun _ h => absurd h (by decide), ?_, ?_⟩
    · exact fun h => absurd h (by decide)
    · exact fun h => absurd h (by decide)

/-- Below it, it is lost. -/
theorem priority_lost : ∃ s, mosaicSerde true true 3 false (dmaModule 1) = .ok s ∧
    ¬ ∃ m', mosaicSerde true false (-1) false s = .ok m' ∧ (dmaModule 1).Same m' := by
  refine ⟨_, rfl, ?_⟩
  rintro ⟨m', hm', hsame⟩
  cases hm'
  cases hsame.body with
  | cons hop _ =>
      cases hop with
      | node hop _ =>
          have hread := hop.read "priority"
          cases hread

end JaxDas.Serde
