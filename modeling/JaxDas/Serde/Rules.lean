import JaxDas.Serde.Operation

/-!
# The rules of the versions

For eight operations of the TPU dialect and of its neighbours, what to do when a module is read
that an older version has written (`upgradeRules`), and when it is written for an older version
(`downgradeRules`). No rule erases its operation.
-/

namespace JaxDas.Serde

variable {α β ι : Type}

/-- `SerdeRuleType`, with the error that the operation emits. -/
abbrev SerdeRule (α β ι : Type) := Operation α β ι → ℤ → Except String (Operation α β ι)

/-- `AttrSizedOperandSegments::getOperandSegmentSizeAttr()` -/
def segmentSizesName : String := "operandSegmentSizes"

def storeUpgrade : SerdeRule α β ι := fun op version =>
  if version < 11 then .ok (op.setAttr "add" (.bool false)) else .ok op

def storeDowngrade : SerdeRule α β ι := fun op version =>
  if version < 11 then
    match (op.attrs "add").bind Attribute.bool? with
    | none => .error "Missing or invalid add attribute"
    | some true => .error "Can only downgrade below version 11 when add is not set"
    | some false => .ok (op.removeAttr "add")
  else .ok op

/-- Below the version, an operation has one dimension, an attribute of the type `i32`. -/
def dimensionUpgrade (since : ℤ) : SerdeRule α β ι := fun op version =>
  if version < since then
    match (op.attrs "dimension").bind Attribute.integer? with
    | none => .error "Missing or invalid dimension attribute"
    | some (type, dimension) =>
        if type.bitWidth ≠ 32 then .error "Missing or invalid dimension attribute"
        else .ok ((op.removeAttr "dimension").setAttr "dimensions" (.denseI32Array [dimension]))
  else .ok op

def dimensionDowngrade (since : ℤ) : SerdeRule α β ι := fun op version =>
  if version < since then
    match (op.attrs "dimensions").bind Attribute.denseI32Array? with
    | none => .error "Missing or invalid dimensions attribute"
    | some [dimension] => .ok ((op.removeAttr "dimensions").setAttr "dimension" (.i32 dimension))
    | some _ =>
        .error "Can only downgrade below version 5 when a single dimension is specified."
  else .ok op

def dynamicGatherUpgrade : SerdeRule α β ι := dimensionUpgrade 5

def dynamicGatherDowngrade : SerdeRule α β ι := dimensionDowngrade 5

def iotaUpgrade : SerdeRule α β ι := dimensionUpgrade 6

/-- The text of its error speaks of version 5 too. -/
def iotaDowngrade : SerdeRule α β ι := dimensionDowngrade 6

def enqueueDmaUpgrade : SerdeRule α β ι := fun op version => do
  let op ←
    (if version < 2 then
      if op.operands.length = 3 then
        .ok (op.setAttr segmentSizesName (.denseI32Array [1, 0, 1, 1, 0, 0]))
      else if op.operands.length = 5 then
        .ok (op.setAttr segmentSizesName (.denseI32Array [1, 1, 1, 1, 1, 0]))
      else
        .error ("Unexpected operand count in tpu.enqueue_dma: " ++ toString op.operands.length)
    else .ok op)
  if version < 4 then .ok (op.setAttr "priority" (.i32 0)) else .ok op

def enqueueDmaDowngrade : SerdeRule α β ι := fun op version => do
  let op ←
    (if version < 8 then
      match (op.attrs "strict_ordering").bind Attribute.bool? with
      | some true =>
          .error "Can only downgrade below version 8 when strict ordering is not set to True"
      | some false => .ok (op.removeAttr "strict_ordering")
      | none => .ok op
    else .ok op)
  let op := if version < 4 then op.removeAttr "priority" else op
  if version < 2 then .error ("Downgrade to version " ++ toString version ++ " unsupported")
  else .ok op

def waitDma2Upgrade : SerdeRule α β ι := fun op version =>
  if version < 7 then
    if op.operands.length ≠ 3 then
      .error ("Unexpected operand count in tpu.wait_dma2: " ++ toString op.operands.length)
    else .ok (op.setAttr segmentSizesName (.denseI32Array [1, 1, 1, 0, 0]))
  else .ok op

def waitDma2Downgrade : SerdeRule α β ι := fun op version => do
  let op ←
    (if version < 7 then
      match (op.attrs segmentSizesName).bind Attribute.denseI32Array? with
      | some [_, _, _, deviceId, coreId] =>
          if deviceId ≠ 0 ∨ coreId ≠ 0 then
            .error ("Downgrade to version " ++ toString version ++
              " impossible: device_id and/or core_id is set")
          else .ok (op.removeAttr segmentSizesName)
      | _ => .error "Missing or invalid AttrSizedOperandSegments"
    else .ok op)
  if version < 3 then .error ("Downgrade to version " ++ toString version ++ " unsupported")
  else .ok op

def semaphoreSignalUpgrade : SerdeRule α β ι := fun op version =>
  if version < 2 then
    if op.operands.length = 2 then
      .ok (op.setAttr segmentSizesName (.denseI32Array [1, 1, 0, 0]))
    else if op.operands.length = 3 then
      .ok (op.setAttr segmentSizesName (.denseI32Array [1, 1, 1, 0]))
    else .error "Unexpected operand count in tpu.semaphore_signal"
  else .ok op

def semaphoreSignalDowngrade : SerdeRule α β ι := fun op version =>
  if version < 2 then
    match (op.attrs segmentSizesName).bind Attribute.denseI32Array? with
    | some [_, _, _, coreId] =>
        if coreId ≠ 0 then
          .error ("Downgrade to version " ++ toString version ++ " impossible: core_id is set")
        else .ok (op.removeAttr segmentSizesName)
    | _ => .error "Missing or invalid AttrSizedOperandSegments"
  else .ok op

def vectorMultiDimReduceUpgrade : SerdeRule α β ι := fun op version =>
  if version < 3 then
    match op.attrs "reduction_dims" with
    | none => .error "Missing reduction_dims attribute"
    | some attr =>
        match attr.array? with
        | none => .error (op.opError "reduction_dims attribute is not an ArrayAttr")
        | some dims =>
            match dims.mapM Attribute.integer? with
            | none => .error (op.opError "reduction_dims attribute contains a non-IntegerAttr")
            | some dims =>
                .ok (op.setAttr "reduction_dims" (.denseI64Array (dims.map Prod.snd)))
  else .ok op

def vectorMultiDimReduceDowngrade : SerdeRule α β ι := fun op version =>
  if version < 3 then
    .error (op.opError ("Downgrade to version " ++ toString version ++ " unsupported"))
  else .ok op

def arithConstantUpgrade : SerdeRule α β ι := fun op _ => .ok op

/-- Below version 10, a splat of `i1` was a byte with all bits set, or with none. -/
def arithConstantDowngrade : SerdeRule α β ι := fun op version =>
  if version < 10 then
    match (op.attrs "value").bind Attribute.denseElements? with
    | none => .ok op
    | some e =>
        if !e.i1 then .ok op
        else if !e.splat then
          .error (op.opError ("Downgrade to version " ++ toString version ++
            " not implemented: value is not a splat"))
        else
          .ok (op.setAttr "value"
            (.denseElements ⟨e.type, true, true, [if e.splatValue then 0xff else 0x00]⟩))
  else .ok op

def upgradeRules : List (String × SerdeRule α β ι) :=
  [("tpu.enqueue_dma", enqueueDmaUpgrade),
    ("tpu.wait_dma2", waitDma2Upgrade),
    ("tpu.dynamic_gather", dynamicGatherUpgrade),
    ("tpu.iota", iotaUpgrade),
    ("tpu.sem_signal", semaphoreSignalUpgrade),
    ("vector.multi_reduction", vectorMultiDimReduceUpgrade),
    ("tpu.store", storeUpgrade),
    ("arith.constant", arithConstantUpgrade)]

def downgradeRules : List (String × SerdeRule α β ι) :=
  [("tpu.enqueue_dma", enqueueDmaDowngrade),
    ("tpu.wait_dma2", waitDma2Downgrade),
    ("tpu.dynamic_gather", dynamicGatherDowngrade),
    ("tpu.iota", iotaDowngrade),
    ("tpu.sem_signal", semaphoreSignalDowngrade),
    ("tpu.store", storeDowngrade),
    ("vector.multi_reduction", vectorMultiDimReduceDowngrade),
    ("arith.constant", arithConstantDowngrade)]

end JaxDas.Serde
