import JaxDas.Serde.Rules

/-!
# Serialization

A module is serialized by giving every operation but modules a mangled name, and deserialized
by taking the mangling off; the rules adapt the operations to the version of the serialized
form, which is an attribute of the module.
-/

namespace JaxDas.Serde

open PostOrder

variable {α β ι : Type}

def mangle (name dialect : String) : String := dialect ++ name

def demangle (name dialect : String) : Option String :=
  if dialect.toList.isPrefixOf name.toList then
    some (String.ofList (name.toList.drop dialect.toList.length))
  else none

structure SerdeOptions where
  /-- What stands before the names of a serialized form. -/
  dialectPrefix : String
  highestVersion : ℤ
  versionAttrName : String
  /-- It is -1 when a module is deserialized. -/
  serializeVersion : ℤ

/-- The rule of an operation, if there is one. -/
def applyRule (rules : List (String × SerdeRule α β ι)) (name : String) (op : Operation α β ι)
    (version : ℤ) : Except String (Operation α β ι) :=
  match rules.lookup name with
  | none => .ok op
  | some rule => rule op version

/-- The walk of `RunSerde` at one operation, when it serializes. -/
def serializeOp (rules : List (String × SerdeRule α β ι)) (o : SerdeOptions)
    (op : Operation α β ι) : Except String (Operation α β ι) :=
  if op.isModule then .ok op
  else
    let newOp := { op with name := mangle op.name o.dialectPrefix }
    if o.highestVersion ≠ o.serializeVersion then
      applyRule rules op.name newOp o.serializeVersion
    else .ok newOp

/-- The walk of `RunSerde` at one operation, when it deserializes. -/
def deserializeOp (rules : List (String × SerdeRule α β ι)) (o : SerdeOptions) (version : ℤ)
    (op : Operation α β ι) : Except String (Operation α β ι) :=
  if op.isModule then .ok op
  else
    match demangle op.name o.dialectPrefix with
    | none => .error "Operation not in a serialized form"
    | some name => do
        let op ← applyRule rules name op version
        .ok { op with name := name }

/-- `RunSerde`, in a context that allows unregistered dialects or does not. -/
def runSerde (allowsUnregistered : Bool) (m : Module α β ι)
    (upgradeRules downgradeRules : List (String × SerdeRule α β ι)) (serialize : Bool)
    (o : SerdeOptions) (keepVersionAttr : Bool) : Except String (Module α β ι) :=
  if !serialize && decide (o.serializeVersion ≠ -1) then
    .error "Cannot deserialize to a specific version"
  else if serialize && decide (o.highestVersion < o.serializeVersion) then
    .error ("The highest supported version is " ++ toString o.highestVersion ++
      " but requested serialization at version " ++ toString o.serializeVersion)
  else if serialize && !allowsUnregistered then
    .error "Cannot serialize within a context that does not allow unregistered dialects"
  else if serialize then do
    let body ← walksM (serializeOp downgradeRules o) m.body
    .ok { m with
      attrs := Function.update m.attrs o.versionAttrName
        (some (.integer (.signless 64) o.serializeVersion))
      body := body }
  else
    match (m.attrs o.versionAttrName).bind Attribute.integer? with
    | none => .error "Missing or invalid version attribute"
    | some (_, version) =>
        if o.highestVersion < version then
          .error ("Unsupported version: expected <= " ++ toString o.highestVersion ++ " but got " ++
            toString version)
        else do
          let body ← walksM (deserializeOp upgradeRules o version) m.body
          .ok { m with
            attrs := if keepVersionAttr then m.attrs
              else Function.update m.attrs o.versionAttrName none
            body := body }

/-- `kVersion` -/
def currentVersion : ℤ := 11

/-- The options of `MosaicSerdePass`. -/
def mosaicOptions (version : ℤ) : SerdeOptions where
  dialectPrefix := "stable_mosaic."
  highestVersion := currentVersion
  versionAttrName := "stable_mosaic.version"
  serializeVersion := version

/-- `RunSerde` as `MosaicSerdePass` calls it. -/
def mosaicSerde (allowsUnregistered serialize : Bool) (version : ℤ) (keepVersionAttr : Bool)
    (m : Module α β ι) : Except String (Module α β ι) :=
  runSerde allowsUnregistered m upgradeRules downgradeRules serialize (mosaicOptions version)
    keepVersionAttr

end JaxDas.Serde
