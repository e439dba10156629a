import MessagePack.Error

/-!
Feature switches and limits shared by every part of the codec.
-/

namespace MessagePack

inductive Version where
  /-- The legacy format has no str8, bin or ext headers. -/
  | v4
  | v5
  deriving DecidableEq

inductive FloatMode where
  | native
  /-- Floats are only passed through as bit patterns. -/
  | raw
  deriving DecidableEq

def requireFeature (enabled : Bool) (feature : Feature) : Except Error Unit :=
  if enabled then .ok () else .error (.usage (.featureDisabled feature))

structure TagOptions where
  version : Version := .v5
  extensions : Bool := false
  float : FloatMode := .native
  deriving DecidableEq

/-- The largest size a 64-bit machine can name. -/
def maxSize : Nat := UInt64.size - 1

/-- The most bytes that can be reserved at a time. -/
def maxReserve : Nat := UInt64.size / 2 - 1

/-- Room for `count` items. A request that is refused is reported in one word. -/
def reserve (count itemSize : Nat) : Except Error Unit :=
  if count * itemSize ≤ maxReserve then
    .ok ()
  else
    .error (.resource (count * itemSize % UInt64.size))

structure Config where
  reader : Bool := true
  writer : Bool := true
  node : Bool := true
  builder : Bool := true
  extensions : Bool := false
  compatibility : Bool := false
  version : Version := .v5
  readTracking : Bool := true
  writeTracking : Bool := true
  float : FloatMode := .native
  /-- Without it, nesting is capped at `maxDepthWithoutAlloc`. -/
  dynamicAlloc : Bool := true
  bufferSize : Nat := 4096
  nodePageSize : Nat := 4096
  builderPageSize : Nat := 4096
  nodeInitialDepth : Nat := 8
  maxDepthWithoutAlloc : Nat := 32
  maxDepth : Nat := maxSize
  maxSize : Nat := maxSize
  maxNodes : Nat := maxSize
  /-- The largest payload a reader copies out. -/
  maxAlloc : Nat := 64 * 1024 * 1024
  deriving DecidableEq

namespace Config

def fault? (config : Config) : Option ConfigFault :=
  if config.version = .v4 ∧ !config.compatibility then
    some .legacyWithoutCompatibility
  else if config.builder ∧ !config.writer then
    some .builderWithoutWriter
  else if config.bufferSize = 0 ∨ config.nodePageSize = 0 ∨ config.builderPageSize = 0 then
    some .zeroSize
  else if !config.dynamicAlloc ∧ config.maxDepthWithoutAlloc = 0 then
    some .zeroDepthCeiling
  else
    none

def validate (config : Config) : Except Error Unit :=
  match config.fault? with
  | some fault => .error (.usage (.invalidConfig fault))
  | none => .ok ()

def Valid (config : Config) : Prop :=
  config.fault? = none

instance (config : Config) : Decidable config.Valid :=
  inferInstanceAs (Decidable (_ = _))

/-- The version is only honoured with compatibility on. -/
def effectiveVersion (config : Config) : Version :=
  if config.compatibility then config.version else .v5

def tagOptions (config : Config) : TagOptions where
  version := config.effectiveVersion
  extensions := config.extensions
  float := config.float

def trackingLimit (config : Config) : Option Nat :=
  if config.dynamicAlloc then none else some config.maxDepthWithoutAlloc

def nodeDepthLimit (config : Config) (requested : Nat) : Nat :=
  if config.dynamicAlloc then requested else min requested config.maxDepthWithoutAlloc

end Config
end MessagePack
