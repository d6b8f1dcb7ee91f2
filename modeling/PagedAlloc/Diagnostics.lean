import PagedAlloc.Text

/-!
# Diagnostic settings

Two switches that trade speed or memory for finding dangling references earlier. An allocator gets
its settings when it is made and keeps them. Each switch can be set by a variable of the process
environment. A variable that is unset, is not text, or does not spell a truth value leaves its
switch off.
-/

namespace PagedAlloc

/-- The diagnostic switches of an allocator. -/
structure Diagnostics where
  /-- Every resize that may move does move, and the abandoned region is poisoned: pages lose all
  access and stay mapped, heap regions are overwritten with `Diagnostics.poison`. -/
  debugLayer : Bool
  /-- An arena moves its buffer at every capacity check, also when the bytes would fit. -/
  forceRelocation : Bool
  deriving DecidableEq, Repr

namespace Diagnostics

/-- Both switches off. -/
def off : Diagnostics := ⟨false, false⟩

/-- The byte written over abandoned heap regions. -/
def poison : UInt8 := 0xDD

/-- Sets the debug layer. -/
def withDebugLayer (settings : Diagnostics) (enabled : Bool) : Diagnostics :=
  { settings with debugLayer := enabled }

/-- Sets forced relocation. -/
def withForceRelocation (settings : Diagnostics) (enabled : Bool) : Diagnostics :=
  { settings with forceRelocation := enabled }

/-- The diagnostic notation of the settings. -/
def shown (settings : Diagnostics) : String :=
  Text.record "MemoryConfig"
    [("debug_memory_layer", Text.truth settings.debugLayer),
      ("force_realloc_on_push", Text.truth settings.forceRelocation)]

/-! ## Settings from environment variables -/

/-- The texts that switch on and off, after blanks are trimmed and case is dropped. Every letter of
these words is ASCII and the lower case of no letter outside ASCII, so lowering ASCII is enough. -/
def switch? (text : String) : Option Bool :=
  let word := String.ofList ((Text.trim text.toList).map Char.toLower)
  if word ∈ ["true", "1", "yes", "on"] then some true
  else if word ∈ ["false", "0", "no", "off"] then some false
  else none

/-- The text of a variable, if its bytes are text at all. -/
def decode? (bytes : List UInt8) : Option String :=
  String.fromUTF8? (ByteArray.mk bytes.toArray)

/-- What a variable says about its switch, given the bytes of its value if it is set. -/
def settingOf? (value : Option (List UInt8)) : Option Bool :=
  value.bind fun bytes => (decode? bytes).bind switch?

/-- The settings under the two variables for the debug layer and for forced relocation. -/
def ofVariables (debugLayer forceRelocation : Option (List UInt8)) : Diagnostics :=
  ⟨(settingOf? debugLayer).getD off.debugLayer,
    (settingOf? forceRelocation).getD off.forceRelocation⟩

end Diagnostics

end PagedAlloc
