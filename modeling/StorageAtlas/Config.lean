import StorageAtlas.Json.Shape

/-!
# Limits and timing

The limits that bound the resolution of layouts, and the limits and times that govern the reading
of values. All have defaults.
-/

namespace StorageAtlas

open Json

/-- The limits for resolving layouts. A value that one of them cuts short says so in its status. -/
structure ResolverConfig where
  /-- Steps taken into one variable at most. -/
  maxDepth : Nat := 20
  /-- Elements of static arrays spelled out for one value at most, nested arrays included. -/
  maxArrayElements : Nat := 1024
deriving DecidableEq, Repr

/-- The limits and times for reading values. -/
structure ReaderConfig where
  /-- Records read side by side. -/
  concurrency : Nat := 16
  /-- Attempts after the first one. -/
  retries : Nat := 3
  initialBackoffMs : Nat := 200
  maxBackoffMs : Nat := 2000
  /-- How long one attempt may take. -/
  timeoutMs : Nat := 10000
  /-- Byte strings longer than this are not read. -/
  maxDynamicBytes : Nat := 1024 * 1024
  /-- Whether the elements of dynamic arrays are read once the length is known. -/
  expandDynamicArrays : Bool := false
  /-- Elements read of one dynamic array at most. -/
  maxExpandedElements : Nat := 1024
deriving DecidableEq, Repr

namespace ReaderConfig

/-- The longest pause between attempts, never below the first one. -/
def backoffLimitMs (c : ReaderConfig) : Nat := max c.maxBackoffMs c.initialBackoffMs

/-- Records really read side by side, at least one. -/
def fanOut (c : ReaderConfig) : Nat := max c.concurrency 1

end ReaderConfig

/-! ## JSON -/

def ResolverConfig.fieldNames : List String := ["max_depth", "max_array_elements"]

def ResolverConfig.toJson (c : ResolverConfig) : Json :=
  .object [("max_depth", .nat c.maxDepth), ("max_array_elements", .nat c.maxArrayElements)]

def ResolverConfig.ofJson? (j : Json) : Option ResolverConfig := do
  let d : ResolverConfig := {}
  match ← fields? fieldNames j with
  | [depth, elements] =>
    return ⟨← orDefault asNat64? d.maxDepth depth, ← orDefault asNat64? d.maxArrayElements elements⟩
  | _ => none

def ReaderConfig.fieldNames : List String :=
  ["concurrency", "retries", "initial_backoff_ms", "max_backoff_ms", "timeout_ms",
    "max_dynamic_bytes", "expand_dynamic_arrays", "max_expanded_elements"]

def ReaderConfig.toJson (c : ReaderConfig) : Json :=
  .object [("concurrency", .nat c.concurrency), ("retries", .nat c.retries),
    ("initial_backoff_ms", .nat c.initialBackoffMs), ("max_backoff_ms", .nat c.maxBackoffMs),
    ("timeout_ms", .nat c.timeoutMs), ("max_dynamic_bytes", .nat c.maxDynamicBytes),
    ("expand_dynamic_arrays", .bool c.expandDynamicArrays),
    ("max_expanded_elements", .nat c.maxExpandedElements)]

def ReaderConfig.ofJson? (j : Json) : Option ReaderConfig := do
  let d : ReaderConfig := {}
  match ← fields? fieldNames j with
  | [concurrency, retries, initial, most, timeout, bytes, expand, elements] =>
    return ⟨← orDefault asNat64? d.concurrency concurrency,
      ← orDefault (asNat? UInt32.size) d.retries retries,
      ← orDefault asNat64? d.initialBackoffMs initial, ← orDefault asNat64? d.maxBackoffMs most,
      ← orDefault asNat64? d.timeoutMs timeout, ← orDefault asNat64? d.maxDynamicBytes bytes,
      ← orDefault asBool? d.expandDynamicArrays expand,
      ← orDefault asNat64? d.maxExpandedElements elements⟩
  | _ => none

end StorageAtlas
