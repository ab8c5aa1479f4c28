import ReflexLlm.Lib.Lines
import ReflexLlm.Spec.EngineLoad
import ReflexLlm.Spec.GgufConfig
import ReflexLlm.Spec.ThinkSplit
import ReflexLlm.Spec.Tokenizer

/-! `src/memory/budget.cpp`: the memory of the system as `/proc/meminfo` shows it, and the guard
that asks for it before the cache grows. The text of the file is an argument, `none` where it cannot
be opened. -/

namespace JLLM

/-- `strtoll` with base ten: what is out of range is cut to it, and no digits make 0. -/
def strtoll (text : List UInt8) : ℤ :=
  let text := text.dropWhile isSpace
  let neg := text.head? = some '-'.toUInt8
  let unsigned := if neg ∨ text.head? = some '+'.toUInt8 then text.tail else text
  let n : ℕ := (unsigned.takeWhile isDigit).foldl (fun n d => 10 * n + (d.toNat - 0x30)) 0
  if neg then max (-n) (-0x8000000000000000) else min n 0x7FFFFFFFFFFFFFFF

/-- What `fgets` puts into `line`, piece by piece. -/
def meminfoLines (text : List UInt8) : List (List UInt8) := Lines.pieces '\n'.toUInt8 254 text

/-- Behind the name of a field. -/
def isFieldSeparator (b : UInt8) : Bool := b = ' '.toUInt8 ∨ b = ':'.toUInt8

/-- `parse_meminfo_field`, in MB. -/
def parseMeminfoField (file : Option (List UInt8)) (field : List UInt8) : ℤ :=
  match file with
  | none => -1
  | some text =>
      match (meminfoLines text).find? fun line => field <+: cString line with
      | none => -1
      | some line =>
          (strtoll (((cString line).drop field.length).dropWhile isFieldSeparator)).tdiv 1024

theorem noMb_nonneg : (0 : ℤ) ≤ 0 := Int.le_refl 0

/-- `probe_system_memory`; the file is opened once for each field. -/
def probeSystemMemory (total available cma : Option (List UInt8)) : MemoryBudget :=
  let totalMb := parseMeminfoField total (ascii "MemTotal")
  let availableMb := parseMeminfoField available (ascii "MemAvailable")
  let cmaMb := parseMeminfoField cma (ascii "CmaTotal")
  let osMb := totalMb - availableMb - cmaMb
  { totalMb := totalMb
    osMb := if osMb < 0 then 500 else osMb
    cmaMb := cmaMb
    cudaCtxMb := 300
    modelMb := 0
    kvCacheMb := 0
    scratchMb := 0
    safetyMb := 256
    kvCache_nonneg := noMb_nonneg
    scratch_nonneg := noMb_nonneg }

/-- `OOMGuard`. -/
structure OomGuard where
  safetyMb : ℤ

/-- `real_free_mb`. -/
def OomGuard.realFreeMb (_ : OomGuard) (file : Option (List UInt8)) : ℤ :=
  parseMeminfoField file (ascii "MemAvailable")

/-- `can_extend`. -/
def OomGuard.canExtend (g : OomGuard) (file : Option (List UInt8)) (additionalBytes : ℤ) : Bool :=
  let neededMb := additionalBytes.tdiv (1024 * 1024) + 1
  decide (neededMb + g.safetyMb < g.realFreeMb file)

/-- `kv_per_token_bytes`. -/
def ModelConfig.kvPerTokenBytes (cfg : ModelConfig) (kvTypeBytes : ℤ) : ℤ :=
  2 * cfg.nLayers.toInt * cfg.nKvHeads.toInt * cfg.headDim.toInt * kvTypeBytes

/-- `check_memory_and_thermal`, which only waits where the board is hot. -/
def checkMemory (cfg : ModelConfig) (kvInt8 : Bool) (file : Option (List UInt8)) : Bool :=
  OomGuard.canExtend ⟨256⟩ file (cfg.kvPerTokenBytes (if kvInt8 then 1 else 2))

end JLLM
