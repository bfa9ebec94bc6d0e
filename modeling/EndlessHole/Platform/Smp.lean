import EndlessHole.Platform.Cpu
import EndlessHole.Platform.DeviceTree.Grammar

/-!
# Starting the cores through PSCI

`Psci` of `kernel/src/psci.rs`, the kernel's `PowerManager`, and `init_smp` of
`kernel/src/main.rs`, which reads it from the device tree and boots the cores with it.

`Psci::in_device_tree` walks the properties of `/psci`: `method` names the instruction that calls
the firmware, `smc` or `hvc`, and `cpu_on` the function id of `CPU_ON`, with the id of the
specification when it is missing. `start_core` makes the `CPU_ON` call and maps the firmware's
answer to a result. The firmware is not part of the kernel: it is a parameter, a function of its
state and of the call (the calling method and the registers `w0` to `x3`) that returns the `w0`
it answers and its state after.

* `initSmp_spec`: when `init_smp` does not panic, the firmware was called once for each
  secondary core, in order, with the calling method and the `CPU_ON` id of the device tree, the
  core's id, the entry point and the top of a fresh stack, no two stacks overlapping. It rests on
  `bootAllCores_spec`, read through the firmware's log (`Psci.powerManager_logs`).
-/

namespace EndlessHole.Platform

open Bytes Memory

/-- `CallingMethod`: the instruction that calls the firmware. -/
inductive CallingMethod where
  | smc
  | hvc
  deriving DecidableEq, Repr

/-- `FUNC_ID_CPU_ON`. -/
def funcIdCpuOn : Nat := 0xC400_0003

/-- `Psci`. -/
structure Psci where
  callingMethod : CallingMethod
  funcIdCpuOn : Nat
  deriving DecidableEq, Repr

/-- `psci_error_code_to_result`, on the error codes of section 5.2.2 of the PSCI
specification. -/
def psciErrorCodeToResult (result : Int) : Except PowerManagerError Unit :=
  if result = 0 then .ok ()
  else if result = -2 then .error .invalidCoreId
  else if result = -4 then .error .alreadyOn
  else if result = -5 then .error .pending
  else if result = -9 then .error .invalidAddress
  else .error .internal

/-! ## The interface in the device tree -/

section DeviceTree

variable (readU32 : List UInt8 → Option Nat)

/-- The body of the `for` loop of `Psci::in_device_tree` over the properties of `/psci`: `method`
sets the calling method, or unsets it when it is neither `smc` nor `hvc`; `cpu_on` sets the
function id of `CPU_ON`. -/
def psciStep (found : Option CallingMethod × Option Nat) (property : List UInt8 × Value) :
    Except (Fault ParseError) (Option CallingMethod × Option Nat) :=
  let (name, value) := property
  if name = ascii "method" then do
    let method ← (value.asBytes name).mapError .error
    let callingMethod :=
      if method = ascii "smc" ++ [0] then some .smc
      else if method = ascii "hvc" ++ [0] then some .hvc
      else none
    pure (callingMethod, found.2)
  else if name = ascii "cpu_on" then do
    let bytes ← (value.asBytes name).mapError .error
    let id ← (FlattenedTreeIter.readAt readU32 bytes).mapError Fault.widen
    pure (found.1, some id)
  else pure found

/-- The `Psci` of the calling method and the function id the loop found. -/
def psciOf (found : Option CallingMethod × Option Nat) : Except (Fault ParseError) Psci := do
  let some callingMethod := found.1 | .error (.error (.propertyNotFound "method"))
  pure ⟨callingMethod, found.2.getD Platform.funcIdCpuOn⟩

/-- `Psci::in_device_tree`. -/
def Psci.inDeviceTree (dt : DeviceTree) : Except (Fault ParseError) Psci := do
  match ← (iterNodeProperties readU32 dt (ascii "/psci")).mapError Fault.widen with
  | none => .error (.error (.nodeNotFound "/psci"))
  | some props =>
    NodePropertyIter.forLoop readU32 (psciStep readU32) props (none, none) >>= psciOf

end DeviceTree

/-! ## Starting a core -/

/-- A call of the firmware: the instruction it is made with, and the registers `w0` to `x3`. -/
structure FirmwareCall where
  callingMethod : CallingMethod
  w0 : Nat
  x1 : Nat
  x2 : Nat
  x3 : Nat
  deriving DecidableEq, Repr

section Firmware

variable {φ : Type} (firmware : φ → FirmwareCall → Int × φ)

/-- `Psci` as a `PowerManager`: `start_core` calls `CPU_ON` with the target core in `x1`, the
entry point in `x2` and the argument in `x3`, and maps the answer in `w0` to a result. -/
def Psci.powerManager (psci : Psci) : PowerManager φ where
  startCore st targetCpu entryPointAddress arg :=
    let (result, st') :=
      firmware st ⟨psci.callingMethod, psci.funcIdCpuOn, targetCpu, entryPointAddress, arg⟩
    (psciErrorCodeToResult result).map fun _ => st'
  enableMethodName := ascii "psci" ++ [0]

/-- `log st` lists the calls the firmware in state `st` has taken. -/
def FirmwareLogs (log : φ → List FirmwareCall) : Prop :=
  ∀ st call, log (firmware st call).2 = log st ++ [call]

variable {firmware}

theorem Psci.startCore_eq_ok {psci : Psci} {st st' : φ} {targetCpu entry arg : Nat}
    (h : (psci.powerManager firmware).startCore st targetCpu entry arg = .ok st') :
    st' = (firmware st ⟨psci.callingMethod, psci.funcIdCpuOn, targetCpu, entry, arg⟩).2 := by
  simp only [Psci.powerManager] at h
  cases hres : psciErrorCodeToResult
      (firmware st ⟨psci.callingMethod, psci.funcIdCpuOn, targetCpu, entry, arg⟩).1 with
  | error e =>
    rw [hres] at h
    cases h
  | ok u =>
    rw [hres] at h
    cases h
    rfl

/-- `start_core` of `Psci` is seen in the firmware's log: the core, the entry point and the
argument of each call. -/
theorem Psci.powerManager_logs {log : φ → List FirmwareCall} (hfw : FirmwareLogs firmware log)
    (psci : Psci) :
    (psci.powerManager firmware).Logs fun st => (log st).map fun c => (c.x1, c.x2, c.x3) := by
  intro st target entry arg st' h
  dsimp only
  rw [Psci.startCore_eq_ok h, hfw, List.map_append, List.map_singleton]

theorem Psci.bootAllCores_calls {σ : Type} {log : φ → List FirmwareCall}
    (hfw : FirmwareLogs firmware log) {psci : Psci} {entryPointAddress : Nat} {P : PageAllocator σ}
    {cores : List CoreInfo} {st st' : φ} {s s' : σ}
    (h : bootAllCores (psci.powerManager firmware) entryPointAddress P cores st s = .ok (st', s')) :
    ∃ calls, log st' = log st ++ calls ∧
      ∀ c ∈ calls, c.callingMethod = psci.callingMethod ∧ c.w0 = psci.funcIdCpuOn := by
  refine bootAllCores_invariant (I := fun st₁ => ∃ calls, log st₁ = log st ++ calls ∧
    ∀ c ∈ calls, c.callingMethod = psci.callingMethod ∧ c.w0 = psci.funcIdCpuOn) ?_
    ⟨[], by simp, by simp⟩ h
  rintro st₁ target entry arg st₂ ⟨calls, hlog, hcalls⟩ hstart
  refine ⟨calls ++ [⟨psci.callingMethod, psci.funcIdCpuOn, target, entry, arg⟩], ?_, ?_⟩
  · rw [Psci.startCore_eq_ok hstart, hfw, hlog, List.append_assoc]
  · simp only [List.mem_append, List.mem_singleton]
    rintro c (hc | rfl)
    · exact hcalls c hc
    · exact ⟨rfl, rfl⟩

end Firmware

/-! ## `init_smp` -/

section InitSmp

variable {φ σ : Type} (readU32 : List UInt8 → Option Nat) (firmware : φ → FirmwareCall → Int × φ)

/-- `init_smp`: the PSCI interface the device tree describes, then `boot_all_cores` through it;
each `expect` panics on an error. -/
def initSmp (dt : DeviceTree) (cores : List CoreInfo) (entryPointAddress : Nat)
    (P : PageAllocator σ) (st : φ) (s : σ) : Except (Fault Empty) (φ × σ) := do
  let power ← Fault.expect (Psci.inDeviceTree readU32 dt)
  Fault.expect (bootAllCores (power.powerManager firmware) entryPointAddress P cores st s)

variable {readU32 firmware}

/-- When `init_smp` does not panic, the firmware was called once for each secondary core, in
order, with the calling method and the `CPU_ON` id of the device tree, the core's id, the entry
point and the top of its stack: a stack the page allocator handed out during the run, no two of
them overlapping. -/
theorem initSmp_spec {log : φ → List FirmwareCall} {used : σ → Set Nat}
    (hfw : FirmwareLogs firmware log) {P : PageAllocator σ}
    (hP : HeapAllocator.GrantsFreshPages P used)
    (hbelow : ∀ {s n a s'}, P.allocate s n = .ok (a, s') → a + n * P.pageSize.bytes < 2 ^ 48)
    {dt : DeviceTree} {cores : List CoreInfo} {entryPointAddress : Nat} {st st' : φ} {s s' : σ}
    (h : initSmp readU32 firmware dt cores entryPointAddress P st s = .ok (st', s')) :
    ∃ psci, Psci.inDeviceTree readU32 dt = .ok psci ∧
      (∀ c ∈ cores, c.enableMethod = ascii "psci" ++ [0]) ∧
      ∃ calls, log st' = log st ++ calls ∧
        (∀ c ∈ calls, c.callingMethod = psci.callingMethod ∧ c.w0 = psci.funcIdCpuOn) ∧
        StartsOnFreshStacks entryPointAddress used cores s s' (calls.map fun c => (c.x1, c.x2, c.x3)) := by
  obtain ⟨psci, hpsci, h⟩ := Fault.bind_eq_ok.1 h
  rw [Fault.expect_eq_ok] at hpsci h
  obtain ⟨calls, hlog, hcpuOn⟩ := Psci.bootAllCores_calls hfw h
  obtain ⟨hmethods, started, hstarted, hstarts⟩ :=
    bootAllCores_spec (Psci.powerManager_logs hfw psci) hP hbelow h
  have hcalls : calls.map (fun c => (c.x1, c.x2, c.x3)) = started := by
    rw [hlog, List.map_append] at hstarted
    exact List.append_cancel_left hstarted
  exact ⟨psci, hpsci, hmethods, calls, hlog, hcpuOn, hcalls ▸ hstarts⟩

end InitSmp

/-! ## Two cores, booted through `hvc` -/

/-- `/ { psci { method = "hvc"; }; }`. -/
def psciTree : Fdt.Node :=
  .mk [] [] [.mk (ascii "psci") [⟨ascii "method", 0, ascii "hvc" ++ [0]⟩] []]

/-- A device tree holding `psciTree`, with the property name `method`. -/
def psciTreeBlob : DeviceTree :=
  ⟨Fdt.encodeBlocks ((psciTree.items ++ [Fdt.Item.end]).map (⟨0, ·⟩)), ascii "method" ++ [0]⟩

/-- Firmware that answers every call with success and keeps the calls. -/
def firmwareLog (calls : List FirmwareCall) (call : FirmwareCall) : Int × List FirmwareCall :=
  (0, calls ++ [call])

/-- The boot core `0` and the core `1`, with pages handed out in order from `0x10_0000`: core `1`
is started through `hvc` on the 4 MiB of stack from there. -/
theorem initSmp_spec_two_cores :
    FirmwareLogs firmwareLog id ∧
      HeapAllocator.GrantsFreshPages (HeapAllocator.bumpPages 0x10_0000 4096)
        (HeapAllocator.bumpUsed 0x10_0000) ∧
      (∀ {s n a s'}, (HeapAllocator.bumpPages 0x10_0000 4096).allocate s n = .ok (a, s') →
        a + n * (HeapAllocator.bumpPages 0x10_0000 4096).pageSize.bytes < 2 ^ 48) ∧
      initSmp readU32BE firmwareLog psciTreeBlob [⟨0, ascii "psci" ++ [0]⟩, ⟨1, ascii "psci" ++ [0]⟩]
          0xbeef_feed (HeapAllocator.bumpPages 0x10_0000 4096) [] 0 =
        .ok ([⟨.hvc, 0xC400_0003, 1, 0xbeef_feed, 0xffff_0000_0050_0000⟩], 1024) ∧
      ∃ psci, Psci.inDeviceTree readU32BE psciTreeBlob = .ok psci ∧
        (∀ c ∈ [(⟨0, ascii "psci" ++ [0]⟩ : CoreInfo), ⟨1, ascii "psci" ++ [0]⟩],
          c.enableMethod = ascii "psci" ++ [0]) ∧
        ∃ calls : List FirmwareCall,
          id [⟨.hvc, 0xC400_0003, 1, 0xbeef_feed, 0xffff_0000_0050_0000⟩] = id [] ++ calls ∧
          (∀ c ∈ calls, c.callingMethod = psci.callingMethod ∧ c.w0 = psci.funcIdCpuOn) ∧
          StartsOnFreshStacks 0xbeef_feed (HeapAllocator.bumpUsed 0x10_0000)
            [⟨0, ascii "psci" ++ [0]⟩, ⟨1, ascii "psci" ++ [0]⟩] 0 1024
            (calls.map fun c => (c.x1, c.x2, c.x3)) := by
  have hfw : FirmwareLogs firmwareLog id := fun _ _ => rfl
  have hP := @HeapAllocator.bumpPages_grantsFreshPages 0x10_0000 4096 (by decide) (by decide)
  have hbelow : ∀ {s n a s'}, (HeapAllocator.bumpPages 0x10_0000 4096).allocate s n = .ok (a, s') →
      a + n * (HeapAllocator.bumpPages 0x10_0000 4096).pageSize.bytes < 2 ^ 48 :=
    fun h => bumpPages_below (by decide) h
  have hrun : initSmp readU32BE firmwareLog psciTreeBlob
      [⟨0, ascii "psci" ++ [0]⟩, ⟨1, ascii "psci" ++ [0]⟩] 0xbeef_feed
      (HeapAllocator.bumpPages 0x10_0000 4096) [] 0 =
        .ok ([⟨.hvc, 0xC400_0003, 1, 0xbeef_feed, 0xffff_0000_0050_0000⟩], 1024) := by
    decide +kernel
  exact ⟨hfw, hP, hbelow, hrun, initSmp_spec hfw hP hbelow hrun⟩

end EndlessHole.Platform
