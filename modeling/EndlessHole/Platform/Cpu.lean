import EndlessHole.Platform.DeviceTree.Lookup
import EndlessHole.Memory.HeapInvariant

/-!
# Bringing up the secondary cores

`boot_all_cores` of `kernel_core/src/platform/cpu.rs`: for each core the device tree lists, check
that its `enable-method` is the power manager's, and unless it is the boot core (id `0`),
allocate a stack of 4 MiB for it and ask the power manager to start it at the entry point with
the top of the stack, as a kernel pointer, as its argument. The first failure ends the loop.

The power manager and the page allocator are traits; each is a parameter over the state of an
implementation. What a run does to the power manager is seen through `PowerManager.Logs`, a log
of the cores it was asked to start.

* `bootAllCores_spec`: a run that returns `Ok` checked every core's enable method, and started
  exactly the secondary cores, in order, at the entry point, each on a stack that the page
  allocator handed out during the run, no two of them overlapping.
-/

namespace EndlessHole.Platform

open Memory

/-- `PowerManagerError`. -/
inductive PowerManagerError where
  | invalidCoreId
  | invalidAddress
  | alreadyOn
  | pending
  | internal
  deriving DecidableEq, Repr

/-- The `PowerManager` trait over the state `ρ` of an implementation. -/
structure PowerManager (ρ : Type) where
  startCore : ρ → Nat → Nat → Nat → Except PowerManagerError ρ
  enableMethodName : List UInt8

/-- `BootAllCoresError`; the unsupported method is kept as its bytes. -/
inductive BootAllCoresError where
  | unsupportedEnableMethod (method : List UInt8)
  | power (source : PowerManagerError)
  | memory (source : Memory.Error)
  deriving DecidableEq, Repr

/-- `CoreInfo`: a core of the device tree, with its id and its `enable-method`. -/
structure CoreInfo where
  id : Nat
  enableMethod : List UInt8
  deriving DecidableEq, Repr

/-- The size of the stack of a secondary core. -/
def stackSize : Nat := 4 * 1024 * 1024

/-! ## Listing the cores -/

section List

open Bytes

variable (readU32 : List UInt8 → Option Nat)

/-- The body of the inner `for` loop of `list_cores`, on the id and the enable method found so
far: an `enable-method` property sets the method, a `reg` property the id, the address of its
first register. -/
def coreStep (found : Option Nat × Option (List UInt8)) (property : List UInt8 × Value) :
    Except (Fault ParseError) (Option Nat × Option (List UInt8)) :=
  let (name, value) := property
  if name = ascii "enable-method" then do
    let enableMethod ← (value.asBytes name).mapError .error
    pure (found.1, some enableMethod)
  else if name = ascii "reg" then do
    let ids ← (value.asReg name).mapError .error
    match (← (RegistersIter.next readU32 ids.iter).mapError Fault.widen).1 with
    | some (id, _) => pure (some id, found.2)
    | none => .error (.error (.propertyNotFound "reg"))
  else pure found

/-- The inner `for` loop of `list_cores`, over the properties of a CPU node. -/
def coreProperties (props : NodePropertyIter) (found : Option Nat × Option (List UInt8)) :
    Except (Fault ParseError) (Option Nat × Option (List UInt8)) :=
  NodePropertyIter.forLoop readU32 (coreStep readU32) props found

/-- The `CoreInfo` of the id and the enable method the inner loop found. -/
def coreInfoOf (found : Option Nat × Option (List UInt8)) : Except (Fault ParseError) CoreInfo := do
  let some cpuId := found.1 | .error (.error (.propertyNotFound "reg"))
  let some enableMethod := found.2 | .error (.error (.propertyNotFound "enable-method"))
  pure ⟨cpuId, enableMethod⟩

/-- The body of the outer `for` loop of `list_cores`: push the core of a CPU node. -/
def pushCore (cpus : List CoreInfo) (cpuNode : NodeItem) :
    Except (Fault ParseError) (List CoreInfo) := do
  let core ← coreProperties readU32 cpuNode.properties (none, none) >>= coreInfoOf
  pure (cpus ++ [core])

/-- The outer `for` loop of `list_cores`, over the CPU nodes. -/
def listCoresLoop (cpuNodes : NodesNamedIter) (cpus : List CoreInfo) :
    Except (Fault ParseError) (List CoreInfo) :=
  NodesNamedIter.forLoop readU32 (pushCore readU32) cpuNodes cpus

/-- `list_cores`: the cores of the `cpu` nodes under `/cpus`. -/
def listCores (dt : DeviceTree) : Except (Fault ParseError) (List CoreInfo) := do
  match ← (iterNodesNamed readU32 dt (ascii "/cpus") (ascii "cpu")).mapError Fault.widen with
  | none => .error (.error (.nodeNotFound "/cpus/cpu*"))
  | some cpuNodes => listCoresLoop readU32 cpuNodes []

end List

section Boot

variable {ρ σ : Type} (power : PowerManager ρ) (entryPointAddress : Nat) (P : PageAllocator σ)

/-- `boot_all_cores`, from the states of the power manager and of the page allocator. -/
def bootAllCores : List CoreInfo → ρ → σ → Except BootAllCoresError (ρ × σ)
  | [], pm, s => .ok (pm, s)
  | ⟨id, enableMethod⟩ :: cores, pm, s =>
    if enableMethod ≠ power.enableMethodName then .error (.unsupportedEnableMethod enableMethod)
    -- the boot core is the one running this loop
    else if id = 0 then bootAllCores cores pm s
    else do
      let (pages, s) ← (P.allocate s (stackSize / P.pageSize.bytes)).mapError .memory
      let stack := PhysicalAddress.toPtr (pages + stackSize)
      let pm ← (power.startCore pm id entryPointAddress stack).mapError .power
      bootAllCores cores pm s

/-- The stack below the top `top`. -/
def stackRegion (top : Nat) : Set Nat := Set.Ico (top - stackSize) top

/-- `log pm` lists the calls of `start_core` the power manager in state `pm` has taken: one that
succeeds appends its core, entry point and argument. -/
def PowerManager.Logs (log : ρ → List (Nat × Nat × Nat)) : Prop :=
  ∀ {pm target entry arg pm'}, power.startCore pm target entry arg = .ok pm' →
    log pm' = log pm ++ [(target, entry, arg)]

/-- What a run has asked the power manager to do, `started` being the calls of `start_core` in
order, with `used s` the memory the page allocator in state `s` has handed out: start each
secondary core of `cores` at the entry point, on a stack handed out during the run, the stacks
not overlapping. -/
structure StartsOnFreshStacks (used : σ → Set Nat) (cores : List CoreInfo) (s s' : σ)
    (started : List (Nat × Nat × Nat)) : Prop where
  ids : started.map (·.1) = (cores.filter (·.id ≠ 0)).map (·.id)
  entry : ∀ x ∈ started, x.2.1 = entryPointAddress
  disjoint : Regions.PairwiseDisjoint (fun x => stackRegion x.2.2) started
  fresh : ∀ x ∈ started, Disjoint (stackRegion x.2.2) (used s)
  handedOut : ∀ x ∈ started, stackRegion x.2.2 ⊆ used s'
  mono : used s ⊆ used s'

variable {power entryPointAddress P}

theorem stackSize_div_mul (p : PageSize) : stackSize / p.bytes * p.bytes = stackSize := by
  cases p <;> rfl

/-- The stack of a core is the allocation it was given, as kernel pointers, when the allocation
lies in the 48 bits of a physical address. -/
theorem stackRegion_toPtr {pages : Nat} (h : pages + stackSize < 2 ^ 48) :
    stackRegion (PhysicalAddress.toPtr (pages + stackSize)) =
      Set.Ico (PhysicalAddress.toPtr pages) (PhysicalAddress.toPtr pages + stackSize) := by
  have hbottom : kernelTag + (pages + stackSize) - stackSize = kernelTag + pages := by omega
  rw [stackRegion, PhysicalAddress.toPtr_of_lt h, PhysicalAddress.toPtr_of_lt (by omega), hbottom,
    Nat.add_assoc]

theorem StartsOnFreshStacks.nil {used : σ → Set Nat} {s : σ} (cores : List CoreInfo)
    (h : ∀ c ∈ cores, c.id = 0) : StartsOnFreshStacks entryPointAddress used cores s s [] := by
  refine ⟨?_, by simp, List.Pairwise.nil, by simp, by simp, le_refl _⟩
  rw [List.filter_eq_nil_iff.2 (by simpa using h)]
  rfl

theorem StartsOnFreshStacks.cons {used : σ → Set Nat} {cores : List CoreInfo} {s s₁ s' : σ}
    {started : List (Nat × Nat × Nat)} {id top : Nat} {enableMethod : List UInt8} (hid : id ≠ 0)
    (hfresh : Disjoint (stackRegion top) (used s)) (hrecords : used s ∪ stackRegion top ⊆ used s₁)
    (h : StartsOnFreshStacks entryPointAddress used cores s₁ s' started) :
    StartsOnFreshStacks entryPointAddress used (⟨id, enableMethod⟩ :: cores) s s'
      ((id, entryPointAddress, top) :: started) := by
  have hmono : used s ⊆ used s₁ := Set.subset_union_left.trans hrecords
  have hmine : stackRegion top ⊆ used s₁ := Set.subset_union_right.trans hrecords
  refine ⟨?_, ?_, ?_, ?_, ?_, hmono.trans h.mono⟩
  · simp [hid, h.ids]
  · simpa using h.entry
  · -- the later stacks are fresh after this one was handed out
    refine List.pairwise_cons.2 ⟨fun x hx => ?_, h.disjoint⟩
    exact ((h.fresh x hx).mono_right hmine).symm
  · simp only [List.mem_cons, forall_eq_or_imp]
    exact ⟨hfresh, fun x hx => (h.fresh x hx).mono_right hmono⟩
  · simp only [List.mem_cons, forall_eq_or_imp]
    exact ⟨hmine.trans h.mono, h.handedOut⟩

theorem StartsOnFreshStacks.skip {used : σ → Set Nat} {cores : List CoreInfo} {s s' : σ}
    {started : List (Nat × Nat × Nat)} {enableMethod : List UInt8}
    (h : StartsOnFreshStacks entryPointAddress used cores s s' started) :
    StartsOnFreshStacks entryPointAddress used (⟨0, enableMethod⟩ :: cores) s s' started :=
  ⟨by simpa [List.filter_cons] using h.ids, h.entry, h.disjoint, h.fresh, h.handedOut, h.mono⟩

/-- A run that returns `Ok` checked every core's enable method, and asked the power manager to
start exactly the secondary cores, in order, at the entry point, each on its own fresh stack;
for a page allocator that hands out fresh pages below `2 ^ 48`. -/
theorem bootAllCores_spec {log : ρ → List (Nat × Nat × Nat)} {used : σ → Set Nat}
    (hlog : power.Logs log) (hP : HeapAllocator.GrantsFreshPages P used)
    (hbelow : ∀ {s n a s'}, P.allocate s n = .ok (a, s') → a + n * P.pageSize.bytes < 2 ^ 48)
    {cores : List CoreInfo} {pm pm' : ρ} {s s' : σ}
    (h : bootAllCores power entryPointAddress P cores pm s = .ok (pm', s')) :
    (∀ c ∈ cores, c.enableMethod = power.enableMethodName) ∧
      ∃ started, log pm' = log pm ++ started ∧
        StartsOnFreshStacks entryPointAddress used cores s s' started := by
  induction cores generalizing pm s with
  | nil =>
    cases h
    exact ⟨by simp, [], by simp, StartsOnFreshStacks.nil [] (by simp)⟩
  | cons c cores ih =>
    obtain ⟨id, enableMethod⟩ := c
    rw [bootAllCores] at h
    split_ifs at h with hmethod hid <;> rw [not_ne_iff] at hmethod
    · -- the boot core
      obtain ⟨hmethods, started, hlog', hstarts⟩ := ih h
      subst hid
      refine ⟨?_, started, hlog', hstarts.skip⟩
      simpa [hmethod] using hmethods
    · -- a secondary core: its stack, then the rest of the run
      obtain ⟨⟨pages, s₁⟩, halloc, h⟩ := Fault.bind_eq_ok.1 h
      obtain ⟨pm₁, hstart, h⟩ := Fault.bind_eq_ok.1 h
      have halloc' : P.allocate s (stackSize / P.pageSize.bytes) = .ok (pages, s₁) := by
        simpa using halloc
      have hstart' : power.startCore pm id entryPointAddress
          (PhysicalAddress.toPtr (pages + stackSize)) = .ok pm₁ := by
        simpa using hstart
      have hsize := stackSize_div_mul P.pageSize
      have hregion := stackRegion_toPtr (hsize ▸ hbelow halloc')
      have hfresh := hP.fresh halloc'
      have hrecords := hP.records halloc'
      rw [hsize, ← hregion] at hfresh hrecords
      obtain ⟨hmethods, started, hlog', hstarts⟩ := ih h
      refine ⟨?_, _, ?_, hstarts.cons hid hfresh hrecords⟩
      · simpa [hmethod] using hmethods
      · rw [hlog', hlog hstart', List.append_assoc, List.singleton_append]

theorem bootAllCores_invariant {I : ρ → Prop}
    (hI : ∀ {pm target entry arg pm'}, I pm → power.startCore pm target entry arg = .ok pm' → I pm')
    {cores : List CoreInfo} {pm pm' : ρ} {s s' : σ} (hpm : I pm)
    (h : bootAllCores power entryPointAddress P cores pm s = .ok (pm', s')) : I pm' := by
  induction cores generalizing pm s with
  | nil =>
    cases h
    exact hpm
  | cons c cores ih =>
    obtain ⟨id, enableMethod⟩ := c
    rw [bootAllCores] at h
    split_ifs at h with hmethod hid
    · exact ih hpm h
    · obtain ⟨⟨pages, s₁⟩, -, h⟩ := Fault.bind_eq_ok.1 h
      obtain ⟨pm₁, hstart, h⟩ := Fault.bind_eq_ok.1 h
      exact ih (hI hpm (Fault.mapError_eq_ok.1 hstart)) h

/-! ## With the tests' power manager and fresh pages -/

/-- A power manager that starts every core it is asked to and keeps the calls, as the tests'
`MockPowerManager` does. -/
def PowerManager.recorder (enableMethodName : List UInt8) :
    PowerManager (List (Nat × Nat × Nat)) where
  startCore calls target entry arg := .ok (calls ++ [(target, entry, arg)])
  enableMethodName := enableMethodName

theorem bumpPages_below {base limit s n a s' : Nat} (hlimit : base + limit * 0x1000 < 2 ^ 48)
    (h : (HeapAllocator.bumpPages base limit).allocate s n = .ok (a, s')) :
    a + n * (HeapAllocator.bumpPages base limit).pageSize.bytes < 2 ^ 48 := by
  obtain ⟨hle, rfl, rfl⟩ := HeapAllocator.bumpPages_allocate h
  show base + s * 0x1000 + n * 0x1000 < 2 ^ 48
  omega

/-- Three cores: the two secondary ones are started on the stacks of 4 MiB one after the
other. -/
example : bootAllCores (PowerManager.recorder (Bytes.ascii "psci" ++ [0])) 0xbeef_feed
      (HeapAllocator.bumpPages 0x10_0000 4096)
      [⟨0, Bytes.ascii "psci" ++ [0]⟩, ⟨1, Bytes.ascii "psci" ++ [0]⟩,
        ⟨2, Bytes.ascii "psci" ++ [0]⟩] [] 0 =
    .ok ([(1, 0xbeef_feed, 0xffff_0000_0050_0000), (2, 0xbeef_feed, 0xffff_0000_0090_0000)],
      2048) := by
  decide +kernel

end Boot

end EndlessHole.Platform
