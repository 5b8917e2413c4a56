import Novium.Cluster
import Novium.ControlState
import Novium.Lockstep
import Novium.RunFast
import Novium.ThrowingSteps

namespace Novium
open Storage Effects Relation
variable {h : Host} {m m' : Machine} {i : Instruction} {addr : Word} {ram : ByteStore}

-- Enough RAM for the last unaligned word of the window.
def sharedRamBytes : Nat := 0x01000003

def windowOffset (addr : Word) : Nat := (addr-0x80000000).toNat

theorem windowOffset_room (window : SharedWindow addr) (room : sharedRamBytes ≤ ram.size) : windowOffset addr+4 ≤ ram.size := by
  obtain ⟨low,high⟩ := window
  have small : (addr-0x80000000).toNat = addr.toNat-0x80000000 := BitVec.toNat_sub_of_le low
  have below : addr.toNat < 0x81000000 := high
  unfold windowOffset sharedRamBytes at *
  omega

namespace Bus

-- The window's handlers do not check the size of the RAM behind it.
theorem read32_window (window : SharedWindow addr) (shared : m.shared = some ram) :
    read32 addr m = if windowOffset addr+4 ≤ ram.size then .ok (ram.word (windowOffset addr)) m else .undefined .outOfBounds := by
  have device := deviceAt_window (m := m) window (by rw [shared]; rfl)
  unfold read32 windowOffset
  rw [Exec.bind_ok (Exec.get_apply m),device]
  dsimp only
  rw [shared]
  dsimp only
  rw [Exec.ite_apply]
  rfl

theorem write32_window (window : SharedWindow addr) (shared : m.shared = some ram) (value : Word) :
    write32 addr value m = if windowOffset addr+4 ≤ ram.size then
      .ok () {m with shared := some (ram.write (windowOffset addr) (wordBytes value))} else .undefined .outOfBounds := by
  have device := deviceAt_window (m := m) window (by rw [shared]; rfl)
  unfold write32 windowOffset
  rw [Exec.bind_ok (Exec.get_apply m),device]
  dsimp only
  rw [shared]
  dsimp only
  rw [Exec.ite_apply]
  rfl

end Bus

-- What can still be undefined about an access that reaches the window: a register
-- field out of range, or a fabric without a burst size.
def Unreached (why : Hazard) : Prop := why = .registerIndex ∨ why = .zeroBurst

section Accesses
open Handlers

theorem execute_window_load (opcode : i.opcode = some .load) (off : m.mmu.enabled = false) (va : m.dataVa i = some addr)
    (window : SharedWindow addr) (shared : m.shared = some ram) (room : sharedRamBytes ≤ ram.size) :
    (execute h i m).Sat (fun _ m' => m.regs.writeGpr i.rd.toNat (ram.word (windowOffset addr)) = some m'.regs) (fun _ _ => False)
      Unreached := by
  unfold execute
  rw [opcode]
  rw [Exec.sat_bind]
  apply sat_opLoad (.inl rfl) (.inr rfl)
  · intro va' _ failed
    rw [m.resolved_off off] at failed
    cases failed
  · intro va' addr' axi read translated
    cases va.symm.trans read
    rw [m.resolved_off off] at translated
    cases translated
    rw [Bus.read32_window (m := {m.afterResolve addr false with axi := axi}) window shared,
      if_pos (windowOffset_room window room),Outcome.sat_ok]
    exact fun r wrote => wrote

structure WindowStored (i : Instruction) (addr : Word) (ram : ByteStore) (m m' : Machine) : Prop where
  value : ∃ value, m.regs.readGpr i.rd.toNat = some value ∧ m'.shared = some (ram.write (windowOffset addr) (wordBytes value))
  scratchpad : m'.scratchpad = m.scratchpad
  mainRam : m'.mainRam = m.mainRam
  timer : m'.timer = m.timer
  uart : m'.uart = m.uart

theorem execute_window_store (opcode : i.opcode = some .store) (off : m.mmu.enabled = false) (va : m.dataVa i = some addr)
    (window : SharedWindow addr) (shared : m.shared = some ram) (room : sharedRamBytes ≤ ram.size) :
    (execute h i m).Sat (fun _ m' => WindowStored i addr ram m m') (fun _ _ => False) Unreached := by
  unfold execute
  rw [opcode]
  rw [Exec.sat_bind]
  apply sat_opStore (.inl rfl) (.inr rfl)
  · intro va' _ failed
    rw [m.resolved_off off] at failed
    cases failed
  · intro va' addr' value axi read translated found
    cases va.symm.trans read
    rw [m.resolved_off off] at translated
    cases translated
    rw [Bus.write32_window (m := {m.afterResolve addr true with axi := axi}) window shared,if_pos (windowOffset_room window room)]
    exact ⟨⟨value,found,rfl⟩,rfl,rfl,rfl,rfl⟩

end Accesses

def Machine.windowStore (m : Machine) : Option (Word × Word) :=
  match fetch (saveBefore m.deliverInterrupt) with
  | .ok i pre => do
    let addr ← pre.storesTo i
    let value ← pre.regs.readGpr i.rd.toNat
    if SharedWindow addr then some (addr,value) else none
  | _ => none

-- The byte last stored at an offset of the window, or the one it started with. The
-- stores are listed latest first.
def latest (initial : ByteStore) : List (Word × Word) → Nat → Byte
  | [],a => initial.byte a
  | (addr,value) :: earlier,a =>
    if windowOffset addr ≤ a ∧ a < windowOffset addr+4 then value.extractLsb' (8*(a-windowOffset addr)) 8
    else latest initial earlier a

theorem latest_append {initial : ByteStore} {stored : List (Word × Word)} (same : ∀ a, ram.byte a = latest initial stored a)
    (recent : List (Word × Word)) (a : Nat) : latest ram recent a = latest initial (recent ++ stored) a := by
  induction recent with
  | nil => exact same a
  | cons first rest ih =>
    obtain ⟨addr,value⟩ := first
    unfold latest
    rw [ih]
    rfl

theorem storesTo_off (off : m.mmu.enabled = false) : m.storesTo i = if i.opcode = some .store then m.dataVa i else none := by
  unfold Machine.storesTo
  simp only [m.resolved_off off]
  split
  · cases m.dataVa i <;> rfl
  · rfl

theorem window_kept (ram : ByteStore) : Kept (fun addr => ¬ SharedWindow addr) fun _ s => s = some ram :=
  ⟨fun holds _ => holds,fun holds _ => holds,fun _ _ outside found => absurd (window_of_deviceAt found) outside⟩

structure Fetched (m : Machine) (ram : ByteStore) (pre : Machine) : Prop where
  off : pre.mmu.enabled = false
  shared : pre.shared = some ram

theorem fetched_of {pre : Machine} (off : m.mmu.enabled = false) (shared : m.shared = some ram)
    (fetched : fetch (saveBefore m.deliverInterrupt) = .ok i pre) : Fetched m ram pre := by
  have window := fetched_keeps Machine.shared (fun _ _ _ _ _ _ _ _ => rfl) fetched
  exact ⟨(fetched_mmuKept fetched).1.trans off,window.trans shared⟩

structure Wrote (ram : ByteStore) (stored : List (Word × Word)) (shared : Option ByteStore) : Prop where
  ram : ∃ ram', shared = some ram' ∧ ram'.size = ram.size ∧ ∀ a, ram'.byte a = latest ram stored a

theorem Wrote.none (ram : ByteStore) : Wrote ram [] (some ram) := ⟨ram,rfl,rfl,fun _ => rfl⟩

theorem execute_window {pre : Machine} (ready : Fetched m ram pre) (room : sharedRamBytes ≤ ram.size)
    (fetched : fetch (saveBefore m.deliverInterrupt) = .ok i pre) :
    (execute h i pre).Sat (fun _ m' => Wrote ram m.windowStore.toList m'.shared) (fun _ m' => m.windowStore = none ∧ m'.shared = some ram)
      (fun _ => True) := by
  obtain ⟨off,shared⟩ := ready
  have due : m.windowStore = (pre.storesTo i).bind fun addr => (pre.regs.readGpr i.rd.toNat).bind fun value =>
      if SharedWindow addr then some (addr,value) else none := by
    unfold Machine.windowStore
    rw [fetched]
    rfl
  by_cases stores : ∃ addr, pre.storesTo i = some addr ∧ SharedWindow addr
  · obtain ⟨addr,target,window⟩ := stores
    rw [target,Option.bind_some] at due
    rw [storesTo_off off] at target
    split at target
    · rename_i opcode
      refine (execute_window_store opcode off target window shared room).mono ?_ (fun _ _ impossible => impossible.elim)
        (fun _ _ => trivial)
      intro cycles m' stored
      obtain ⟨value,found,after⟩ := stored.value
      rw [found,Option.bind_some,if_pos window] at due
      rw [due]
      exact ⟨_,after,rfl,ram.write_wordBytes_byte _ _⟩
    · cases target
  · have silent : m.windowStore = none := by
      rw [due]
      cases target : pre.storesTo i with
      | none => rfl
      | some addr =>
        cases pre.regs.readGpr i.rd.toNat with
        | none => rfl
        | some value => exact if_neg fun window => stores ⟨addr,target,window⟩
    have kept := kept_of_agree ((Keeping.lockstep (window_kept ram)).execute (i := i) h (.same shared) (fun _ _ => trivial)
      fun addr target window => stores ⟨addr,target,window⟩)
    rw [silent]
    refine kept.mono ?_ (fun _ _ same => ⟨rfl,same⟩) (fun _ _ => trivial)
    intro _ m' same
    rw [same]
    exact .none ram

theorem step_window (running : m.regs.halt = false) (off : m.mmu.enabled = false) (shared : m.shared = some ram)
    (room : sharedRamBytes ≤ ram.size) :
    (step h m).Sat (fun _ m' => Wrote ram m.windowStore.toList m'.shared) (fun _ m' => Wrote ram m.windowStore.toList m'.shared)
      (fun _ => True) := by
  have logged : ∀ pc i cycles (m : Machine), (logStep pc i cycles m.tickPeripherals).shared = m.shared := by
    intro pc i cycles m
    rw [Machine.logStep_keeps Machine.shared fun _ _ => rfl,Machine.tickPeripherals_keeps Machine.shared fun _ => rfl]
  have before : (saveBefore m.deliverInterrupt).shared = some ram := by
    rw [Machine.saveBefore_keeps Machine.shared fun _ _ _ => rfl,Machine.deliverInterrupt_keeps Machine.shared fun _ _ _ _ => rfl,shared]
  rw [step_running h running]
  unfold cycle
  simp only [Exec.sat_bind,Exec.get_apply,Outcome.sat_ok,Exec.modify_apply]
  cases fetched : fetch (saveBefore m.deliverInterrupt) with
  | undefined why => trivial
  | thrown err pre =>
    have effect := fetch_effect (saveBefore m.deliverInterrupt)
    rw [fetched] at effect
    cases effect
    have silent : m.windowStore = none := by
      unfold Machine.windowStore
      rw [fetched]
    rw [silent,Outcome.sat_thrown,before]
    exact .none ram
  | ok i pre =>
    rw [Outcome.sat_ok]
    refine (execute_window (fetched_of off shared fetched) room fetched).mono ?_ ?_ (fun _ _ => trivial)
    · intro cycles after wrote
      rw [logged]
      exact wrote
    · intro err after stopped
      rw [stopped.1,stopped.2]
      exact .none ram

-- The stores to the window in the order of the steps, kept beside the cluster.
inductive Shares (h : Host) : ClusterActivity × List (Word × Word) → ClusterActivity × List (Word × Word) → Prop where
  | move : ClusterMoves h a b → Shares h (a,stored) (b,(a.stepping.bind Machine.windowStore).toList ++ stored)

-- The cluster `d` agrees with the history of one that started with `initial` in the window.
structure Agrees (initial : ByteStore) (stored : List (Word × Word)) (d : Cluster) : Prop where
  off : ∀ m ∈ d.cores, m.mmu.enabled = false
  size : d.sharedRam.size = initial.size
  bytes : ∀ a, d.sharedRam.byte a = latest initial stored a

theorem Agrees.of_same {initial : ByteStore} {stored : List (Word × Word)} {d e : Cluster} (agrees : Agrees initial stored d)
    (cores : e.cores = d.cores) (ram : e.sharedRam = d.sharedRam) : Agrees initial stored e := by
  obtain ⟨off,size,bytes⟩ := agrees
  refine ⟨?_,?_,?_⟩
  · rw [cores]
    exact off
  · rw [ram]
    exact size
  · rw [ram]
    exact bytes

theorem Agrees.put {initial : ByteStore} {stored recent : List (Word × Word)} {d : Cluster} {j : Nat} (agrees : Agrees initial stored d)
    (off : m'.mmu.enabled = false) (wrote : Wrote d.sharedRam recent m'.shared) : Agrees initial (recent ++ stored) (d.put j m') := by
  obtain ⟨ram',shared,size,bytes⟩ := wrote
  have after : (d.put j m').sharedRam = ram' := by
    unfold Cluster.put
    rw [shared]
    rfl
  refine ⟨?_,?_,?_⟩
  · intro n listed
    rcases List.mem_or_eq_of_mem_set listed with earlier | rfl
    · exact agrees.off n earlier
    · exact off
  · rw [after,size,agrees.size]
  · intro a
    rw [after,bytes,latest_append agrees.bytes]

theorem Shares.agrees {c : Cluster} {a b : ClusterActivity} {stored stored' : List (Word × Word)} (room : sharedRamBytes ≤ c.sharedRam.size)
    (share : Shares h (a,stored) (b,stored')) (before : ∀ d, a.cluster = some d → Agrees c.sharedRam stored d) :
    ∀ d, b.cluster = some d → Agrees c.sharedRam stored' d := by
  intro d after
  cases share with
  | move moves =>
    obtain ⟨e,shown,deed⟩ := moves.cores after
    have agrees := before e shown
    have large : sharedRamBytes ≤ e.sharedRam.size := by rw [agrees.size]; exact room
    have window := fun (m : Machine) (running : m.regs.halt = false) (off : m.mmu.enabled = false) =>
      step_window (h := h) (m := m.attach e.sharedRam) running off rfl large
    generalize a.stepping = due at deed
    cases deed with
    | still cores ram => exact agrees.of_same cores ram
    | @stepped m m' j here running ran put =>
      have off := agrees.off m (List.mem_of_getElem? here)
      have wrote := window m running off
      rw [ran] at wrote
      rw [put]
      exact agrees.put ((Stepped.returned ran).mmuKept.1.trans off) wrote
    | @threw m err m' j here running ran put =>
      have off := agrees.off m (List.mem_of_getElem? here)
      have wrote := window m running off
      rw [ran] at wrote
      rw [put]
      exact agrees.put ((Stepped.thrown ran).mmuKept.1.trans off) wrote

theorem shares_agree {c : Cluster} {a : ClusterActivity} {stored : List (Word × Word)} (room : sharedRamBytes ≤ c.sharedRam.size)
    (off : ∀ m ∈ c.cores, m.mmu.enabled = false) (path : ReflTransGen (Shares h) (.idle c,[]) (a,stored)) :
    ∀ d, a.cluster = some d → Agrees c.sharedRam stored d := by
  generalize reached : (a,stored) = last at path
  induction path generalizing a stored with
  | refl =>
    cases reached
    intro d here
    cases here
    exact ⟨off,rfl,fun _ => rfl⟩
  | @tail mid last path share ih =>
    obtain ⟨b,earlier⟩ := mid
    cases reached
    exact share.agrees room (ih rfl)

theorem sat_step_fetched {pre : Machine} {Q : Machine → Prop} {E : EmulatorError → Machine → Prop} {U : Hazard → Prop}
    (running : m.regs.halt = false) (fetched : fetch (saveBefore m.deliverInterrupt) = .ok i pre)
    (executed : (execute h i pre).Sat (fun cycles after => Q (logStep m.deliverInterrupt.regs.pc i cycles after.tickPeripherals)) E U) :
    (step h m).Sat (fun _ => Q) E U := by
  rw [step_running h running]
  unfold cycle
  simp only [Exec.sat_bind,Exec.get_apply,Outcome.sat_ok,Exec.modify_apply,fetched]
  exact executed

-- The memories and the bus devices a core has to itself.
def Machine.belongings (m : Machine) : ByteStore × ByteStore × UartDevice × TimerDevice := (m.scratchpad,m.mainRam,m.uart,m.timer)

structure StoreStep (i : Instruction) (addr : Word) (ram : ByteStore) (m pre m' : Machine) : Prop where
  value : ∃ value, pre.regs.readGpr i.rd.toNat = some value ∧ m'.shared = some (ram.write (windowOffset addr) (wordBytes value))
  scratchpad : m'.scratchpad = m.scratchpad
  mainRam : m'.mainRam = m.mainRam
  uart : m'.uart = m.uart
  -- the time that passes is all the timer sees
  timer : ∃ after : Machine, after.timer = m.timer ∧ m'.timer = after.tickPeripherals.timer

section Steps
variable {pre : Machine} (running : m.regs.halt = false) (off : m.mmu.enabled = false) (shared : m.shared = some ram)
  (room : sharedRamBytes ≤ ram.size) (fetched : fetch (saveBefore m.deliverInterrupt) = .ok i pre) (va : pre.dataVa i = some addr)
  (window : SharedWindow addr)
include running off shared room fetched va window

theorem step_window_load (opcode : i.opcode = some .load) :
    (step h m).Sat (fun _ m' => pre.regs.writeGpr i.rd.toNat (ram.word (windowOffset addr)) = some m'.regs) (fun _ _ => False)
      Unreached := by
  have ready := fetched_of off shared fetched
  apply sat_step_fetched running fetched
  refine (execute_window_load opcode ready.off va window ready.shared room).mono ?_ (fun _ _ impossible => impossible)
    (fun _ why => why)
  intro cycles after loaded
  have regs : (logStep m.deliverInterrupt.regs.pc i cycles after.tickPeripherals).regs = after.regs :=
    (congrArg Visible.regs (visible_logStep _ _ _ _)).trans (congrArg Visible.regs (visible_tick after))
  rw [regs]
  exact loaded

theorem step_window_store (opcode : i.opcode = some .store) :
    (step h m).Sat (fun _ m' => StoreStep i addr ram m pre m') (fun _ _ => False) Unreached := by
  have ready := fetched_of off shared fetched
  have quiet : (saveBefore m.deliverInterrupt).mmu.enabled = false := by rw [mmu_saveBefore,mmu_deliver,off]
  have advanced : pre = (saveBefore m.deliverInterrupt).advancePc := by
    rcases fetch_off quiet fetched with advanced | nop
    · exact advanced
    · rw [opcode] at nop
      cases nop
  have before : pre.belongings = m.belongings := by
    rw [advanced]
    change (saveBefore m.deliverInterrupt).belongings = _
    rw [Machine.saveBefore_keeps Machine.belongings fun _ _ _ => rfl,Machine.deliverInterrupt_keeps Machine.belongings fun _ _ _ _ => rfl]
  obtain ⟨scratchpad,mainRam,uart,timer⟩ : pre.scratchpad = m.scratchpad ∧ pre.mainRam = m.mainRam ∧ pre.uart = m.uart ∧
      pre.timer = m.timer := by simpa only [Machine.belongings,Prod.mk.injEq] using before
  apply sat_step_fetched running fetched
  refine (execute_window_store opcode ready.off va window ready.shared room).mono ?_ (fun _ _ impossible => impossible)
    (fun _ why => why)
  intro cycles after stored
  have logged : (logStep m.deliverInterrupt.regs.pc i cycles after.tickPeripherals).belongings = after.tickPeripherals.belongings :=
    Machine.logStep_keeps Machine.belongings (fun _ _ => rfl) ..
  have ticked : after.tickPeripherals.storage = after.storage := Machine.tickPeripherals_keeps Machine.storage (fun _ => rfl) after
  have window' : (logStep m.deliverInterrupt.regs.pc i cycles after.tickPeripherals).shared = after.tickPeripherals.shared :=
    Machine.logStep_keeps Machine.shared (fun _ _ => rfl) ..
  simp only [Machine.belongings,Prod.mk.injEq] at logged
  simp only [Machine.storage,Prod.mk.injEq] at ticked
  refine ⟨?_,?_,?_,?_,⟨after,stored.timer.trans timer,logged.2.2.2⟩⟩
  · obtain ⟨value,found,wrote⟩ := stored.value
    exact ⟨value,found,window'.trans (ticked.2.2.2.trans wrote)⟩
  · rw [logged.1,ticked.1,stored.scratchpad,scratchpad]
  · rw [logged.2.1,ticked.2.1,stored.mainRam,mainRam]
  · rw [logged.2.2.1,ticked.2.2.1,stored.uart,uart]

end Steps

-- The word a load of four neighbouring bytes gives.
def latestWord (initial : ByteStore) (stored : List (Word × Word)) (a : Nat) : Word :=
  latest initial stored (a+3) ++ latest initial stored (a+2) ++ latest initial stored (a+1) ++ latest initial stored a

theorem Agrees.word {initial : ByteStore} {stored : List (Word × Word)} {d : Cluster} (agrees : Agrees initial stored d) (a : Nat) :
    d.sharedRam.word a = latestWord initial stored a := by
  unfold ByteStore.word latestWord
  rw [agrees.bytes,agrees.bytes,agrees.bytes,agrees.bytes]

theorem shared_window_consistent (h : Host) (c : Cluster) (room : 0x01000003 ≤ c.sharedRam.size)
    (off : ∀ m ∈ c.cores, m.mmu.enabled = false) (a : ClusterActivity) (stored : List (Word × Word))
    (path : ReflTransGen (Shares h) (.idle c,[]) (a,stored)) (d : Cluster) (here : a.cluster = some d)
    (m : Machine) (due : a.stepping = some m) (i : Instruction) (pre : Machine)
    (fetched : fetch (saveBefore m.deliverInterrupt) = .ok i pre) (addr : Word) (va : pre.dataVa i = some addr)
    (window : SharedWindow addr) :
    (i.opcode = some .load → (step h m).Sat (fun _ _ => True) (fun _ _ => False) Unreached ∧
      ∀ b e, ClusterMoves h a b → b.cluster = some e → ∃ (j : Nat) (n m' : Machine),
        d.cores[j]? = some n ∧ m = n.attach d.sharedRam ∧ e.cores = d.cores.set j m' ∧
        pre.regs.writeGpr i.rd.toNat (latestWord c.sharedRam stored (windowOffset addr)) = some m'.regs) ∧
    (i.opcode = some .store → (step h m).Sat (fun _ _ => True) (fun _ _ => False) Unreached ∧
      ∀ b e, ClusterMoves h a b → b.cluster = some e → ∃ (j : Nat) (n m' : Machine) (value : Word),
        d.cores[j]? = some n ∧ m = n.attach d.sharedRam ∧ e.cores = d.cores.set j m' ∧
        pre.regs.readGpr i.rd.toNat = some value ∧
        (∀ x, e.sharedRam.byte x = if windowOffset addr ≤ x ∧ x < windowOffset addr+4
          then value.extractLsb' (8*(x-windowOffset addr)) 8 else d.sharedRam.byte x) ∧
        m'.scratchpad = n.scratchpad ∧ m'.mainRam = n.mainRam ∧ m'.uart = n.uart ∧
        ∃ after : Machine, after.timer = n.timer ∧ m'.timer = after.tickPeripherals.timer) := by
  have agrees := shares_agree room off path d here
  have large : sharedRamBytes ≤ d.sharedRam.size := by
    rw [agrees.size]
    exact room
  obtain ⟨k,core,found,running,same⟩ := due_core due here
  have disabled : m.mmu.enabled = false := by
    rw [same]
    exact agrees.off core (List.mem_of_getElem? found)
  have attached : m.shared = some d.sharedRam := by rw [same]; rfl
  have going : m.regs.halt = false := by rw [same]; exact running
  refine ⟨?_,?_⟩
  · intro opcode
    have loads := step_window_load (h := h) going disabled attached large fetched va window opcode
    refine ⟨loads.mono (fun _ _ _ => trivial) (fun _ _ impossible => impossible) (fun _ why => why),?_⟩
    intro b e moves after
    obtain ⟨j,n,m',core',same',rfl,ran | ⟨err,ran⟩⟩ := moves_due moves due here after
    · rw [ran,Outcome.sat_ok,agrees.word] at loads
      exact ⟨j,n,m'.detach,core',same',rfl,loads⟩
    · rw [ran] at loads
      exact loads.elim
  · intro opcode
    have stores := step_window_store (h := h) going disabled attached large fetched va window opcode
    refine ⟨stores.mono (fun _ _ _ => trivial) (fun _ _ impossible => impossible) (fun _ why => why),?_⟩
    intro b e moves after
    obtain ⟨j,n,m',core',rfl,rfl,ran | ⟨err,ran⟩⟩ := moves_due moves due here after
    · rw [ran,Outcome.sat_ok] at stores
      obtain ⟨⟨value,read,wrote⟩,scratchpad,mainRam,uart,timer⟩ := stores
      refine ⟨j,n,m'.detach,value,core',rfl,rfl,read,?_,scratchpad,mainRam,uart,timer⟩
      intro x
      unfold Cluster.put
      rw [wrote,Option.getD_some]
      exact d.sharedRam.write_wordBytes_byte _ _ _
    · rw [ran] at stores
      exact stores.elim

-- One core stores a word at an odd offset, the other loads across it.
def sharing (program : Word) : Machine :=
  {(Emulator.programmed [program]).core with
    regs := {RegisterFile.initial with gpr := Function.update (Function.update (fun _ => 0) 1 0x80000000) 2 0xDEADBEEF}}

def writer : Machine := sharing (Enc.store 2 1 1)
def reader : Machine := sharing (Enc.load 3 1 2)
def twoCores : Cluster := ⟨1,[writer,reader],zeroStore 0x01000003,.initial 1⟩

theorem shared_window_consistent_unaligned : ∃ a stored m i pre,
    ReflTransGen (Shares (.ieee .scalar)) (.idle twoCores,[]) (a,stored) ∧ a.stepping = some m ∧
    fetch (saveBefore m.deliverInterrupt) = .ok i pre ∧ i.opcode = some .load ∧
    ∀ b e, ClusterMoves (.ieee .scalar) a b → b.cluster = some e → ∃ (j : Nat) (m' : Machine),
      e.cores[j]? = some m' ∧ pre.regs.writeGpr i.rd.toNat 0x00DEADBE = some m'.regs := by
  have ends : (step (.ieee .scalar) (writer.attach twoCores.sharedRam)).Sat (fun _ _ => True) (fun _ _ => False)
      (fun _ => False) := by decide +kernel
  have stored : (writer.attach twoCores.sharedRam).windowStore = some (0x80000001,0xDEADBEEF) := by decide +kernel
  obtain ⟨u,m',ran,_⟩ := ends.returns
  have here : twoCores.cores[0]? = some writer := rfl
  have running : writer.regs.halt = false := rfl
  have next : (ClusterConfig.sweep twoCores 0).next (.ieee .scalar) = some (.sweep (twoCores.put 0 m') 1) := by
    unfold ClusterConfig.next
    simp only [here,running,Bool.false_eq_true,if_false,ran]
    rfl
  have path : ReflTransGen (Shares (.ieee .scalar)) (.idle twoCores,[])
      (.inside (.sweep (twoCores.put 0 m') 1),[(0x80000001,0xDEADBEEF)]) := by
    have second : Shares (.ieee .scalar) (.inside (.sweep twoCores 0),[]) _ := .move (.next next)
    have due : (ClusterActivity.inside (.sweep twoCores 0)).stepping = some (writer.attach twoCores.sharedRam) := rfl
    rw [due,Option.bind_some,stored] at second
    exact .tail (.single (.move .stepAll)) second
  have due : (ClusterActivity.inside (.sweep (twoCores.put 0 m') 1)).stepping =
      some (reader.attach (twoCores.put 0 m').sharedRam) := rfl
  have idle : Quiet reader := ⟨rfl,rfl,rfl,rfl⟩
  have quiet : Quiet (reader.attach (twoCores.put 0 m').sharedRam) := ⟨idle.verbose,idle.mmu,idle.masked,idle.unvectored⟩
  have below : reader.regs.pc < mmioBase := by decide
  have inside : reader.regs.pc.toNat+4 ≤ reader.scratchpad.size := by decide
  have code : reader.scratchpad.word reader.regs.pc.toNat = Enc.load 3 1 2 := by decide
  have saved : saveBefore (reader.attach (twoCores.put 0 m').sharedRam).deliverInterrupt =
      reader.attach (twoCores.put 0 m').sharedRam := by
    rw [quiet.deliver]
    rfl
  have fetched : fetch (saveBefore (reader.attach (twoCores.put 0 m').sharedRam).deliverInterrupt) =
      .ok ⟨Enc.load 3 1 2⟩ (reader.attach (twoCores.put 0 m').sharedRam).advancePc := by
    rw [saved,fetch_plain quiet.mmu below inside]
    exact congrArg (fun w => Outcome.ok (⟨w⟩ : Instruction) _) code
  have opcode : (⟨Enc.load 3 1 2⟩ : Instruction).opcode = some .load := by decide
  have va : (reader.attach (twoCores.put 0 m').sharedRam).advancePc.dataVa ⟨Enc.load 3 1 2⟩ = some 0x80000002 := by
    have plain : reader.dataVa ⟨Enc.load 3 1 2⟩ = some 0x80000002 := by decide
    exact plain
  refine ⟨_,_,_,_,_,path,due,fetched,opcode,?_⟩
  intro b e moves after
  obtain ⟨j,n,last,found,_,cores,loaded⟩ := ((shared_window_consistent (.ieee .scalar) twoCores (by decide) (by decide) _ _ path _ rfl _
    due _ _ fetched _ va (by decide)).1 opcode).2 b e moves after
  refine ⟨j,last,?_,?_⟩
  · rw [cores]
    exact List.getElem?_set_self (List.getElem?_eq_some_iff.mp found).1
  · have word : latestWord twoCores.sharedRam [(0x80000001,0xDEADBEEF)] (windowOffset 0x80000002) = 0x00DEADBE := by decide
    rw [word] at loaded
    exact loaded

end Novium
