import Novium.Course
import Novium.Encoding
import Novium.Lanes

namespace Novium
open Storage Effects

namespace RegisterFile

-- Register access at an index in range, with the hard-wired zero.
def get (r : RegisterFile) (k : Fin numGpr) : Word := if k = 0 then 0 else r.gpr k

def set (r : RegisterFile) (k : Fin numGpr) (value : Word) : RegisterFile :=
  {r with gpr := Function.update (Function.update r.gpr k value) 0 0}

theorem readGpr_get (r : RegisterFile) (k : Fin numGpr) : r.readGpr k.val = some (r.get k) := by
  unfold readGpr get gprIndex
  by_cases zero : k = 0
  · subst zero
    rfl
  · have apart : k.val ≠ 0 := fun same => zero (Fin.ext same)
    rw [if_neg apart,if_neg zero,dif_pos k.isLt]
    rfl

theorem writeGpr_set (r : RegisterFile) (k : Fin numGpr) (value : Word) : r.writeGpr k.val value = some (r.set k value) := by
  unfold writeGpr set gprIndex
  by_cases zero : k = 0
  · subst zero
    rw [Function.update_idem]
    rfl
  · have apart : k.val ≠ 0 := fun same => zero (Fin.ext same)
    rw [if_neg apart,dif_pos k.isLt]
    rfl

theorem get_set (r : RegisterFile) (k j : Fin numGpr) (value : Word) :
    (r.set k value).get j = if j = 0 then 0 else if j = k then value else r.get j := by
  unfold get set
  by_cases zero : j = 0
  · rw [if_pos zero,if_pos zero]
  · rw [if_neg zero,if_neg zero,if_neg zero]
    dsimp only
    rw [Function.update_of_ne zero,Function.update_apply]

end RegisterFile

namespace Handlers
variable {idx : BitVec 5} {k : Fin numGpr} {r : RegisterFile} {i : Instruction}

theorem readGpr_apply (names : idx.toNat = k.val) : readGpr idx r = .ok (r.get k) r := by
  unfold readGpr
  rw [Exec.bind_ok (Exec.get_apply r),names,RegisterFile.readGpr_get]
  rfl

theorem writeGpr_apply (names : idx.toNat = k.val) (value : Word) : writeGpr idx value r = .ok () (r.set k value) := by
  unfold writeGpr
  rw [Exec.bind_ok (Exec.get_apply r),names,RegisterFile.writeGpr_set]
  rfl

theorem vr_apply {v : Fin numVr} (names : idx.toNat = v.val) : vr idx r = .ok v r := by
  unfold vr RegisterFile.vrIndex
  rw [names,dif_pos v.isLt]
  rfl

theorem onRegs_ok {α : Type} {x : OnRegs α} {m : Machine} {a : α} (ran : x m.regs = .ok a r) :
    onRegs x m = .ok a {m with regs := r} := by
  unfold onRegs Exec.within
  rw [ran]

theorem gpr_apply {m : Machine} (names : idx.toNat = k.val) : onRegs (readGpr idx) m = .ok (m.regs.get k) m :=
  onRegs_ok (readGpr_apply names)

theorem arith_apply {d a b : Fin numGpr} (rd : i.rd.toNat = d.val) (ra : i.ra.toNat = a.val) (rb : i.rb.toNat = b.val)
    (op : Opcode) (f : Word → Word → Word) (overflow : Word → Word → Word → Bool) :
    arith op f overflow i r =
      .ok (cycleWeight op 0) ((r.set d (f (r.get a) (r.get b))).updateFlagsU32 (f (r.get a) (r.get b))) := by
  unfold arith
  rw [Exec.bind_ok (readGpr_apply ra),Exec.bind_ok (readGpr_apply rb),Exec.bind_ok (writeGpr_apply rd _)]
  rfl

theorem branch_apply {a b : Fin numGpr} (rd : i.rd.toNat = a.val) (ra : i.ra.toNat = b.val) (op : Opcode)
    (taken : Word → Word → Bool) : branch op taken i r =
      if taken (r.get a) (r.get b) then .ok (cycleWeight op 0+1) {r with pc := r.pc+i.offset}
      else .ok (cycleWeight op 0) r := by
  unfold branch
  rw [Exec.bind_ok (readGpr_apply rd),Exec.bind_ok (readGpr_apply ra),Exec.ite_apply]
  rfl

end Handlers

-- Words that lie in the scratchpad one after the other, where they can be fetched.
structure Loaded (base : Nat) (code : List Word) (pad : ByteStore) : Prop where
  inside : base+4*code.length ≤ pad.size
  below : base+4*code.length ≤ mmioBase.toNat
  words : ∀ k w, code[k]? = some w → pad.word (base+4*k) = w

-- What programs compute with, and the set-up around them: everything but counters,
-- traffic, devices and the trace.
structure Core where
  regs : RegisterFile
  scratchpad : ByteStore
  mainRam : ByteStore
  csr : CSRFile
  translated : Bool
  fabric : InterconnectConfig
  debugger : Debugger
  target : TargetProfile
  accel : Bool
  verbose : Bool

def Machine.core (m : Machine) : Core :=
  ⟨m.regs,m.scratchpad,m.mainRam,m.csr,m.mmu.enabled,m.axi.cfg,m.debugger,m.target,m.accel,m.verbose⟩

namespace Core

def advance (c : Core) : Core := {c with regs := {c.regs with pc := c.regs.pc+4}}

-- Neither translation nor an interrupt can interfere.
structure Plain (c : Core) : Prop where
  untranslated : c.translated = false
  undeliverable : c.csr.mstatusMie = false ∨ c.csr.read csrMie = 0

-- The fabric does not divide by an empty burst.
def Bursts (c : Core) : Prop := c.fabric.dataWidth*c.fabric.burstLen ≠ 0

structure Fetches (c : Core) (i : Instruction) : Prop where
  running : c.regs.halt = false
  below : c.regs.pc < mmioBase
  inside : c.regs.pc.toNat+4 ≤ c.scratchpad.size
  word : c.scratchpad.word c.regs.pc.toNat = i.raw

end Core

-- Executed on any machine with the first core, the instruction returns with the second.
def Takes (h : Host) (i : Instruction) (c c' : Core) : Prop :=
  ∀ m : Machine, m.core = c → ∃ cycles m', execute h i m = .ok cycles m' ∧ m'.core = c'

def Steps (h : Host) (c c' : Core) : Prop := ∀ m : Machine, m.core = c → ∃ m', step h m = .ok () m' ∧ m'.core = c'

inductive Trail (h : Host) : Nat → Core → Core → Prop where
  | start (c : Core) : Trail h 0 c c
  | cons : Steps h c d → Trail h n d e → Trail h (n+1) c e

def Replays (h : Host) (i : Instruction) (c c' : Core) : Prop :=
  ∀ m : Machine, m.core = c → ∃ m', replay h i m = .ok () m' ∧ m'.core = c'

theorem core_tick (m : Machine) : m.tickPeripherals.core = m.core := Machine.tickPeripherals_keeps Machine.core (fun _ => rfl) m

theorem core_saveBefore (m : Machine) : (saveBefore m).core = m.core := Machine.saveBefore_keeps Machine.core (fun _ _ _ => rfl) m

theorem core_logStep (pc : Word) (i : Instruction) (cycles : Word) (m : Machine) : (logStep pc i cycles m).core = m.core :=
  Machine.logStep_keeps Machine.core (fun _ _ => rfl) pc i cycles m

section Programs
variable {h : Host} {i : Instruction} {c c' : Core}

theorem Core.Plain.machine {m : Machine} (plain : m.core.Plain) : Novium.Plain m := ⟨plain.untranslated,plain.undeliverable⟩

theorem Core.Fetches.fetch {m : Machine} (fetches : m.core.Fetches i) (off : m.mmu.enabled = false) :
    Novium.fetch m = .ok i m.advancePc := by
  have word : m.scratchpad.word m.regs.pc.toNat = i.raw := fetches.word
  rw [fetch_plain off fetches.below fetches.inside,word]

-- The machine an instruction of a step is executed on.
theorem core_fetched (m : Machine) : (saveBefore m).advancePc.core = m.core.advance := by
  change (saveBefore m).core.advance = _
  rw [core_saveBefore]

theorem step_executes {cycles : Word} {m after : Machine} (plain : m.core.Plain) (fetches : m.core.Fetches i)
    (ran : execute h i (saveBefore m).advancePc = .ok cycles after) :
    step h m = .ok () (logStep m.regs.pc i cycles after.tickPeripherals) := by
  have running : m.regs.halt = false := fetches.running
  have saved := core_saveBefore m
  have off : (saveBefore m).mmu.enabled = false := (congrArg Core.translated saved).trans plain.untranslated
  have fetched := Core.Fetches.fetch (by rw [saved]; exact fetches) off
  rw [step_running h running,plain.machine.deliver]
  unfold cycle
  rw [Exec.bind_ok (Exec.get_apply m),Exec.bind_ok (Exec.modify_apply _ m),Exec.bind_ok fetched,Exec.bind_ok ran]
  rfl

theorem replay_executes {cycles : Word} {m after : Machine} (ran : execute h i m.advancePc = .ok cycles after) :
    replay h i m = .ok () after.tickPeripherals := by
  unfold replay
  rw [Exec.bind_ok (Exec.modify_apply _ m),Exec.bind_ok ran]
  rfl

theorem Takes.steps (plain : c.Plain) (fetches : c.Fetches i) (takes : Takes h i c.advance c') : Steps h c c' := by
  intro m same
  subst same
  obtain ⟨cycles,after,ran,core⟩ := takes (saveBefore m).advancePc (core_fetched m)
  exact ⟨_,step_executes plain fetches ran,by rw [core_logStep,core_tick,core]⟩

theorem Trail.append {n k : Nat} {d : Core} (first : Trail h n c d) (rest : Trail h k d c') : Trail h (n+k) c c' := by
  induction first with
  | start =>
    rw [Nat.zero_add]
    exact rest
  | cons step _ ih =>
    rw [Nat.succ_add]
    exact .cons step (ih rest)

theorem Trail.calls {n : Nat} (trail : Trail h n c c') {m : Machine} (same : m.core = c) :
    ∃ m', Exec.calls (step h) n m = .ok (List.replicate n none) m' ∧ m'.core = c' := by
  induction trail generalizing m with
  | start => exact ⟨m,rfl,same⟩
  | cons first _ ih =>
    obtain ⟨m₁,stepped,core⟩ := first m same
    obtain ⟨m₂,ran,final⟩ := ih core
    have attempted : (step h).attempt m = .ok none m₁ := by
      unfold Exec.attempt
      rw [stepped]
    refine ⟨m₂,?_,final⟩
    unfold Exec.calls
    rw [Exec.bind_ok attempted,Exec.bind_ok ran]
    rfl

theorem Takes.replays (takes : Takes h i c.advance c') : Replays h i c c' := by
  intro m same
  subst same
  obtain ⟨cycles,after,ran,core⟩ := takes m.advancePc rfl
  exact ⟨_,replay_executes ran,by rw [core_tick,core]⟩

theorem takes_handler {op : Opcode} (opcode : i.opcode = some op)
    (handled : ∀ m : Machine, m.core = c → ∃ cycles m', handler h op i m = .ok cycles m' ∧ m'.core = c') : Takes h i c c' := by
  intro m same
  obtain ⟨cycles,after,ran,core⟩ := handled m same
  refine ⟨cycles,account op i cycles after,?_,core⟩
  unfold execute
  rw [opcode]
  dsimp only
  rw [Exec.bind_ok ran]
  rfl

theorem takes_onRegs {op : Opcode} {x : TargetProfile → Bool → OnRegs Word} {cycles : Word} {r : RegisterFile}
    (opcode : i.opcode = some op) (dispatched : ∀ m, handler h op i m = onRegs (x m.target m.accel) m)
    (ran : x c.target c.accel c.regs = .ok cycles r) : Takes h i c {c with regs := r} := by
  apply takes_handler opcode
  intro m same
  subst same
  exact ⟨cycles,{m with regs := r},(dispatched m).trans (Handlers.onRegs_ok ran),rfl⟩

open Handlers

theorem takes_arith {d a b : Fin numGpr} {op : Opcode} {f : Word → Word → Word} {overflow : Word → Word → Word → Bool}
    (opcode : i.opcode = some op) (dispatched : handler h op i = onRegs (arith op f overflow i))
    (rd : i.rd.toNat = d.val) (ra : i.ra.toNat = a.val) (rb : i.rb.toNat = b.val) :
    Takes h i c {c with regs := (c.regs.set d (f (c.regs.get a) (c.regs.get b))).updateFlagsU32 (f (c.regs.get a) (c.regs.get b))} :=
  takes_onRegs (x := fun _ _ => arith op f overflow i) opcode (fun m => congrFun dispatched m) (arith_apply rd ra rb op f overflow)

theorem takes_movi {d : Fin numGpr} (opcode : i.opcode = some .movi) (rd : i.rd.toNat = d.val) :
    Takes h i c {c with regs := c.regs.set d (i.imm16.zeroExtend 32)} := by
  have ran : opMovi i c.regs = .ok (cycleWeight .movi 0) (c.regs.set d (i.imm16.zeroExtend 32)) := by
    unfold opMovi
    rw [Exec.bind_ok (writeGpr_apply rd _)]
    rfl
  exact takes_onRegs (x := fun _ _ => opMovi i) opcode (fun _ => rfl) ran

theorem takes_halt (opcode : i.opcode = some .halt) : Takes h i c {c with regs := {c.regs with halt := true}} :=
  takes_onRegs (x := fun _ _ => opHalt i) opcode (fun _ => rfl) rfl

theorem takes_jmp (opcode : i.opcode = some .jmp) :
    Takes h i c {c with regs := {c.regs with pc := i.target.zeroExtend 32}} :=
  takes_onRegs (x := fun _ _ => opJmp i) opcode (fun _ => rfl) rfl

theorem takes_branch {a b : Fin numGpr} {op : Opcode} {taken : Word → Word → Bool} (opcode : i.opcode = some op)
    (dispatched : handler h op i = onRegs (branch op taken i)) (rd : i.rd.toNat = a.val) (ra : i.ra.toNat = b.val) :
    Takes h i c {c with regs := {c.regs with
      pc := if taken (c.regs.get a) (c.regs.get b) then c.regs.pc+i.offset else c.regs.pc}} := by
  have applied := branch_apply (r := c.regs) rd ra op taken
  cases goes : taken (c.regs.get a) (c.regs.get b) with
  | true =>
    rw [goes] at applied
    exact takes_onRegs (x := fun _ _ => branch op taken i) opcode (fun m => congrFun dispatched m) applied
  | false =>
    rw [goes] at applied
    exact takes_onRegs (x := fun _ _ => branch op taken i) opcode (fun m => congrFun dispatched m) applied

theorem issues_core {m : Machine} (bursts : m.core.Bursts) : m.issues = true := by
  have nonzero : m.axi.cfg.dataWidth*m.axi.cfg.burstLen ≠ 0 := bursts
  simp only [Machine.issues,Bool.or_eq_true,bne_iff_ne]
  exact .inr nonzero

theorem issueAxi_core {m : Machine} (bursts : m.core.Bursts) (addr bytes : Word)
    (isWrite : Bool) : ∃ axi accepted, issueAxi addr bytes isWrite m = .ok accepted {m with axi := axi} ∧ axi.cfg = m.axi.cfg := by
  obtain ⟨axi,issued,cfg⟩ := issueAxi_issued addr bytes isWrite (issues_core bursts)
  exact ⟨axi,_,issued,cfg⟩

theorem resolve_core {m : Machine} (off : m.core.translated = false) (va : Word) (isWrite : Bool) :
    resolve va isWrite m = .ok (some va) m := by
  have same := Machine.resolved_off (m := m) off va isWrite
  rw [resolve_apply,Machine.afterResolve,same]

theorem busRead_core {m : Machine} {addr : Word} (below : addr < mmioBase) (inside : addr.toNat+4 ≤ m.scratchpad.size) :
    Bus.read32 addr m = .ok (m.scratchpad.word addr.toNat) m := by
  simp [Bus.read32,Exec.bind_apply,Machine.deviceAt_below below,liftExcept,VirtualSRAM.read32,inside]

theorem busWrite_core {m : Machine} {addr : Word} (below : addr < mmioBase) (inside : addr.toNat+4 ≤ m.scratchpad.size)
    (value : Word) : Bus.write32 addr value m = .ok () {m with scratchpad := m.scratchpad.write addr.toNat (wordBytes value)} := by
  simp [Bus.write32,Exec.bind_apply,Machine.deviceAt_below below,liftExcept,VirtualSRAM.write32,VirtualSRAM.writeBytes,wordBytes,inside]

section Accesses
variable (off : c.translated = false) (bursts : c.Bursts)
include off bursts

theorem takes_load {d a : Fin numGpr} {addr : Word} (opcode : i.opcode = some .load) (rd : i.rd.toNat = d.val)
    (ra : i.ra.toNat = a.val) (reads : c.regs.get a+i.simm16 = addr) (below : addr < mmioBase)
    (inside : addr.toNat+4 ≤ c.scratchpad.size) :
    Takes h i c {c with regs := c.regs.set d (c.scratchpad.word addr.toNat)} := by
  apply takes_handler opcode
  intro m same
  subst same
  obtain ⟨axi,accepted,issued,cfg⟩ := issueAxi_core bursts addr 4 false
  refine ⟨cycleWeight .load 0,{m with axi := axi,regs := m.regs.set d (m.scratchpad.word addr.toNat)},?_,?_⟩
  · change opLoad i m = _
    unfold opLoad
    rw [Exec.bind_ok (gpr_apply ra),show m.regs.get a+i.simm16 = addr from reads,Exec.bind_ok (resolve_core off addr false)]
    dsimp only
    rw [Exec.bind_ok issued,Exec.bind_ok (busRead_core (m := {m with axi := axi}) below inside),Exec.bind_ok (onRegs_ok (writeGpr_apply rd _))]
    rfl
  · unfold Machine.core
    rw [cfg]

theorem takes_store {s a : Fin numGpr} {addr : Word} (opcode : i.opcode = some .store) (rd : i.rd.toNat = s.val)
    (ra : i.ra.toNat = a.val) (writes : c.regs.get a+i.simm16 = addr) (below : addr < mmioBase)
    (inside : addr.toNat+4 ≤ c.scratchpad.size) :
    Takes h i c {c with scratchpad := c.scratchpad.write addr.toNat (wordBytes (c.regs.get s))} := by
  apply takes_handler opcode
  intro m same
  subst same
  obtain ⟨axi,accepted,issued,cfg⟩ := issueAxi_core bursts addr 4 true
  refine ⟨cycleWeight .store 0,{m with
    axi := axi,scratchpad := m.scratchpad.write addr.toNat (wordBytes (m.regs.get s))},?_,?_⟩
  · change opStore i m = _
    unfold opStore
    rw [Exec.bind_ok (gpr_apply ra),show m.regs.get a+i.simm16 = addr from writes,Exec.bind_ok (resolve_core off addr true)]
    dsimp only
    rw [Exec.bind_ok (gpr_apply rd),Exec.bind_ok issued,
      Exec.bind_ok (busWrite_core (m := {m with axi := axi}) below inside _)]
    rfl
  · unfold Machine.core
    rw [cfg]

-- A refused burst of DMA_LOAD is recorded in the profiler, outside the core.
theorem takes_dmaLoad {d s : Fin numGpr} (opcode : i.opcode = some .dmaLoad) (rd : i.rd.toNat = d.val) (ra : i.ra.toNat = s.val)
    (room : (c.regs.get d).toNat+(dmaCount i).toNat ≤ c.scratchpad.size)
    (source : (c.regs.get s).toNat+(dmaCount i).toNat ≤ c.mainRam.size) :
    Takes h i c {c with
      scratchpad := c.scratchpad.write (c.regs.get d).toNat (c.mainRam.read (c.regs.get s).toNat (dmaCount i).toNat)} := by
  apply takes_handler opcode
  intro m same
  subst same
  let site : DmaSite m i := .ofRegs off (rd ▸ m.regs.readGpr_get d) (ra ▸ m.regs.readGpr_get s)
  rcases dma_inside h site (.inl rfl) ⟨room,source⟩ with ⟨_,axi,cfg,ran⟩ | ⟨stuck,_⟩
  · refine ⟨_,_,ran,?_⟩
    unfold DmaSite.copy Machine.core
    rw [if_pos rfl]
    dsimp only
    rw [cfg,site.mmu_kept.1]
    rfl
  · rw [issues_core bursts] at stuck
    cases stuck

theorem takes_dmaStore {d s : Fin numGpr} (opcode : i.opcode = some .dmaStore) (rd : i.rd.toNat = d.val) (ra : i.ra.toNat = s.val)
    (room : (c.regs.get d).toNat+(dmaCount i).toNat ≤ c.mainRam.size)
    (source : (c.regs.get s).toNat+(dmaCount i).toNat ≤ c.scratchpad.size) :
    Takes h i c {c with
      mainRam := c.mainRam.write (c.regs.get d).toNat (c.scratchpad.read (c.regs.get s).toNat (dmaCount i).toNat)} := by
  apply takes_handler opcode
  intro m same
  subst same
  let site : DmaSite m i := .ofRegs off (rd ▸ m.regs.readGpr_get d) (ra ▸ m.regs.readGpr_get s)
  rcases dma_inside h site (.inr rfl) ⟨room,source⟩ with ⟨_,axi,cfg,ran⟩ | ⟨stuck,_⟩
  · refine ⟨_,_,ran,?_⟩
    unfold DmaSite.copy Machine.core
    rw [if_neg (by decide)]
    dsimp only
    rw [cfg,site.mmu_kept.1]
    rfl
  · rw [issues_core bursts] at stuck
    cases stuck

end Accesses

-- The vector accesses ask neither the MMU nor the fabric.
theorem takes_loadVr {d : Fin numVr} {a : Fin numGpr} {addr : Word} (opcode : i.opcode = some .loadVr) (rd : i.rd.toNat = d.val)
    (ra : i.ra.toNat = a.val) (reads : c.regs.get a+i.simm16 = addr) (inside : addr.toNat+vrByteSize ≤ c.scratchpad.size) :
    Takes h i c {c with regs := {c.regs with
      vr := Function.update c.regs.vr d fun k => c.scratchpad.word (addr.toNat+4*k.val)}} := by
  apply takes_handler opcode
  intro m same
  subst same
  have inside : addr.toNat+vrByteSize ≤ m.scratchpad.size := inside
  refine ⟨cycleWeight .loadVr 0,{m with regs := {m.regs with
    vr := Function.update m.regs.vr d fun k => m.scratchpad.word (addr.toNat+4*k.val)}},?_,rfl⟩
  change opLoadVr i m = _
  unfold opLoadVr
  rw [Exec.bind_ok (gpr_apply ra),show m.regs.get a+i.simm16 = addr from reads]
  dsimp only
  rw [Exec.bind_ok (onRegs_ok (vr_apply rd)),Exec.bind_ok (Exec.get_apply m),Exec.ite_apply,if_pos inside]
  rfl

theorem takes_storeVr {s : Fin numVr} {a : Fin numGpr} {addr : Word} (opcode : i.opcode = some .storeVr) (rd : i.rd.toNat = s.val)
    (ra : i.ra.toNat = a.val) (writes : c.regs.get a+i.simm16 = addr)
    (inside : addr.toNat+(vrBytes (c.regs.vr s)).length ≤ c.scratchpad.size) :
    Takes h i c {c with scratchpad := c.scratchpad.write addr.toNat (vrBytes (c.regs.vr s))} := by
  apply takes_handler opcode
  intro m same
  subst same
  have inside : addr.toNat+(vrBytes (m.regs.vr s)).length ≤ m.scratchpad.size := inside
  refine ⟨cycleWeight .storeVr 0,{m with scratchpad := m.scratchpad.write addr.toNat (vrBytes (m.regs.vr s))},?_,rfl⟩
  change opStoreVr i m = _
  unfold opStoreVr
  rw [Exec.bind_ok (gpr_apply ra),show m.regs.get a+i.simm16 = addr from writes,Exec.bind_ok (onRegs_ok (vr_apply rd)),
    Exec.bind_ok (Exec.get_apply m),VirtualSRAM.writeBytes,if_pos inside]
  rfl

theorem takes_vecAdd {d a b : Fin numVr} (opcode : i.opcode = some .vecAdd) (rd : i.rd.toNat = d.val) (ra : i.ra.toNat = a.val)
    (rb : i.rb.toNat = b.val) : Takes h i c {c with regs := {c.regs with
      vr := Function.update c.regs.vr d (h.laneSum c.regs.vr a b)}} := by
  have lanes : (if c.accel then h.vecAddHost c.regs.vr d a b else h.vecAddWidth 1 c.regs.vr d a b) =
      Function.update c.regs.vr d (h.laneSum c.regs.vr a b) := by
    rw [Host.vecAddHost_lanes,Host.vecAddWidth_lanes rfl,ite_self]
  have ran : opVecAdd h c.accel c.target i c.regs = .ok (profileCycleWeight c.target .vecAdd 0)
      {c.regs with vr := Function.update c.regs.vr d (h.laneSum c.regs.vr a b)} := by
    unfold opVecAdd
    rw [Exec.bind_ok (vr_apply rd),Exec.bind_ok (vr_apply ra),Exec.bind_ok (vr_apply rb),← lanes]
    rfl
  exact takes_onRegs (x := fun target accel => opVecAdd h accel target i) opcode (fun _ => rfl) ran

theorem takes_matmulTile {d a b : Fin numVr} {n : Nat} (opcode : i.opcode = some .matmulTile) (rd : i.rd.toNat = d.val)
    (ra : i.ra.toNat = a.val) (rb : i.rb.toNat = b.val) (size : (i.func &&& 0xF).toNat = n) (sized : 1 ≤ n ∧ n ≤ tileSize) :
    Takes h i c {c with regs := {c.regs with vr := h.matmulTile c.regs.vr d a b n}} := by
  have lanes : (if c.accel then h.matmulTileHost c.regs.vr d a b n else h.matmulTile c.regs.vr d a b n) =
      h.matmulTile c.regs.vr d a b n := by
    rw [Host.matmulTileHost_eq,ite_self]
  have accepted : ¬ (n = 0 ∨ tileSize < n) := by omega
  have ran : opMatmulTile h c.accel c.target i c.regs = .ok (profileCycleWeight c.target .matmulTile (BitVec.ofNat 16 n))
      {c.regs with vr := h.matmulTile c.regs.vr d a b n} := by
    unfold opMatmulTile
    rw [size]
    dsimp only
    rw [Exec.ite_apply,if_neg accepted,Exec.bind_ok (vr_apply rd),Exec.bind_ok (vr_apply ra),Exec.bind_ok (vr_apply rb),← lanes]
    rfl
  exact takes_onRegs (x := fun target accel => opMatmulTile h accel target i) opcode (fun _ => rfl) ran

end Programs
end Novium
