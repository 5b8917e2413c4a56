import Novium.PricedPrograms

namespace Novium
open Storage Effects Handlers StateTransition

-- The transactions an instruction may leave in the fabric.
def Opcode.bursts : Opcode → Nat
  | .load | .store | .dmaLoad | .dmaStore => 1
  | _ => 0

-- Since the first machine so many transactions have been queued at most.
structure Queued (n : Nat) (m m' : Machine) : Prop where
  pending : m'.axi.pending.length ≤ m.axi.pending.length+n
  cfg : m'.axi.cfg = m.axi.cfg

namespace Queued
variable {n k : Nat} {m m' m'' : Machine}

theorem of_axi (same : m'.axi = m.axi) : Queued n m m' :=
  ⟨by rw [same]; exact Nat.le_add_right _ _,congrArg Interconnect.cfg same⟩

theorem refl (m : Machine) : Queued 0 m m := of_axi rfl

theorem trans (first : Queued n m m') (second : Queued k m' m'') : Queued (n+k) m m'' where
  pending := by
    have before := first.pending
    have after := second.pending
    omega
  cfg := second.cfg.trans first.cfg

-- A tick takes transactions out.
theorem ticked (m : Machine) : Queued 0 m m.tickPeripherals := by
  have once : ∀ k : Machine, Queued 0 k k.tickOnce := by
    intro k
    refine ⟨?_,rfl⟩
    simp [Machine.tickOnce,Interconnect.tick]
  unfold Machine.tickPeripherals
  generalize m.tickAccum.toNat/cyclesPerTick.toNat = passes
  induction passes generalizing m with
  | zero => exact .refl m
  | succ passes ih =>
    rw [Function.iterate_succ_apply]
    exact (once m).trans (ih m.tickOnce)

end Queued

-- However a handler ends.
def QueueEffect (n : Nat) (m : Machine) (o : Outcome EmulatorError Hazard Machine Word) : Prop :=
  o.Sat (fun _ m' => Queued n m m') (fun _ m' => Queued n m m') (fun _ => True)

namespace Handlers
variable {op : Opcode} {i : Instruction} {m : Machine}

theorem issue_queues {x y : Interconnect} {t : Transaction} {curCycle : DWord} {accepted : Bool}
    (issued : x.issue t curCycle = some (y,accepted)) : y.pending.length ≤ x.pending.length+1 ∧ y.cfg = x.cfg := by
  unfold Interconnect.issue at issued
  split at issued
  · cases issued
    exact ⟨Nat.le_add_right _ _,rfl⟩
  · dsimp only at issued
    split at issued
    · cases issued
    · cases issued
      simp

-- Behind a transaction that was asked for the fabric is left alone.
theorem queues_after {α : Type} {addr bytes : Word} {isWrite : Bool} {rest : Bool → Emu α} {start : Machine} (same : m.axi = start.axi)
    (kept : ∀ accepted axi, (rest accepted {m with axi := axi}).Sat (fun _ m' => m'.axi = axi) (fun _ m' => m'.axi = axi) (fun _ => True)) :
    ((issueAxi addr bytes isWrite >>= rest : Emu α) m).Sat (fun _ m' => Queued 1 start m') (fun _ m' => Queued 1 start m') (fun _ => True) := by
  simp only [issueAxi,Exec.sat_bind,Exec.get_apply,Outcome.sat_ok]
  cases issued : m.axi.issue ⟨0,addr,bytes,isWrite,m.profiler.cycleCount,0,.axi4⟩ m.profiler.cycleCount with
  | none => trivial
  | some answer =>
    obtain ⟨axi,accepted⟩ := answer
    obtain ⟨pending,cfg⟩ := issue_queues issued
    rw [same] at pending cfg
    have counted : ∀ m' : Machine, m'.axi = axi → Queued 1 start m' := by
      intro m' here
      exact ⟨by rw [here]; exact pending,by rw [here]; exact cfg⟩
    exact (kept accepted axi).mono (fun _ m' => counted m') (fun _ m' => counted m') (fun _ _ => trivial)

theorem onRegs_queues {x : OnRegs Word} : QueueEffect 0 m (onRegs x m) := by
  unfold QueueEffect
  rw [sat_onRegs]
  cases x m.regs with
  | ok a r =>
    change Queued 0 m {m with regs := r}
    exact .of_axi rfl
  | thrown e r =>
    change Queued 0 m {m with regs := r}
    exact .of_axi rfl
  | undefined why => trivial

theorem pageFault_queues {va : Word} {isStore : Bool} {start : Machine} (same : m.axi = start.axi) :
    (pageFault va isStore m).Sat (fun _ m' => Queued 1 start m') (fun _ m' => Queued 1 start m') (fun _ => True) := by
  change Queued 1 start (m.enterTrap _)
  exact .of_axi same

theorem thrown_queues {err : EmulatorError} {start : Machine} (same : m.axi = start.axi) :
    (Exec.throw err m : Outcome EmulatorError Hazard Machine Word).Sat (fun _ m' => Queued 1 start m') (fun _ m' => Queued 1 start m')
      (fun _ => True) := by
  change Queued 1 start m
  exact .of_axi same

theorem opLoad_queues : QueueEffect 1 m (opLoad i m) := by
  unfold QueueEffect opLoad
  rw [Exec.sat_bind,sat_onRegs,sat_readGpr]
  refine ⟨fun base _ => ?_,fun _ => trivial⟩
  rw [Exec.sat_bind,sat_resolve]
  cases (m.resolved (base+i.simm16) false).1 with
  | none => exact pageFault_queues rfl
  | some addr =>
    refine queues_after rfl fun accepted axi => ?_
    rw [Exec.sat_bind]
    refine sat_busRead (fun _ => ?_) (fun _ _ => rfl) (fun _ => trivial)
    rw [Exec.sat_bind,sat_onRegs,sat_writeGpr]
    exact ⟨fun _ _ => rfl,fun _ => trivial⟩

theorem busWrite_axi (addr value : Word) (m : Machine) :
    (Bus.write32 addr value m).Sat (fun _ m' => m'.axi = m.axi) (fun _ m' => m'.axi = m.axi) (fun _ => True) := by
  simp only [Bus.write32,Exec.sat_bind,Exec.get_apply,Outcome.sat_ok]
  cases m.deviceAt addr with
  | none =>
    simp only [Exec.sat_bind,Exec.modify_apply,Outcome.sat_ok]
    cases VirtualSRAM.write32 m.scratchpad addr value with
    | error e => rfl
    | ok ram => rfl
  | some kind =>
    cases kind with
    | timer => rfl
    | uart => rfl
    | shared =>
      cases m.shared with
      | none => trivial
      | some ram =>
        dsimp only
        rw [Exec.ite_apply]
        split
        · rfl
        · trivial

theorem opStore_queues : QueueEffect 1 m (opStore i m) := by
  unfold QueueEffect opStore
  rw [Exec.sat_bind,sat_onRegs,sat_readGpr]
  refine ⟨fun base _ => ?_,fun _ => trivial⟩
  rw [Exec.sat_bind,sat_resolve]
  cases (m.resolved (base+i.simm16) true).1 with
  | none => exact pageFault_queues rfl
  | some addr =>
    dsimp only
    rw [Exec.sat_bind,sat_onRegs,sat_readGpr]
    refine ⟨fun value _ => ?_,fun _ => trivial⟩
    refine queues_after rfl fun accepted axi => ?_
    rw [Exec.sat_bind]
    exact (busWrite_axi addr value _).mono (fun _ _ same => same) (fun _ _ same => same) (fun _ _ => trivial)

theorem opDmaLoad_queues : QueueEffect 1 m (opDmaLoad i m) := by
  unfold QueueEffect opDmaLoad
  rw [Exec.sat_bind,sat_onRegs,sat_readGpr]
  refine ⟨fun destVa _ => ?_,fun _ => trivial⟩
  rw [Exec.sat_bind,sat_onRegs,sat_readGpr]
  refine ⟨fun srcVa _ => ?_,fun _ => trivial⟩
  dsimp only
  rw [Exec.sat_bind,sat_resolve,Exec.sat_bind,sat_resolve]
  cases (m.resolved destVa true).1 with
  | none => exact pageFault_queues rfl
  | some dest =>
    cases ((m.afterResolve destVa true).resolved srcVa false).1 with
    | none => exact pageFault_queues rfl
    | some src =>
      dsimp only
      rw [Exec.sat_bind,Exec.get_apply,Outcome.sat_ok,Exec.ite_apply]
      split
      · exact thrown_queues rfl
      · rw [Exec.ite_apply]
        split
        · exact thrown_queues rfl
        · refine queues_after rfl fun accepted axi => ?_
          cases accepted with
          | true =>
            rw [Bool.not_true,if_neg (by decide),Exec.ite_apply]
            split
            · rfl
            · trivial
          | false =>
            rw [Bool.not_false,if_pos rfl,Exec.sat_bind,Exec.modify_apply,Outcome.sat_ok,Exec.ite_apply]
            split
            · rfl
            · trivial

theorem opDmaStore_queues : QueueEffect 1 m (opDmaStore i m) := by
  unfold QueueEffect opDmaStore
  rw [Exec.sat_bind,sat_onRegs,sat_readGpr]
  refine ⟨fun destVa _ => ?_,fun _ => trivial⟩
  rw [Exec.sat_bind,sat_onRegs,sat_readGpr]
  refine ⟨fun srcVa _ => ?_,fun _ => trivial⟩
  dsimp only
  rw [Exec.sat_bind,sat_resolve,Exec.sat_bind,sat_resolve]
  cases (m.resolved destVa true).1 with
  | none => exact pageFault_queues rfl
  | some dest =>
    cases ((m.afterResolve destVa true).resolved srcVa false).1 with
    | none => exact pageFault_queues rfl
    | some src =>
      dsimp only
      rw [Exec.sat_bind,Exec.get_apply,Outcome.sat_ok,Exec.ite_apply]
      split
      · exact thrown_queues rfl
      · rw [Exec.ite_apply]
        split
        · exact thrown_queues rfl
        · refine queues_after rfl fun accepted axi => ?_
          rw [Exec.ite_apply]
          split
          · rfl
          · trivial

end Handlers

theorem handler_queues (h : Host) (op : Opcode) (i : Instruction) (m : Machine) : QueueEffect op.bursts m (handler h op i m) := by
  cases op with
  | load => exact opLoad_queues
  | store => exact opStore_queues
  | dmaLoad => exact opDmaLoad_queues
  | dmaStore => exact opDmaStore_queues
  | loadVr => exact sat_opLoadVr trivial (fun _ => .refl m) fun _ _ => .of_axi rfl
  | storeVr => exact sat_opStoreVr trivial (fun _ => .refl m) fun _ _ _ => .of_axi rfl
  | _ => exact onRegs_queues

theorem execute_queues {h : Host} {op : Opcode} {i : Instruction} {m m' : Machine} {cycles : Word} (opcode : i.opcode = some op)
    (ran : execute h i m = .ok cycles m') : Queued op.bursts m m' := by
  have queues := handler_queues h op i m
  unfold execute at ran
  rw [opcode] at ran
  dsimp only at ran
  rw [QueueEffect] at queues
  cases handled : handler h op i m with
  | ok returned after =>
    rw [Exec.bind_ok handled] at ran
    rw [handled] at queues
    cases ran
    exact ⟨queues.pending,queues.cfg⟩
  | thrown err after =>
    rw [Exec.bind_apply,handled] at ran
    cases ran
  | undefined why =>
    rw [Exec.bind_apply,handled] at ran
    cases ran

-- Executed on any machine with the first core and with room in the fabric, the instruction
-- returns with the second and is recorded once, at its price.
def Serves (h : Host) (i : Instruction) (price bursts : Nat) (c c' : Core) : Prop :=
  ∀ m : Machine, m.core = c → m.axi.pending.length+bursts ≤ c.fabric.maxOutstanding.toNat →
    ∃ cycles m', execute h i m = .ok cycles m' ∧ m'.core = c' ∧ Billed 1 price m m' ∧ Queued bursts m m'

-- Instructions of the code one after the other: how many, their price and their transactions.
inductive Shift (h : Host) (code : List Word) : Nat → Nat → Nat → Core → Core → Prop where
  | start (c : Core) : Shift h code 0 0 0 c c
  | cons (p n k b price bursts : Nat) (w : Word) (c d e : Core) : Ready code p c → code[p]? = some w →
      Serves h ⟨w⟩ price bursts c.advance d → ((⟨w⟩ : Instruction).endsBlock = false → d.regs.pc = c.regs.pc+4) →
      d.fabric = c.fabric → Shift h code n k b d e → Shift h code (n+1) (price+k) (bursts+b) c e

-- A rule for a piece of the code on a target: from a word with the store as the first condition
-- says to another with the store as the second says, and what that takes.
def Contract (h : Host) (t : TargetProfile) (code : List Word) (p : Nat) (P : Tile.Store → Prop) (n k b q : Nat)
    (Q : Tile.Store → Prop) : Prop :=
  ∀ c, Ready code p c → c.target = t → P c.store →
    ∃ d, Shift h code n k b c d ∧ Ready code q d ∧ d.target = t ∧ d.fabric = c.fabric ∧ Q d.store

section Shifts
variable {h : Host} {code : List Word} {i : Instruction} {c c' d e : Core} {price bursts n k b n' k' b' : Nat} {m m' : Machine}

theorem Takes.serves (op : Opcode) (takes : Takes h i c c') (opcode : i.opcode = some op)
    (priced : ∀ m : Machine, m.core = c → (m.charge i op).toNat = price) : Serves h i price op.bursts c c' := by
  intro m same room
  obtain ⟨cycles,m',ran,core⟩ := takes m same
  have recorded := ((execute_charged ran).handled op opcode).2
  have total : cycles.zeroExtend 64 = BitVec.ofNat 64 price := by
    rw [execute_charge opcode ran,← priced m same]
    exact (BitVec.ofNat_toNat 64 _).symm
  have unstalled : m.stallRecord i = m.profiler := by
    by_cases load : op = .dmaLoad
    · subst load
      subst same
      have free : m.axiFull = false := by
        rw [Machine.axiFull,decide_eq_false_iff_not]
        have slots : m.axi.pending.length+1 ≤ m.axi.cfg.maxOutstanding.toNat := room
        omega
      simp [Machine.stallRecord,Machine.backpressured,free]
    · exact stallRecord_other load opcode
  rw [unstalled] at recorded
  refine ⟨cycles,m',ran,core,⟨?_,?_⟩,execute_queues opcode ran⟩
  · rw [recorded,Profiler.record_instrCount]
    rfl
  · rw [recorded,Profiler.record_cycleCount,total]

theorem Serves.steps (serves : Serves h i price bursts m.core.advance c') (plain : m.core.Plain) (fetches : m.core.Fetches i)
    (room : m.axi.pending.length+bursts ≤ m.core.fabric.maxOutstanding.toNat) :
    ∃ m', step h m = .ok () m' ∧ m'.core = c' ∧ Billed 1 price m m' ∧ Queued bursts m m' := by
  have saved : (saveBefore m).axi = m.axi := Machine.saveBefore_keeps Machine.axi (fun _ _ _ => rfl) m
  have before : (saveBefore m).profiler = m.profiler := Machine.saveBefore_keeps Machine.profiler (fun _ _ _ => rfl) m
  obtain ⟨cycles,after,ran,core,billed,queued⟩ := serves (saveBefore m).advancePc (core_fetched m) (by
    change (saveBefore m).axi.pending.length+bursts ≤ _
    rw [saved]
    exact room)
  have profiler : (logStep m.regs.pc i cycles after.tickPeripherals).profiler = after.profiler :=
    (Machine.logStep_keeps Machine.profiler (fun _ _ => rfl) ..).trans (profiler_tick after)
  have axi : (logStep m.regs.pc i cycles after.tickPeripherals).axi = after.tickPeripherals.axi :=
    Machine.logStep_keeps Machine.axi (fun _ _ => rfl) ..
  refine ⟨_,step_executes plain fetches ran,by rw [core_logStep,core_tick,core],⟨?_,?_⟩,?_⟩
  · rw [profiler,billed.instructions]
    exact congrArg (fun p => Profiler.instrCount p+BitVec.ofNat 64 1) before
  · rw [profiler,billed.cycles]
    exact congrArg (fun p => Profiler.cycleCount p+BitVec.ofNat 64 price) before
  · have advanced : Queued 0 m (saveBefore m).advancePc := .of_axi saved
    have logged : Queued 0 after.tickPeripherals (logStep m.regs.pc i cycles after.tickPeripherals) := .of_axi axi
    simpa using advanced.trans (queued.trans ((Queued.ticked after).trans logged))

theorem Serves.replays (serves : Serves h i price bursts m.core.advance c')
    (room : m.axi.pending.length+bursts ≤ m.core.fabric.maxOutstanding.toNat) :
    ∃ m', replay h i m = .ok () m' ∧ m'.core = c' ∧ Billed 1 price m m' ∧ Queued bursts m m' := by
  obtain ⟨cycles,after,ran,core,billed,queued⟩ := serves m.advancePc rfl room
  have ticked := queued.trans (.ticked after)
  refine ⟨_,replay_executes ran,by rw [core_tick,core],⟨?_,?_⟩,ticked.pending,ticked.cfg⟩
  · rw [profiler_tick]
    exact billed.instructions
  · rw [profiler_tick]
    exact billed.cycles

theorem Shift.append (first : Shift h code n k b c d) (rest : Shift h code n' k' b' d e) : Shift h code (n+n') (k+k') (b+b') c e := by
  induction first with
  | start => simpa using rest
  | cons p n k b price bursts w c d f ready listed serves next fabric _ ih =>
    rw [Nat.succ_add,Nat.add_assoc,Nat.add_assoc]
    exact .cons p _ _ _ price bursts w c d e ready listed serves next fabric (ih rest)

theorem Shift.run (shift : Shift h code n k b c d) (same : m.core = c) (room : m.axi.pending.length+b ≤ c.fabric.maxOutstanding.toNat) :
    ∃ m', Reaches (runNext h) (.loop m) (.loop m') ∧ m'.core = d ∧ Billed n k m m' := by
  induction shift generalizing m with
  | start => exact ⟨m,.refl,same,.refl m⟩
  | cons p n k b price bursts w c d e ready listed serves next fabric _ ih =>
    subst same
    obtain ⟨m₁,stepped,core,first,queued⟩ := serves.steps ready.plain (ready.fetches listed) (by omega)
    have pending := queued.pending
    obtain ⟨m₂,rest,final,billed⟩ := ih core (by rw [fabric]; omega)
    refine ⟨m₂,.head (ready.runs stepped) rest,final,?_⟩
    rw [Nat.add_comm n 1]
    exact first.trans billed

theorem Shift.fast (shift : Shift h code n k b c d) (same : m.core = c) (room : m.axi.pending.length+b ≤ c.fabric.maxOutstanding.toNat)
    {f : FastConfig} (fast : Fast code m f) :
    ∃ m' g, Reaches (fastNext h) f g ∧ Fast code m' g ∧ m'.core = d ∧ Billed n k m m' := by
  induction shift generalizing m f with
  | start => exact ⟨m,f,.refl,fast,same,.refl m⟩
  | cons p n k b price bursts w c d e ready listed serves next fabric _ ih =>
    subst same
    obtain ⟨m₁,replayed,core,first,queued⟩ := serves.replays (by omega)
    have pending := queued.pending
    have pc : (⟨w⟩ : Instruction).endsBlock = false → m₁.regs.pc = m.regs.pc+4 := by
      intro goes
      exact (congrArg (fun c => c.regs.pc) core).trans (next goes)
    obtain ⟨g,reached,fast⟩ := fast.next ready listed replayed pc
    obtain ⟨m₂,g₂,rest,after,final,billed⟩ := ih core (by rw [fabric]; omega) fast
    refine ⟨m₂,g₂,reached.trans rest,after,final,?_⟩
    rw [Nat.add_comm n 1]
    exact first.trans billed

end Shifts

-- What an instruction of a tile program costs on a target.
def Tile.Op.price (t : TargetProfile) : Tile.Op → Nat
  | .movi _ _ => 1
  | .dmaLoad _ _ bytes => (profileCycleWeight t .dmaLoad (bytes.zeroExtend 16)).toNat
  | .dmaStore _ _ bytes => (profileCycleWeight t .dmaStore (bytes.zeroExtend 16)).toNat
  | .loadVr _ _ _ => 5
  | .storeVr _ _ _ => 5
  | .vecAdd _ _ _ => (profileCycleWeight t .vecAdd 0).toNat
  | .matmulTile _ _ _ n => (profileCycleWeight t .matmulTile (n.zeroExtend 16)).toNat

def Tile.Op.opcode : Tile.Op → Opcode
  | .movi _ _ => .movi
  | .dmaLoad _ _ _ => .dmaLoad
  | .dmaStore _ _ _ => .dmaStore
  | .loadVr _ _ _ => .loadVr
  | .storeVr _ _ _ => .storeVr
  | .vecAdd _ _ _ => .vecAdd
  | .matmulTile _ _ _ _ => .matmulTile

section Contracts
variable {h : Host} {t : TargetProfile} {code : List Word} {p q r n k b n' k' b' : Nat} {P Q R : Tile.Store → Prop}

theorem Contract.seq (first : Contract h t code p P n k b q Q) (second : Contract h t code q Q n' k' b' r R) :
    Contract h t code p P (n+n') (k+k') (b+b') r R := by
  intro c ready target pre
  obtain ⟨d,there,middle,same,fabric,between⟩ := first c ready target pre
  obtain ⟨e,on,final,last,kept,post⟩ := second d middle same between
  exact ⟨e,there.append on,final,last,kept.trans fabric,post⟩

theorem Contract.pre (contract : Contract h t code p Q n k b q R) (weaker : ∀ s, P s → Q s) : Contract h t code p P n k b q R :=
  fun c ready target pre => contract c ready target (weaker _ pre)

theorem Tile.Op.encode_opcode (op : Tile.Op) : (⟨op.encode⟩ : Instruction).opcode = some op.opcode := by
  cases op with
  | movi => exact Enc.itype_opcode ..
  | dmaLoad => exact Enc.rtype_opcode ..
  | dmaStore => exact Enc.rtype_opcode ..
  | loadVr => exact Enc.itype_opcode ..
  | storeVr => exact Enc.itype_opcode ..
  | vecAdd => exact Enc.rtype_opcode ..
  | matmulTile => exact Enc.rtype_opcode ..

-- Some machine with this core.
def Core.machine (c : Core) : Machine :=
  {Machine.initial 0 0 with
    regs := c.regs
    scratchpad := c.scratchpad
    mainRam := c.mainRam
    csr := c.csr
    mmu := {(Machine.initial 0 0).mmu with enabled := c.translated}
    axi := .ofConfig c.fabric
    debugger := c.debugger
    target := c.target
    accel := c.accel
    verbose := c.verbose}

theorem Takes.settings {i : Instruction} {op : Opcode} {c c' : Core} (takes : Takes h i c c') (opcode : i.opcode = some op) :
    c'.target = c.target ∧ c'.fabric = c.fabric := by
  obtain ⟨cycles,m',ran,core⟩ := takes c.machine rfl
  have fabric : m'.axi.cfg = c.fabric := (execute_queues opcode ran).cfg
  have target : m'.target = c.target := by
    rcases execute_ok ran with executed | trapped
    · exact congrArg Control.target executed.control
    · obtain ⟨_,_,_,_,_,rfl⟩ := trapped
      rfl
  subst core
  exact ⟨target,fabric⟩

theorem transfers_core {m : Machine} {i : Instruction} {d s : Fin numGpr} (off : m.core.translated = false)
    (rd : i.rd.toNat = d.val) (ra : i.ra.toNat = s.val) : m.transfers i = true :=
  transfers_site (DmaSite.ofRegs off (rd ▸ m.regs.readGpr_get d) (ra ▸ m.regs.readGpr_get s))

theorem dma_price (op : Opcode) (rd ra rb : BitVec 8) (bytes : BitVec 11) :
    (dmaCount ⟨Enc.rtype op rd ra rb (bytes.zeroExtend 16)⟩).truncate 16 = bytes.zeroExtend 16 := by
  apply BitVec.eq_of_toNat_eq
  have count := Tile.dma_count op rd ra rb bytes
  have small := bytes.isLt
  simp only [BitVec.truncate_eq_setWidth,BitVec.toNat_setWidth,count]

theorem tile_price {m : Machine} (op : Tile.Op) (off : m.core.translated = false) (target : m.core.target = t) {bytes : Nat} {s : Tile.Store}
    (safe : op.Safe bytes s) : (m.charge ⟨op.encode⟩ op.opcode).toNat = op.price t := by
  subst target
  cases op with
  | movi => rfl
  | loadVr => rfl
  | storeVr => rfl
  | vecAdd => rfl
  | dmaLoad d s count =>
    have transfers : m.transfers ⟨Enc.dmaLoad (Tile.reg d) (Tile.reg s) (count.zeroExtend 16)⟩ = true := transfers_core off
      (by rw [Enc.dmaLoad,Enc.rtype_rd,Tile.reg_gpr]) (by rw [Enc.dmaLoad,Enc.rtype_ra,Tile.reg_gpr])
    simp only [Machine.charge,Tile.Op.opcode,Tile.Op.encode,Tile.Op.price,transfers,if_true]
    rw [Enc.dmaLoad,dma_price]
    rfl
  | dmaStore d s count =>
    have transfers : m.transfers ⟨Enc.dmaStore (Tile.reg d) (Tile.reg s) (count.zeroExtend 16)⟩ = true := transfers_core off
      (by rw [Enc.dmaStore,Enc.rtype_rd,Tile.reg_gpr]) (by rw [Enc.dmaStore,Enc.rtype_ra,Tile.reg_gpr])
    simp only [Machine.charge,Tile.Op.opcode,Tile.Op.encode,Tile.Op.price,transfers,if_true]
    rw [Enc.dmaStore,dma_price]
    rfl
  | matmulTile d a b n =>
    have size : ((⟨Enc.matmulTile (Tile.reg d) (Tile.reg a) (Tile.reg b) n⟩ : Instruction).func &&& 0xF).toNat = n.toNat := by
      rw [Enc.matmulTile,Enc.rtype_func]
      exact Tile.tile_size n safe.2
    simp only [Machine.charge,Tile.Op.opcode,Tile.Op.encode,Tile.Op.price,size]
    have wide : BitVec.ofNat 16 n.toNat = n.zeroExtend 16 := by
      apply BitVec.eq_of_toNat_eq
      simp
    rw [wide]
    rfl

theorem Retires.serves {i : Instruction} {op : Opcode} {price : Nat} {c c' : Core} (retires : Retires h i price c c')
    (opcode : i.opcode = some op) : Serves h i price op.bursts c c' := by
  intro m same _
  obtain ⟨cycles,m',ran,core,instructions,total⟩ := retires m same
  exact ⟨cycles,m',ran,core,⟨instructions,total⟩,execute_queues opcode ran⟩

-- One instruction of the code.
theorem Contract.once {w : Word} {price bursts : Nat} (listed : code[p]? = some w)
    (serves : ∀ c, Ready code p c → c.target = t → P c.store → ∃ d, Serves h ⟨w⟩ price bursts c.advance d ∧ Ready code q d ∧
      Q d.store ∧ ((⟨w⟩ : Instruction).endsBlock = false → d.regs.pc = c.regs.pc+4) ∧ d.target = c.target ∧ d.fabric = c.fabric) :
    Contract h t code p P 1 price bursts q Q := by
  intro c ready target pre
  obtain ⟨d,serves,after,post,next,same,fabric⟩ := serves c ready target pre
  exact ⟨d,.cons p 0 0 0 price bursts w c d d ready listed serves next fabric (.start d),after,same.trans target,fabric,post⟩

theorem Contract.op (op : Tile.Op) (listed : code[p]? = some op.encode) : Contract h t code p
    (fun s => op.Safe (4*code.length) s ∧ Q (op.exec h s)) 1 (op.price t) op.opcode.bursts (p+1) Q := by
  refine .once listed fun c ready target pre => ?_
  obtain ⟨safe,post⟩ := pre
  obtain ⟨d,takes,after,store⟩ := ready.performs (h := h) op safe
  have priced : ∀ m : Machine, m.core = c.advance → (m.charge ⟨op.encode⟩ op.opcode).toNat = op.price t := by
    intro m here
    have off : m.core.translated = false := by
      rw [here]
      exact ready.plain.untranslated
    have same : m.core.target = t := by
      rw [here]
      exact target
    exact tile_price op off same safe
  refine ⟨d,takes.serves op.opcode op.encode_opcode priced,after,?_,?_,takes.settings op.encode_opcode⟩
  · rw [store]
    exact post
  · intro _
    rw [after.pc,ready.pc,opPc_next]

theorem Contract.skip : Contract h t code p Q 0 0 0 p Q :=
  fun c ready target pre => ⟨c,.start c,ready,target,rfl,pre⟩

-- A stretch of straight-line instructions. The induction is on the instructions to come.
theorem Contract.ops {program : List Tile.Op} {rest : List Word} (placed : code.drop p = program.map Tile.Op.encode ++ rest) :
    Contract h t code p (fun s => Tile.Safe h (4*code.length) program s ∧ Q (Tile.exec h program s)) program.length
      (program.map (Tile.Op.price t)).sum (program.map fun op => op.opcode.bursts).sum (p+program.length) Q := by
  induction program generalizing p with
  | nil => exact Contract.skip.pre fun _ pre => pre.2
  | cons op later ih =>
    have listed : code[p]? = some op.encode := by
      rw [← List.head?_drop,placed]
      rfl
    have others : code.drop (p+1) = later.map Tile.Op.encode ++ rest := by
      rw [← List.tail_drop,placed]
      rfl
    have whole := (Contract.op (h := h) (t := t) op listed).seq (ih others)
    rw [Nat.add_comm 1,Nat.add_assoc,Nat.add_comm 1] at whole
    exact whole.pre fun _ pre => ⟨pre.1.1,pre.1.2,pre.2⟩

def Tile.Store.assign (s : Tile.Store) (d : Fin numGpr) (value : Word) : Tile.Store := {s with gpr := Novium.assign s.gpr d value}

-- ADD, SUB and MUL, which share a handler.
theorem Contract.arith {op : Opcode} {f : Word → Word → Word} {overflow : Word → Word → Word → Bool} {d a b : Fin numGpr} {price : Nat}
    (listed : code[p]? = some (Enc.rtype op (Tile.reg d) (Tile.reg a) (Tile.reg b) 0))
    (dispatched : ∀ i, handler h op i = onRegs (arith op f overflow i)) (plain : op ≠ .dmaLoad)
    (priced : ∀ (m : Machine) i, (m.charge i op).toNat = price) :
    Contract h t code p (fun s => Q (s.assign d (f (s.gpr a) (s.gpr b)))) 1 price op.bursts (p+1) Q := by
  refine .once listed fun c ready target post => ?_
  have takes := takes_arith (h := h) (i := ⟨Enc.rtype op (Tile.reg d) (Tile.reg a) (Tile.reg b) 0⟩) (d := d) (a := a) (b := b)
    (c := c.advance) (Enc.rtype_opcode ..) (dispatched _) (by rw [Enc.rtype_rd,Tile.reg_gpr]) (by rw [Enc.rtype_ra,Tile.reg_gpr])
    (by rw [Enc.rtype_rb,Tile.reg_gpr])
  have retires := takes.retires op price (Enc.rtype_opcode ..) plain fun m _ => priced m _
  refine ⟨_,retires.serves (Enc.rtype_opcode ..),ready.withRegs rfl ready.running,?_,fun _ => rfl,rfl,rfl⟩
  have gpr : ∀ v : Word, ((c.advance.regs.set d v).updateFlagsU32 v).get = Novium.assign c.advance.regs.get d v :=
    fun v => get_assign c.advance.regs d v
  unfold Core.store
  dsimp only
  rw [gpr]
  exact post

theorem Contract.add {d a b : Fin numGpr} (listed : code[p]? = some (Enc.add (Tile.reg d) (Tile.reg a) (Tile.reg b))) :
    Contract h t code p (fun s => Q (s.assign d (s.gpr a+s.gpr b))) 1 1 0 (p+1) Q :=
  .arith listed (fun _ => rfl) (by decide) fun _ _ => rfl

theorem Contract.mul {d a b : Fin numGpr} (listed : code[p]? = some (Enc.mul (Tile.reg d) (Tile.reg a) (Tile.reg b))) :
    Contract h t code p (fun s => Q (s.assign d (s.gpr a*s.gpr b))) 1 3 0 (p+1) Q :=
  .arith listed (fun _ => rfl) (by decide) fun _ _ => rfl

theorem Contract.bneTaken {a b : Fin numGpr} {off : BitVec 16} (listed : code[p]? = some (Enc.bne (Tile.reg a) (Tile.reg b) off))
    (target : opPc 0 (p+1)+off.signExtend 32 = opPc 0 q) : Contract h t code p (fun s => s.gpr a ≠ s.gpr b ∧ Q s) 1 3 0 q Q := by
  refine .once listed fun c ready _ pre => ?_
  obtain ⟨differ,post⟩ := pre
  have retires := bne_retires h a b off c.advance
  have differ' : c.advance.regs.get a ≠ c.advance.regs.get b := differ
  rw [if_neg differ',if_neg differ'] at retires
  have there : c.advance.regs.pc+off.signExtend 32 = opPc 0 q := by
    rw [← target,← opPc_next,← ready.pc]
    rfl
  refine ⟨_,retires.serves (Enc.btype_opcode ..),ready.redirected there ready.running,post,?_,rfl,rfl⟩
  intro ends
  rw [Instruction.endsBlock,Enc.bne,Enc.btype_opcode] at ends
  cases ends

theorem Contract.bneFalls {a b : Fin numGpr} {off : BitVec 16} (listed : code[p]? = some (Enc.bne (Tile.reg a) (Tile.reg b) off)) :
    Contract h t code p (fun s => s.gpr a = s.gpr b ∧ Q s) 1 2 0 (p+1) Q := by
  refine .once listed fun c ready _ pre => ?_
  obtain ⟨equal,post⟩ := pre
  have retires := bne_retires h a b off c.advance
  have equal' : c.advance.regs.get a = c.advance.regs.get b := equal
  rw [if_pos equal',if_pos equal'] at retires
  exact ⟨_,retires.serves (Enc.btype_opcode ..),ready.withRegs rfl ready.running,post,fun _ => rfl,rfl,rfl⟩

end Contracts

-- What a workload that has run into its HALT leaves of what it was started on.
structure Worked (n k : Nat) (Q : Tile.Store → Prop) (m m' : Machine) : Prop where
  billed : Billed n k m m'
  halted : m'.regs.halt = true
  fabric : m'.axi.cfg = m.axi.cfg
  target : m'.target = m.target
  store : Q m'.core.store

-- Both loops end a workload, one instruction after it comes to its HALT.
theorem Contract.halts {h : Host} {t : TargetProfile} {code : List Word} {n k b q : Nat} {P Q : Tile.Store → Prop}
    (contract : Contract h t code 0 P n k b q Q) (listed : code[q]? = some Enc.halt) (e : Emulator) (ready : Ready code 0 e.core.core)
    (faithful : Faithful code e.blockCache) (target : e.core.target = t) (pre : P e.core.core.store)
    (room : e.core.axi.pending.length+b ≤ e.core.axi.cfg.maxOutstanding.toNat) :
    (∃ m, Reaches (runNext h) (.loop e.core) (.done m) ∧ Worked (n+1) k Q e.core m) ∧
      ∃ e', Reaches (fastNext h) (.loop e) (.done e') ∧ Worked (n+1) k Q e.core e'.core := by
  obtain ⟨d,shift,before,same,fabric,post⟩ := contract e.core.core ready target pre
  have retires := (takes_halt (h := h) (i := ⟨Enc.halt⟩) (c := d.advance) (Enc.make_opcode ..)).retires .halt 0 (Enc.make_opcode ..)
    (by decide) fun _ _ => rfl
  have whole := shift.append (.cons q 0 0 0 0 0 Enc.halt d _ _ before listed (retires.serves (Enc.make_opcode ..)) (fun _ => rfl) rfl (.start _))
  have left : ∀ m : Machine, m.core = {d.advance with regs := {d.advance.regs with halt := true}} → Billed (n+1) k e.core m →
      Worked (n+1) k Q e.core m.flushUart := by
    intro m core billed
    refine ⟨⟨billed.1,billed.2⟩,congrArg (fun c => c.regs.halt) core,(congrArg Core.fabric core).trans fabric,
      (congrArg Core.target core).trans (same.trans target.symm),?_⟩
    have store : m.core.store = d.store := by
      rw [core]
      rfl
    change Q m.core.store
    rw [store]
    exact post
  refine ⟨?_,?_⟩
  · obtain ⟨m,ran,core,billed⟩ := whole.run rfl room
    have halted : m.regs.halt = true := congrArg (fun c => c.regs.halt) core
    exact ⟨m.flushUart,ran.tail (run_halts halted),left m core billed⟩
  · obtain ⟨m,f,ran,fast,core,billed⟩ := whole.fast rfl room (.loop faithful)
    have halted : m.regs.halt = true := congrArg (fun c => c.regs.halt) core
    obtain ⟨cache,ends⟩ := fast.halts (h := h) halted
    exact ⟨⟨m.flushUart,cache⟩,ran.trans ends,left m core billed⟩

end Novium
