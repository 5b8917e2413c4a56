import Novium.Lockstep

namespace Novium
open Storage Effects Handlers Outcome

-- What only someone who watches the emulator sets or sees.
structure Watch where
  debugger : Debugger
  verbose : Bool
  lastPc : Word
  lastGpr : Fin numGpr → Word
  txBuffer : List Byte
  stdout : List Output

-- The same execution under another watch.
def Machine.watched (m : Machine) (w : Watch) : Machine :=
  {m with
    debugger := w.debugger
    verbose := w.verbose
    lastPc := w.lastPc
    lastGpr := w.lastGpr
    uart := {m.uart with txBuffer := w.txBuffer}
    stdout := w.stdout}

inductive Watched (m : Machine) : Machine → Prop where
  | under (w : Watch) : Watched m (m.watched w)

def Machine.watch (m : Machine) : Watch := ⟨m.debugger,m.verbose,m.lastPc,m.lastGpr,m.uart.txBuffer,m.stdout⟩

-- An execution that ends alike under both watches.
abbrev SameEnd {α : Type} (o p : Outcome EmulatorError Hazard Machine α) : Prop := Agree (fun _ => False) Eq Watched o p

theorem Watched.of {a b : Machine} (w : Watch) (same : b = a.watched w) : Watched a b := same ▸ .under w

theorem Watched.of_watch {a b : Machine} (same : b = a.watched b.watch) : Watched a b := .of _ same

theorem UartDevice.writeReg_rxBuffer (u : UartDevice) (offset value : Word) : (u.writeReg offset value).1.rxBuffer = u.rxBuffer := by
  unfold writeReg
  dsimp only
  split
  · split <;> rfl
  · rfl

theorem UartDevice.flush_rxBuffer (u : UartDevice) : u.flush.1.rxBuffer = u.rxBuffer := by
  unfold flush
  split <;> rfl

-- What the UART does with its output is watched only.
theorem Watched.printed {m k k' : Machine} {u u' : UartDevice} {out out' : List Output} (w : Watch) (rx : u.rxBuffer = m.uart.rxBuffer)
    (rx' : u'.rxBuffer = m.uart.rxBuffer) (left : k = {m with uart := u,stdout := out})
    (right : k' = {m.watched w with uart := u',stdout := out'}) : Watched k k' := by
  refine .of ⟨w.debugger,w.verbose,w.lastPc,w.lastGpr,u'.txBuffer,out'⟩ ?_
  obtain ⟨tx,received⟩ := u
  obtain ⟨tx',received'⟩ := u'
  cases rx
  cases rx'
  rw [left,right]
  rfl

section Watched
variable {m n : Machine} {i : Instruction}

-- An update of what is not watched commutes with the watch.
theorem Watched.update (related : Watched m n) (f : Machine → Machine) (blind : ∀ w, f (m.watched w) = (f m).watched w) :
    Watched (f m) (f n) := by
  cases related with
  | under w => exact .of w (blind w)

theorem Watched.onRegs {α : Type} (related : Watched m n) (x : OnRegs α) : SameEnd (onRegs x m) (onRegs x n) := by
  cases related with
  | under w => exact .within (.refl _) fun r => .of w rfl

theorem Watched.resolve (related : Watched m n) (va : Word) (isWrite : Bool) : SameEnd (resolve va isWrite m) (resolve va isWrite n) := by
  cases related with
  | under w =>
    rw [resolve_apply,resolve_apply]
    exact .ok rfl (.of w rfl)

theorem Watched.pageFault (related : Watched m n) (va : Word) (isStore : Bool) :
    SameEnd (pageFault va isStore m) (pageFault va isStore n) := by
  cases related with
  | under w => exact .ok rfl (.of w rfl)

theorem Watched.issueAxi (related : Watched m n) (addr bytes : Word) (isWrite : Bool) :
    SameEnd (issueAxi addr bytes isWrite m) (issueAxi addr bytes isWrite n) := by
  cases related with
  | under w =>
    have same : (m.watched w).axi = m.axi ∧ (m.watched w).profiler = m.profiler := ⟨rfl,rfl⟩
    rw [issueAxi_apply,issueAxi_apply,same.1,same.2]
    cases m.axi.issue ⟨0,addr,bytes,isWrite,m.profiler.cycleCount,0,.axi4⟩ m.profiler.cycleCount with
    | none => exact .undefined
    | some answer => exact .ok rfl (.of w rfl)

theorem Watched.busRead (related : Watched m n) (addr : Word) : SameEnd (Bus.read32 addr m) (Bus.read32 addr n) := by
  cases related with
  | under w => exact busRead_agree (.under w) (.of_shared rfl) rfl rfl fun _ => ⟨rfl,fun t => .of w rfl⟩

theorem Watched.busWrite (related : Watched m n) (addr value : Word) :
    SameEnd (Bus.write32 addr value m) (Bus.write32 addr value n) := by
  cases related with
  | under w =>
    refine busWrite_agree (.under w) (.of_shared rfl) rfl (fun s => .of w rfl) (fun _ s => .of w rfl) (fun offset => .of w rfl) ?_
    intro offset
    exact .printed w (m.uart.writeReg_rxBuffer offset value) ((m.watched w).uart.writeReg_rxBuffer offset value) rfl rfl

theorem Watched.flush (related : Watched m n) : Watched m.flushUart n.flushUart := by
  cases related with
  | under w => exact .printed w m.uart.flush_rxBuffer (m.watched w).uart.flush_rxBuffer rfl rfl

theorem Watched.opLoad (related : Watched m n) : SameEnd (opLoad i m) (opLoad i n) := by
  apply (related.onRegs _).bind
  intro base _ m n same related
  subst same
  apply (related.resolve _ _).bind
  intro pa _ m n same related
  subst same
  cases pa with
  | none => exact related.pageFault _ _
  | some addr =>
    apply (related.issueAxi _ _ _).bind
    intro _ _ m n _ related
    apply (related.busRead _).bind
    intro value _ m n same related
    subst same
    apply (related.onRegs _).bind
    intro _ _ m n _ related
    exact .ok rfl related

theorem Watched.opStore (related : Watched m n) : SameEnd (opStore i m) (opStore i n) := by
  apply (related.onRegs _).bind
  intro base _ m n same related
  subst same
  apply (related.resolve _ _).bind
  intro pa _ m n same related
  subst same
  cases pa with
  | none => exact related.pageFault _ _
  | some addr =>
    apply (related.onRegs _).bind
    intro value _ m n same related
    subst same
    apply (related.issueAxi _ _ _).bind
    intro _ _ m n _ related
    apply (related.busWrite _ _).bind
    intro _ _ m n _ related
    exact .ok rfl related

theorem Watched.opLoadVr (related : Watched m n) : SameEnd (opLoadVr i m) (opLoadVr i n) := by
  apply (related.onRegs _).bind
  intro base _ m n same related
  subst same
  apply (related.onRegs _).bind
  intro d _ m n same related
  subst same
  cases related with
  | under w =>
    simp only [Exec.bind_apply,Exec.get_apply,Exec.ite_apply]
    change SameEnd _ (if (base+i.simm16).toNat+vrByteSize ≤ m.scratchpad.size then _ else _)
    split
    · exact .ok rfl (.of w rfl)
    · exact .thrown (.of w rfl)

theorem Watched.opStoreVr (related : Watched m n) : SameEnd (opStoreVr i m) (opStoreVr i n) := by
  apply (related.onRegs _).bind
  intro base _ m n same related
  subst same
  apply (related.onRegs _).bind
  intro source _ m n same related
  subst same
  cases related with
  | under w =>
    have ram : (m.watched w).scratchpad = m.scratchpad ∧ (m.watched w).regs = m.regs := ⟨rfl,rfl⟩
    simp only [Exec.bind_apply,Exec.get_apply,ram.1,ram.2]
    cases VirtualSRAM.writeBytes m.scratchpad (base+i.simm16) (vrBytes (m.regs.vr source)) with
    | error e => exact .thrown (.of w rfl)
    | ok ram => exact .ok rfl (.of w rfl)

theorem Watched.unwatched (related : Watched m n) : n.scratchpad = m.scratchpad ∧ n.mainRam = m.mainRam ∧ n.target = m.target := by
  cases related
  exact ⟨rfl,rfl,rfl⟩

-- The copy at the end of a DMA handler.
theorem Watched.copy (related : Watched m n) (fits : Prop) [Decidable fits] {f : Machine → Machine} (cycles : Word)
    (blind : ∀ m w, f (Machine.watched m w) = (f m).watched w) :
    SameEnd ((if fits then (do Exec.modify f; return cycles : Emu Word) else Exec.undefined .outOfBounds) m)
      ((if fits then (do Exec.modify f; return cycles : Emu Word) else Exec.undefined .outOfBounds) n) := by
  simp only [Exec.ite_apply]
  split
  · exact .ok rfl (related.update f (blind m))
  · exact .undefined

-- Both DMA handlers read and translate their operands before they differ.
theorem Watched.operands (related : Watched m n) {rest : Word → Word → Option Word → Option Word → Emu Word}
    (tail : ∀ destVa srcVa paDest paSrc m n, Watched m n →
      SameEnd (rest destVa srcVa paDest paSrc m) (rest destVa srcVa paDest paSrc n)) :
    let operation : Emu Word := do
      let destVa ← Novium.onRegs (readGpr i.rd)
      let srcVa ← Novium.onRegs (readGpr i.ra)
      let paDest ← Handlers.resolve destVa true
      let paSrc ← Handlers.resolve srcVa false
      rest destVa srcVa paDest paSrc
    SameEnd (operation m) (operation n) := by
  apply (related.onRegs _).bind
  intro destVa _ m n same related
  subst same
  apply (related.onRegs _).bind
  intro srcVa _ m n same related
  subst same
  apply (related.resolve _ _).bind
  intro paDest _ m n same related
  subst same
  apply (related.resolve _ _).bind
  intro paSrc _ m n same related
  subst same
  exact tail _ _ _ _ m n related

theorem Watched.opDmaLoad (related : Watched m n) : SameEnd (opDmaLoad i m) (opDmaLoad i n) := by
  apply related.operands
  intro destVa srcVa paDest paSrc m n related
  cases paDest with
  | none => exact related.pageFault _ _
  | some dest =>
    cases paSrc with
    | none => exact related.pageFault _ _
    | some src =>
      obtain ⟨scratchpad,mainRam,target⟩ := related.unwatched
      dsimp only
      rw [Exec.bind_ok (Exec.get_apply m),Exec.bind_ok (Exec.get_apply n),scratchpad,mainRam,target]
      simp only [Exec.ite_apply]
      split
      · exact .thrown related
      · split
        · exact .thrown related
        · apply Agree.bind (related.issueAxi _ _ _)
          intro accepted _ m n same related
          subst same
          cases accepted with
          | true => exact related.copy _ _ fun _ _ => rfl
          | false =>
            have stalled : Watched {m with profiler := m.profiler.record .dmaLoad 1 0} {n with profiler := n.profiler.record .dmaLoad 1 0} :=
              related.update (fun m => {m with profiler := m.profiler.record .dmaLoad 1 0}) fun _ => rfl
            exact stalled.copy _ _ fun _ _ => rfl

theorem Watched.opDmaStore (related : Watched m n) : SameEnd (opDmaStore i m) (opDmaStore i n) := by
  apply related.operands
  intro destVa srcVa paDest paSrc m n related
  cases paDest with
  | none => exact related.pageFault _ _
  | some dest =>
    cases paSrc with
    | none => exact related.pageFault _ _
    | some src =>
      obtain ⟨scratchpad,mainRam,target⟩ := related.unwatched
      dsimp only
      rw [Exec.bind_ok (Exec.get_apply m),Exec.bind_ok (Exec.get_apply n),scratchpad,mainRam,target]
      simp only [Exec.ite_apply]
      split
      · exact .thrown related
      · split
        · exact .thrown related
        · apply Agree.bind (related.issueAxi _ _ _)
          intro _ _ m n _ related
          exact related.copy _ _ fun _ _ => rfl

theorem Watched.handler (h : Host) {op : Opcode} (related : Watched m n) : SameEnd (handler h op i m) (handler h op i n) := by
  cases op with
  | load => exact related.opLoad
  | store => exact related.opStore
  | loadVr => exact related.opLoadVr
  | storeVr => exact related.opStoreVr
  | vecAdd | matmulTile =>
    cases related with
    | under w => exact Watched.onRegs (.under w) _
  | dmaLoad => exact related.opDmaLoad
  | dmaStore => exact related.opDmaStore
  | _ => exact related.onRegs _

theorem Watched.execute (h : Host) (related : Watched m n) : SameEnd (execute h i m) (execute h i n) := by
  unfold Novium.execute
  cases i.opcode with
  | none =>
    cases related with
    | under w =>
      have vector : (m.watched w).csr = m.csr := rfl
      simp only [illegal,Exec.bind_apply,Exec.get_apply,Exec.ite_apply,vector]
      split
      · exact .ok rfl (.of w rfl)
      · exact .thrown (.of w rfl)
  | some op =>
    apply (related.handler h).bind
    intro cycles _ m n same related
    subst same
    exact .ok rfl (related.update (account op i cycles) fun _ => rfl)

theorem Watched.advancePc (related : Watched m n) : Watched m.advancePc n.advancePc := related.update Machine.advancePc fun _ => rfl

theorem Watched.fetch (related : Watched m n) : SameEnd (fetch m) (fetch n) := by
  unfold Novium.fetch
  cases related with
  | under w =>
    rw [Exec.bind_ok (Exec.get_apply m),Exec.bind_ok (Exec.get_apply _)]
    have same : (m.watched w).mmu = m.mmu ∧ (m.watched w).regs = m.regs := ⟨rfl,rfl⟩
    rw [same.1,same.2]
    split
    · obtain ⟨⟨u,cause,pa⟩,translated,_⟩ := MMU.translate_total m.mmu (some m.scratchpad) (some m.csr) m.regs.pc false true .none
      have translated' : (m.watched w).mmu.translate (some (m.watched w).scratchpad) (some (m.watched w).csr) m.regs.pc false true
          (some .none) = some ⟨u,cause,pa⟩ := translated
      rw [Exec.bind_ok (translate_apply translated),Exec.bind_ok (translate_apply translated')]
      cases pa with
      | none => exact .ok rfl (.of w rfl)
      | some pa =>
        simp only [Exec.ite_apply]
        change SameEnd _ (if pa.toNat+4 ≤ m.scratchpad.size then _ else _)
        split
        · exact .ok rfl (.of w rfl)
        · exact .undefined
    · apply Agree.bind (Watched.busRead (.under w) _)
      intro raw _ m n same related
      subst same
      exact .ok rfl related.advancePc

theorem watched_tick (m : Machine) (w : Watch) : (m.watched w).tickPeripherals = m.tickPeripherals.watched w := by
  have commutes : Function.Semiconj (Machine.watched · w) Machine.tickOnce Machine.tickOnce := fun _ => rfl
  exact (commutes.iterate_right _ m).symm

theorem watched_deliver (m : Machine) (w : Watch) : (m.watched w).deliverInterrupt = m.deliverInterrupt.watched w := by
  have same : (m.watched w).pendingInterrupt = m.pendingInterrupt := rfl
  unfold Machine.deliverInterrupt
  rw [same]
  cases m.pendingInterrupt with
  | none => rfl
  | some irq => rfl

theorem Watched.save (related : Watched m n) : Watched (saveBefore m) (saveBefore n) := by
  cases related with
  | under w =>
    unfold saveBefore
    split <;> split <;> exact .of_watch rfl

theorem Watched.log (related : Watched m n) (pc : Word) (cycles : Word) : Watched (logStep pc i cycles m) (logStep pc i cycles n) := by
  cases related with
  | under w =>
    unfold logStep
    split <;> split <;> exact .of_watch rfl

theorem Watched.cycle (h : Host) (related : Watched m n) : SameEnd (cycle h m) (cycle h n) := by
  have regs : n.regs = m.regs := by cases related; rfl
  unfold Novium.cycle
  rw [Exec.bind_ok (Exec.get_apply m),Exec.bind_ok (Exec.get_apply n),Exec.bind_ok (Exec.modify_apply _ m),
    Exec.bind_ok (Exec.modify_apply _ n),regs]
  apply related.save.fetch.bind
  intro i _ m' n' same related
  subst same
  apply (related.execute h).bind
  intro cycles _ m' n' same related
  subst same
  exact .ok rfl ((related.update Machine.tickPeripherals (watched_tick m')).log _ _)

-- One step looks at nothing that is only watched.
theorem Watched.step (h : Host) (related : Watched m n) : SameEnd (step h m) (step h n) := by
  have regs : n.regs = m.regs := by cases related; rfl
  cases halt : m.regs.halt with
  | true =>
    rw [step_halted h halt,step_halted h (by rw [regs]; exact halt)]
    exact .ok rfl related
  | false =>
    rw [step_running h halt,step_running h (by rw [regs]; exact halt)]
    exact (related.update Machine.deliverInterrupt (watched_deliver m)).cycle h

end Watched
end Novium
