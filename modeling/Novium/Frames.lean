import Novium.Execution

namespace Novium
open Storage Effects

-- The instructions that write memory or a device when they return. A transfer of no bytes is none of them.
def Opcode.stores (op : Opcode) (i : Instruction) : Bool :=
  op == .store || op == .storeVr || (op == .dmaLoad || op == .dmaStore) && Handlers.dmaCount i != 0

namespace Machine

def storage (m : Machine) : ByteStore × ByteStore × UartDevice × Option ByteStore := (m.scratchpad,m.mainRam,m.uart,m.shared)

-- Both operands of a DMA instruction translate.
def transfers (m : Machine) (i : Instruction) : Bool :=
  match m.regs.readGpr i.rd.toNat,m.regs.readGpr i.ra.toNat with
  | some dest,some src => (m.resolved dest true).1.isSome && ((m.afterResolve dest true).resolved src false).1.isSome
  | _,_ => false

-- A DMA_LOAD that will find the fabric full.
def backpressured (m : Machine) (i : Instruction) : Bool := i.opcode == some .dmaLoad && m.transfers i && m.axiFull

-- What the handler itself does to the profiler.
def stallRecord (m : Machine) (i : Instruction) : Profiler :=
  if m.backpressured i then m.profiler.record .dmaLoad 1 0 else m.profiler

end Machine

-- What a handler leaves of memory and of the counters, however it ends. The hard-wired
-- register stays zero.
structure Framed (op : Opcode) (i : Instruction) (m m' : Machine) : Prop where
  tickAccum : m'.tickAccum = m.tickAccum
  profiler : m'.profiler = m.stallRecord i
  storage : op.stores i = false → m'.storage = m.storage
  zero : m.regs.gpr 0 = 0 → m'.regs.gpr 0 = 0

structure Unframed (m m' : Machine) : Prop where
  tickAccum : m'.tickAccum = m.tickAccum
  profiler : m'.profiler = m.profiler
  storage : m'.storage = m.storage
  timer : m'.timer = m.timer

def FrameEffect (op : Opcode) (i : Instruction) (m : Machine) (o : Outcome EmulatorError Hazard Machine Word) : Prop :=
  o.Sat (fun _ m' => Framed op i m m') (fun _ m' => Unframed m m') (fun _ => True)

namespace Handlers
variable {op : Opcode} {i : Instruction} {m : Machine}

theorem stallRecord_other (other : op ≠ .dmaLoad) (opcode : i.opcode = some op) : m.stallRecord i = m.profiler := by
  simp [Machine.stallRecord,Machine.backpressured,opcode,other]

theorem writeGpr_zero {r r' : RegisterFile} {idx : Nat} {value : Word} (wrote : r.writeGpr idx value = some r') :
    r'.gpr 0 = 0 := by
  unfold RegisterFile.writeGpr at wrote
  split at wrote
  · cases wrote
    simp
  · obtain ⟨k,_,rfl⟩ := Option.map_eq_some_iff.mp wrote
    simp

def KeepsZero (x : OnRegs Word) (r : RegisterFile) : Prop :=
  Outcome.Sat (fun _ r' => r.gpr 0 = 0 → r'.gpr 0 = 0) (fun _ _ => True) (fun _ => True) (x r)

theorem branch_keepsZero (op : Opcode) (taken : Word → Word → Bool) (i : Instruction) (r : RegisterFile) :
    KeepsZero (branch op taken i) r := by
  simp only [KeepsZero,branch,Exec.sat_bind,sat_readGpr,implies_true,and_true]
  intro rs _ rt _
  rw [Exec.ite_apply]
  split
  · exact fun zero => zero
  · exact fun zero => zero

theorem arith_keepsZero (op : Opcode) (f : Word → Word → Word) (overflow : Word → Word → Word → Bool) (i : Instruction)
    (r : RegisterFile) : KeepsZero (arith op f overflow i) r := by
  simp only [KeepsZero,arith,Exec.sat_bind,sat_readGpr,sat_writeGpr,implies_true,and_true]
  intro a _ b _ after wrote _
  have zero : after.gpr 0 = 0 := writeGpr_zero wrote
  exact zero

theorem opMov_keepsZero (i : Instruction) (r : RegisterFile) : KeepsZero (opMov i) r := by
  simp only [KeepsZero,opMov,Exec.sat_bind,sat_readGpr,sat_writeGpr,Exec.pure_apply,Outcome.sat_ok,implies_true,and_true]
  intro value _ r' wrote
  exact fun _ => writeGpr_zero wrote

theorem opMovi_keepsZero (i : Instruction) (r : RegisterFile) : KeepsZero (opMovi i) r := by
  simp only [KeepsZero,opMovi,Exec.sat_bind,sat_writeGpr,Exec.pure_apply,Outcome.sat_ok,implies_true,and_true]
  intro r' wrote
  exact fun _ => writeGpr_zero wrote

theorem opVecAdd_keepsZero (h : Host) (accel : Bool) (target : TargetProfile) (i : Instruction) (r : RegisterFile) :
    KeepsZero (opVecAdd h accel target i) r := by
  simp only [KeepsZero,opVecAdd,Exec.sat_bind,sat_vr,Exec.modify_apply,Exec.pure_apply,Outcome.sat_ok,implies_true,and_true,imp_self]

theorem opMatmulTile_keepsZero (h : Host) (accel : Bool) (target : TargetProfile) (i : Instruction) (r : RegisterFile) :
    KeepsZero (opMatmulTile h accel target i) r := by
  simp only [KeepsZero,opMatmulTile,Exec.ite_apply]
  split
  · trivial
  · simp only [Exec.sat_bind,sat_vr,Exec.modify_apply,Exec.pure_apply,Outcome.sat_ok,implies_true,and_true,imp_self]

theorem onRegs_frame {x : OnRegs Word} (zero : KeepsZero x m.regs) (other : op ≠ .dmaLoad) (opcode : i.opcode = some op) :
    FrameEffect op i m (onRegs x m) := by
  unfold FrameEffect
  rw [sat_onRegs]
  have recorded := stallRecord_other (m := m) other opcode
  unfold KeepsZero at zero
  cases ran : x m.regs with
  | ok a r =>
    rw [ran] at zero
    exact ⟨rfl,recorded.symm,fun _ => rfl,zero⟩
  | thrown e r => exact ⟨rfl,rfl,rfl,rfl⟩
  | undefined why => trivial

theorem opLoad_frame (opcode : i.opcode = some .load) : FrameEffect .load i m (opLoad i m) := by
  have recorded := stallRecord_other (m := m) (by decide : Opcode.load ≠ .dmaLoad) opcode
  apply sat_opLoad trivial trivial
  · intro va _ _
    exact ⟨rfl,recorded.symm,fun _ => rfl,fun zero => zero⟩
  · intro va addr axi _ _
    refine sat_busRead (fun _ r wrote => ?_) (fun _ _ => ⟨rfl,rfl,rfl,rfl⟩) (fun _ => trivial)
    exact ⟨rfl,recorded.symm,fun _ => rfl,fun _ => writeGpr_zero wrote⟩

theorem busWrite_frame (addr value : Word) (m : Machine) :
    (Bus.write32 addr value m).Sat (fun _ m' => m'.tickAccum = m.tickAccum ∧ m'.profiler = m.profiler ∧ m'.regs = m.regs)
      (fun _ m' => m' = m) (fun _ => True) := by
  simp only [Bus.write32,Exec.sat_bind,Exec.get_apply,Outcome.sat_ok]
  cases m.deviceAt addr with
  | none =>
    simp only [Exec.sat_bind,Exec.modify_apply,Outcome.sat_ok]
    cases VirtualSRAM.write32 m.scratchpad addr value with
    | error e => exact rfl
    | ok ram => exact ⟨rfl,rfl,rfl⟩
  | some kind =>
    cases kind with
    | timer => exact ⟨rfl,rfl,rfl⟩
    | uart => exact ⟨rfl,rfl,rfl⟩
    | shared =>
      cases m.shared with
      | none => trivial
      | some ram =>
        dsimp only
        rw [Exec.ite_apply]
        split
        · exact ⟨rfl,rfl,rfl⟩
        · trivial

theorem opStore_frame (opcode : i.opcode = some .store) : FrameEffect .store i m (opStore i m) := by
  have recorded := stallRecord_other (m := m) (by decide : Opcode.store ≠ .dmaLoad) opcode
  apply sat_opStore trivial trivial
  · intro va _ _
    exact ⟨rfl,recorded.symm,fun _ => rfl,fun zero => zero⟩
  · intro va addr value axi _ _ _
    refine (busWrite_frame addr value _).mono ?_ ?_ (fun _ _ => trivial)
    · intro _ m' wrote
      obtain ⟨accum,profiler,regs⟩ := wrote
      refine ⟨accum,profiler.trans recorded.symm,(fun impossible => by cases impossible),?_⟩
      intro zero
      rw [regs]
      exact zero
    · intro e m' same
      subst same
      exact ⟨rfl,rfl,rfl,rfl⟩

theorem opLoadVr_frame (opcode : i.opcode = some .loadVr) : FrameEffect .loadVr i m (opLoadVr i m) := by
  have recorded := stallRecord_other (m := m) (by decide : Opcode.loadVr ≠ .dmaLoad) opcode
  apply sat_opLoadVr trivial (fun _ => ⟨rfl,rfl,rfl,rfl⟩)
  intro addr d
  exact ⟨rfl,recorded.symm,fun _ => rfl,fun zero => zero⟩

theorem opStoreVr_frame (opcode : i.opcode = some .storeVr) : FrameEffect .storeVr i m (opStoreVr i m) := by
  have recorded := stallRecord_other (m := m) (by decide : Opcode.storeVr ≠ .dmaLoad) opcode
  apply sat_opStoreVr trivial (fun _ => ⟨rfl,rfl,rfl,rfl⟩)
  intro va source _
  exact ⟨rfl,recorded.symm,(fun impossible => by cases impossible),fun zero => zero⟩

-- A copy of no bytes.
theorem copied_none (still : op.stores i = false) (dma : op = .dmaLoad ∨ op = .dmaStore) (s t : ByteStore) (dest src : Nat) :
    s.write dest (t.read src (dmaCount i).toNat) = s := by
  have empty : dmaCount i = 0 := by
    rcases dma with rfl | rfl
    · simpa [Opcode.stores] using still
    · simpa [Opcode.stores] using still
  rw [empty]
  exact s.write_nothing dest

theorem transfers_site (s : DmaSite m i) : m.transfers i = true := by
  simp [Machine.transfers,s.readDest,s.readSrc,s.translatedDest,s.translatedSrc]

theorem transfers_unmapped (unmapped : IsEmpty (DmaSite m i)) : m.transfers i = false := by
  rw [Bool.eq_false_iff]
  intro transfers
  unfold Machine.transfers at transfers
  split at transfers
  · rename_i dest src readDest readSrc
    rw [Bool.and_eq_true,Option.isSome_iff_exists,Option.isSome_iff_exists] at transfers
    obtain ⟨⟨_,translatedDest⟩,_,translatedSrc⟩ := transfers
    exact unmapped.elim ⟨_,_,_,_,readDest,readSrc,translatedDest,translatedSrc⟩
  · cases transfers

theorem stallRecord_unmapped (unmapped : IsEmpty (DmaSite m i)) : m.stallRecord i = m.profiler := by
  simp [Machine.stallRecord,Machine.backpressured,transfers_unmapped unmapped]

theorem dma_framed (s : DmaSite m i) (opcode : i.opcode = some op) (dma : op.isDma) (axi : Interconnect) :
    Framed op i m (s.copy op axi) := by
  rcases dma with rfl | rfl
  · refine ⟨rfl,?_,?_,fun zero => zero⟩
    · simp [DmaSite.copy,Machine.stallRecord,Machine.backpressured,opcode,transfers_site s]
    · intro still
      have unmoved := copied_none still (.inl rfl) m.scratchpad m.mainRam s.dest.toNat s.src.toNat
      simp [DmaSite.copy,Machine.storage,unmoved]
  · refine ⟨rfl,?_,?_,fun zero => zero⟩
    · rw [stallRecord_other (by decide) opcode]
      rfl
    · intro still
      have unmoved := copied_none still (.inr rfl) m.mainRam m.scratchpad s.dest.toNat s.src.toNat
      simp [DmaSite.copy,Machine.storage,unmoved]

theorem dma_frame (h : Host) (opcode : i.opcode = some op) (dma : op.isDma) : FrameEffect op i m (handler h op i m) := by
  refine sat_dma h dma ⟨?_,?_,?_,fun _ _ => trivial⟩
  · intro u va isStore site
    exact ⟨rfl,(stallRecord_unmapped (site.unmapped dma)).symm,fun _ => rfl,fun zero => zero⟩
  · intro s _ err
    exact ⟨rfl,rfl,rfl,rfl⟩
  · intro s _ axi
    exact dma_framed s opcode dma axi

end Handlers

open Handlers

theorem handler_frame (h : Host) {op : Opcode} {i : Instruction} (m : Machine) (opcode : i.opcode = some op) :
    FrameEffect op i m (handler h op i m) := by
  cases op with
  | load => exact opLoad_frame opcode
  | store => exact opStore_frame opcode
  | loadVr => exact opLoadVr_frame opcode
  | storeVr => exact opStoreVr_frame opcode
  | dmaLoad => exact dma_frame h opcode (.inl rfl)
  | dmaStore => exact dma_frame h opcode (.inr rfl)
  | nop => exact onRegs_frame (fun zero => zero) (by decide) opcode
  | halt => exact onRegs_frame (fun zero => zero) (by decide) opcode
  | jmp => exact onRegs_frame (fun zero => zero) (by decide) opcode
  | beq => exact onRegs_frame (branch_keepsZero _ _ i _) (by decide) opcode
  | bne => exact onRegs_frame (branch_keepsZero _ _ i _) (by decide) opcode
  | add => exact onRegs_frame (arith_keepsZero _ _ _ i _) (by decide) opcode
  | sub => exact onRegs_frame (arith_keepsZero _ _ _ i _) (by decide) opcode
  | mul => exact onRegs_frame (arith_keepsZero _ _ _ i _) (by decide) opcode
  | mov => exact onRegs_frame (opMov_keepsZero i _) (by decide) opcode
  | movi => exact onRegs_frame (opMovi_keepsZero i _) (by decide) opcode
  | vecAdd => exact onRegs_frame (opVecAdd_keepsZero h _ _ i _) (by decide) opcode
  | matmulTile => exact onRegs_frame (opMatmulTile_keepsZero h _ _ i _) (by decide) opcode

-- The same for an instruction as a whole: a handler that returns is accounted for,
-- an illegal instruction that traps is not.
structure Charged (i : Instruction) (cycles : Word) (m m' : Machine) : Prop where
  illegal : i.opcode = none → m'.tickAccum = m.tickAccum ∧ m'.profiler = m.profiler
  handled : ∀ op, i.opcode = some op → m'.tickAccum = m.tickAccum+cycles.zeroExtend 64 ∧
    m'.profiler = (m.stallRecord i).record op cycles (dmaBytesOf op i)
  storage : (∀ op, i.opcode = some op → op.stores i = false) → m'.storage = m.storage
  zero : m.regs.gpr 0 = 0 → m'.regs.gpr 0 = 0

theorem execute_frame (h : Host) (i : Instruction) (m : Machine) :
    (execute h i m).Sat (fun cycles m' => Charged i cycles m m') (fun _ m' => Unframed m m') (fun _ => True) := by
  unfold execute
  cases opcode : i.opcode with
  | none =>
    simp only [illegal,Exec.sat_bind,Exec.get_apply,Outcome.sat_ok,Exec.ite_apply]
    split
    · refine ⟨fun _ => ⟨rfl,rfl⟩,?_,fun _ => rfl,fun zero => zero⟩
      intro op known
      rw [opcode] at known
      cases known
    · exact ⟨rfl,rfl,rfl,rfl⟩
  | some op =>
    simp only [Exec.sat_bind,Exec.modify_apply,Exec.pure_apply,Outcome.sat_ok]
    refine (handler_frame h m opcode).mono ?_ (fun _ _ stopped => stopped) (fun _ _ => trivial)
    intro cycles m' framed
    refine ⟨?_,?_,?_,framed.zero⟩
    · intro unknown
      rw [opcode] at unknown
      cases unknown
    · intro op' known
      cases Option.some.inj (opcode.symm.trans known)
      exact ⟨by simp [account,framed.tickAccum],by simp [account,framed.profiler]⟩
    · intro reads
      exact framed.storage (reads op opcode)

end Novium
