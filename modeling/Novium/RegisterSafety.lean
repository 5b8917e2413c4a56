import Novium.Execution
import Novium.Emulator

namespace Novium
open Storage Effects
variable {m : Machine}

-- Any end but a register subscript out of its array.
def NotRegisterIndex (why : Hazard) : Prop := why ≠ .registerIndex

theorem NotRegisterIndex.zeroBurst : NotRegisterIndex .zeroBurst := by
  intro same
  cases same

theorem NotRegisterIndex.outOfBounds : NotRegisterIndex .outOfBounds := by
  intro same
  cases same

def IndexSafe {σ α : Type} (o : Outcome EmulatorError Hazard σ α) : Prop :=
  o.Sat (fun _ _ => True) (fun _ _ => True) NotRegisterIndex

theorem indexSafe_iff {σ α : Type} {o : Outcome EmulatorError Hazard σ α} :
    IndexSafe o ↔ o ≠ .undefined .registerIndex := by
  cases o with
  | ok a s => simp [IndexSafe]
  | thrown e s => simp [IndexSafe]
  | undefined why => simp [IndexSafe,NotRegisterIndex]

namespace Handlers
section Subscripts
variable {r : RegisterFile} {idx : BitVec 5} {E : EmulatorError → RegisterFile → Prop}

theorem indexSafe_readGpr {Q : Word → RegisterFile → Prop} :
    Outcome.Sat Q E NotRegisterIndex (readGpr idx r) ↔ ∃ v, r.readGpr idx.toNat = some v ∧ Q v r := by
  rw [sat_readGpr]
  cases r.readGpr idx.toNat <;> simp [NotRegisterIndex]

theorem indexSafe_writeGpr {value : Word} {Q : Unit → RegisterFile → Prop} :
    Outcome.Sat Q E NotRegisterIndex (writeGpr idx value r) ↔ ∃ r', r.writeGpr idx.toNat value = some r' ∧ Q () r' := by
  rw [sat_writeGpr]
  cases r.writeGpr idx.toNat value <;> simp [NotRegisterIndex]

theorem indexSafe_vr {Q : Fin numVr → RegisterFile → Prop} :
    Outcome.Sat Q E NotRegisterIndex (vr idx r) ↔ ∃ k, RegisterFile.vrIndex idx.toNat = some k ∧ Q k r := by
  rw [sat_vr]
  cases RegisterFile.vrIndex idx.toNat <;> simp [NotRegisterIndex]

end Subscripts
end Handlers

namespace Machine

-- The register fields an instruction reaches, each against the file it is used on.
def registersInRange (m : Machine) (i : Instruction) : Prop :=
  match i.opcode with
  | none | some .nop | some .halt | some .jmp => True
  | some .beq | some .bne | some .mov | some .dmaLoad | some .dmaStore => i.rd.toNat < numGpr ∧ i.ra.toNat < numGpr
  | some .add | some .sub | some .mul => i.rd.toNat < numGpr ∧ i.ra.toNat < numGpr ∧ i.rb.toNat < numGpr
  | some .movi => i.rd.toNat < numGpr
  | some .load => i.ra.toNat < numGpr ∧ ∀ va, m.dataVa i = some va → ∀ addr, (m.resolved va false).1 = some addr →
      m.issues = true → m.addressable addr = true → i.rd.toNat < numGpr
  | some .store => i.ra.toNat < numGpr ∧ ∀ va, m.dataVa i = some va → ∀ addr, (m.resolved va true).1 = some addr →
      i.rd.toNat < numGpr
  | some .loadVr | some .storeVr => i.ra.toNat < numGpr ∧ i.rd.toNat < numVr
  | some .vecAdd => i.rd.toNat < numVr ∧ i.ra.toNat < numVr ∧ i.rb.toNat < numVr
  | some .matmulTile => (i.func &&& 0xF).toNat ≠ 0 → (i.func &&& 0xF).toNat ≤ tileSize →
      i.rd.toNat < numVr ∧ i.ra.toNat < numVr ∧ i.rb.toNat < numVr

end Machine

namespace Handlers
variable {i : Instruction} {r : RegisterFile}

theorem indexSafe_onRegs {α : Type} {x : OnRegs α} : IndexSafe (onRegs x m) ↔ IndexSafe (x m.regs) := by
  unfold IndexSafe
  rw [sat_onRegs]

theorem indexSafe_branch (op : Opcode) (taken : Word → Word → Bool) :
    IndexSafe (branch op taken i r) ↔ i.rd.toNat < numGpr ∧ i.ra.toNat < numGpr := by
  have ends : ∀ rs rt : Word, Outcome.Sat (fun _ _ => True) (fun _ _ => True) NotRegisterIndex
      ((if taken rs rt then do
        Exec.modify fun r : RegisterFile => {r with pc := r.pc+i.offset}
        return cycleWeight op 0 + 1
      else return cycleWeight op 0 : OnRegs Word) r) := by
    intro rs rt
    rw [Exec.ite_apply]
    split <;> trivial
  simp only [IndexSafe,branch,Exec.sat_bind,indexSafe_readGpr,ends,and_true,exists_and_right,
    RegisterFile.readGpr_some]

theorem indexSafe_arith (op : Opcode) (f : Word → Word → Word) (overflow : Word → Word → Word → Bool) :
    IndexSafe (arith op f overflow i r) ↔ i.rd.toNat < numGpr ∧ i.ra.toNat < numGpr ∧ i.rb.toNat < numGpr := by
  simp only [IndexSafe,arith,Exec.sat_bind,indexSafe_readGpr,indexSafe_writeGpr,Exec.modify_apply,Exec.pure_apply,
    Outcome.sat_ok,and_true,RegisterFile.writeGpr_some,exists_and_right,RegisterFile.readGpr_some]
  tauto

theorem indexSafe_opMov : IndexSafe (opMov i r) ↔ i.rd.toNat < numGpr ∧ i.ra.toNat < numGpr := by
  simp only [IndexSafe,opMov,Exec.sat_bind,indexSafe_readGpr,indexSafe_writeGpr,Exec.pure_apply,Outcome.sat_ok,
    and_true,RegisterFile.writeGpr_some,exists_and_right,RegisterFile.readGpr_some]
  tauto

theorem indexSafe_opMovi : IndexSafe (opMovi i r) ↔ i.rd.toNat < numGpr := by
  simp only [IndexSafe,opMovi,Exec.sat_bind,indexSafe_writeGpr,Exec.pure_apply,Outcome.sat_ok,and_true,
    RegisterFile.writeGpr_some]

theorem indexSafe_opVecAdd (h : Host) (accel : Bool) (target : TargetProfile) :
    IndexSafe (opVecAdd h accel target i r) ↔ i.rd.toNat < numVr ∧ i.ra.toNat < numVr ∧ i.rb.toNat < numVr := by
  simp only [IndexSafe,opVecAdd,Exec.sat_bind,indexSafe_vr,Exec.modify_apply,Exec.pure_apply,Outcome.sat_ok,
    and_true,exists_and_right,RegisterFile.vrIndex_some]

theorem indexSafe_opMatmulTile (h : Host) (accel : Bool) (target : TargetProfile) :
    IndexSafe (opMatmulTile h accel target i r) ↔ ((i.func &&& 0xF).toNat ≠ 0 → (i.func &&& 0xF).toNat ≤ tileSize →
      i.rd.toNat < numVr ∧ i.ra.toNat < numVr ∧ i.rb.toNat < numVr) := by
  simp only [IndexSafe,opMatmulTile,Exec.ite_apply]
  split
  · rename_i invalid
    simp only [Exec.throw_apply,Outcome.sat_thrown,true_iff]
    omega
  · rename_i valid
    simp only [Exec.sat_bind,indexSafe_vr,Exec.modify_apply,Exec.pure_apply,Outcome.sat_ok,and_true,exists_and_right,
      RegisterFile.vrIndex_some]
    rw [not_or,Nat.not_lt] at valid
    exact ⟨fun safe _ _ => safe,fun safe => safe valid.1 valid.2⟩

-- What follows a transaction here never looks at the fabric.
theorem indexSafe_issueAxi {later : Machine → Prop} {goal : Prop} {addr bytes : Word} {isWrite : Bool}
    (steady : ∀ axi, later {m with axi := axi} ↔ goal) :
    Outcome.Sat (fun _ m' => later m') (fun _ _ => True) NotRegisterIndex (issueAxi addr bytes isWrite m) ↔
      (m.issues = true → goal) := by
  cases issues : m.issues with
  | true =>
    obtain ⟨axi,ran,_⟩ := issueAxi_issued addr bytes isWrite issues
    rw [ran,Outcome.sat_ok,steady]
    exact ⟨fun safe _ => safe,fun safe => safe rfl⟩
  | false =>
    rw [issueAxi_stuck issues,Outcome.sat_undefined]
    exact ⟨fun _ impossible => (by cases impossible),fun _ => .zeroBurst⟩

theorem indexSafe_busRead {goal : Prop} {addr : Word} :
    Outcome.Sat (fun _ _ => goal) (fun _ _ => True) NotRegisterIndex (Bus.read32 addr m) ↔
      (m.addressable addr = true → goal) := by
  cases reached : m.addressable addr with
  | true =>
    rw [busRead_answers reached,Outcome.sat_ok]
    exact ⟨fun safe _ => safe,fun safe => safe rfl⟩
  | false =>
    refine ⟨fun _ impossible => (by cases impossible),fun _ => ?_⟩
    rcases busRead_fails reached with ⟨e,ran⟩ | ran
    · rw [ran]
      trivial
    · rw [ran]
      exact .outOfBounds

-- A register read first, then the rest of the handler.
theorem indexSafe_bind_readGpr {idx : BitVec 5} {rest : Word → Emu Word} {goal : Prop}
    (tail : ∀ v, m.regs.readGpr idx.toNat = some v → (IndexSafe (rest v m) ↔ goal)) :
    IndexSafe ((onRegs (readGpr idx) >>= rest) m) ↔ idx.toNat < numGpr ∧ goal := by
  unfold IndexSafe
  rw [Exec.sat_bind,sat_onRegs,indexSafe_readGpr,← RegisterFile.readGpr_some (r := m.regs)]
  constructor
  · intro safe
    obtain ⟨v,read,safe⟩ := safe
    exact ⟨⟨v,read⟩,(tail v read).mp safe⟩
  · intro safe
    obtain ⟨⟨v,read⟩,safe⟩ := safe
    exact ⟨v,read,(tail v read).mpr safe⟩

theorem indexSafe_last_readGpr {idx : BitVec 5} {rest : Word → Emu Word} (tail : ∀ v, IndexSafe (rest v m)) :
    IndexSafe ((onRegs (readGpr idx) >>= rest) m) ↔ idx.toNat < numGpr := by
  rw [indexSafe_bind_readGpr fun v _ => iff_true_intro (tail v),and_true]

theorem indexSafe_bind_vr {idx : BitVec 5} {rest : Fin numVr → Emu Word} (tail : ∀ k, IndexSafe (rest k m)) :
    IndexSafe ((onRegs (vr idx) >>= rest) m) ↔ idx.toNat < numVr := by
  unfold IndexSafe
  rw [Exec.sat_bind,sat_onRegs,indexSafe_vr,← RegisterFile.vrIndex_some]
  constructor
  · intro safe
    obtain ⟨k,found,_⟩ := safe
    exact ⟨k,found⟩
  · intro subscript
    obtain ⟨k,found⟩ := subscript
    exact ⟨k,found,tail k⟩

-- Either the translation faults, or the access goes on at the address it gave.
theorem indexSafe_bind_resolve {va : Word} {isWrite : Bool} {rest : Option Word → Emu Word} {goal : Word → Prop}
    (faults : IndexSafe (rest none (m.afterResolve va isWrite)))
    (tail : ∀ addr, IndexSafe (rest (some addr) (m.afterResolve va isWrite)) ↔ goal addr) :
    IndexSafe ((resolve va isWrite >>= rest) m) ↔ ∀ addr, (m.resolved va isWrite).1 = some addr → goal addr := by
  have bound : IndexSafe ((resolve va isWrite >>= rest) m) ↔
      IndexSafe (rest (m.resolved va isWrite).1 (m.afterResolve va isWrite)) := by
    unfold IndexSafe
    rw [Exec.sat_bind,sat_resolve]
  rw [bound]
  cases (m.resolved va isWrite).1 with
  | none => simpa using faults
  | some addr => simpa using tail addr

theorem indexSafe_opLoad : IndexSafe (opLoad i m) ↔ i.ra.toNat < numGpr ∧ ∀ va, m.dataVa i = some va →
    ∀ addr, (m.resolved va false).1 = some addr → m.issues = true → m.addressable addr = true → i.rd.toNat < numGpr := by
  refine indexSafe_bind_readGpr fun base read => ?_
  rw [dataVa_of_base read]
  simp only [Option.some.injEq,forall_eq']
  refine indexSafe_bind_resolve trivial fun addr => ?_
  simp only [IndexSafe,Exec.sat_bind,sat_onRegs,indexSafe_writeGpr,Exec.pure_apply,Outcome.sat_ok,and_true,
    RegisterFile.writeGpr_some,indexSafe_busRead]
  exact indexSafe_issueAxi fun _ => Iff.rfl

theorem indexSafe_opStore : IndexSafe (opStore i m) ↔ i.ra.toNat < numGpr ∧ ∀ va, m.dataVa i = some va →
    ∀ addr, (m.resolved va true).1 = some addr → i.rd.toNat < numGpr := by
  refine indexSafe_bind_readGpr fun base read => ?_
  rw [dataVa_of_base read]
  simp only [Option.some.injEq,forall_eq']
  refine indexSafe_bind_resolve trivial fun addr => ?_
  refine indexSafe_last_readGpr fun value => ?_
  simp only [IndexSafe,Exec.sat_bind]
  refine sat_issueAxi (fun _ _ _ => ?_) (fun _ => .zeroBurst)
  exact sat_busWrite (fun _ _ _ => trivial) (fun _ _ => trivial) (fun _ => .outOfBounds)

theorem indexSafe_opLoadVr : IndexSafe (opLoadVr i m) ↔ i.ra.toNat < numGpr ∧ i.rd.toNat < numVr := by
  refine indexSafe_bind_readGpr fun base _ => indexSafe_bind_vr fun d => ?_
  simp only [IndexSafe,Exec.sat_bind,Exec.get_apply,Outcome.sat_ok,Exec.ite_apply]
  split <;> trivial

theorem indexSafe_opStoreVr : IndexSafe (opStoreVr i m) ↔ i.ra.toNat < numGpr ∧ i.rd.toNat < numVr := by
  refine indexSafe_bind_readGpr fun base _ => indexSafe_bind_vr fun d => ?_
  simp only [IndexSafe,Exec.sat_bind,Exec.get_apply,Outcome.sat_ok,VirtualSRAM.writeBytes]
  split <;> trivial

-- The tail both DMA handlers share: nothing after the two register reads subscripts a file.
theorem indexSafe_dmaTail {destVa srcVa : Word} {rest : Option Word → Option Word → Emu Word}
    (tail : ∀ dest src m, IndexSafe (rest dest src m)) :
    IndexSafe ((do
      let paDest ← resolve destVa true
      let paSrc ← resolve srcVa false
      rest paDest paSrc : Emu Word) m) := by
  unfold IndexSafe
  rw [Exec.sat_bind,sat_resolve,Exec.sat_bind,sat_resolve]
  exact tail _ _ _

theorem indexSafe_copy {fits : Prop} [Decidable fits] {f : Machine → Machine} {cycles : Word} :
    IndexSafe ((if fits then (do Exec.modify f; return cycles) else Exec.undefined .outOfBounds : Emu Word) m) := by
  rw [IndexSafe,Exec.ite_apply]
  split
  · trivial
  · exact .outOfBounds

theorem indexSafe_opDmaLoad : IndexSafe (opDmaLoad i m) ↔ i.rd.toNat < numGpr ∧ i.ra.toNat < numGpr := by
  refine indexSafe_bind_readGpr fun destVa _ => indexSafe_last_readGpr fun srcVa => indexSafe_dmaTail ?_
  intro dest src m
  cases dest with
  | none => trivial
  | some dest =>
    cases src with
    | none => trivial
    | some src =>
      simp only [IndexSafe,Exec.sat_bind,Exec.get_apply,Outcome.sat_ok,Exec.ite_apply]
      split
      · trivial
      · split
        · trivial
        · rw [Exec.sat_bind]
          refine sat_issueAxi (fun _ axi accepted => ?_) (fun _ => .zeroBurst)
          cases accepted with
          | true => exact indexSafe_copy
          | false => exact indexSafe_copy

theorem indexSafe_opDmaStore : IndexSafe (opDmaStore i m) ↔ i.rd.toNat < numGpr ∧ i.ra.toNat < numGpr := by
  refine indexSafe_bind_readGpr fun destVa _ => indexSafe_last_readGpr fun srcVa => indexSafe_dmaTail ?_
  intro dest src m
  cases dest with
  | none => trivial
  | some dest =>
    cases src with
    | none => trivial
    | some src =>
      simp only [IndexSafe,Exec.sat_bind,Exec.get_apply,Outcome.sat_ok,Exec.ite_apply]
      split
      · trivial
      · split
        · trivial
        · rw [Exec.sat_bind]
          exact sat_issueAxi (fun _ axi _ => indexSafe_copy) (fun _ => .zeroBurst)

end Handlers

open Handlers

theorem indexSafe_illegal (i : Instruction) (m : Machine) : IndexSafe (illegal i m) := by
  simp only [IndexSafe,illegal,Exec.sat_bind,Exec.get_apply,Outcome.sat_ok,Exec.ite_apply]
  split <;> trivial

theorem indexSafe_execute (h : Host) (i : Instruction) (m : Machine) : IndexSafe (execute h i m) ↔ m.registersInRange i := by
  cases opcode : i.opcode with
  | none =>
    simp only [execute,opcode,Machine.registersInRange,iff_true]
    exact indexSafe_illegal i m
  | some op =>
    have same : IndexSafe (execute h i m) ↔ IndexSafe (handler h op i m) := by
      simp only [IndexSafe,execute,opcode,Exec.sat_bind,Exec.modify_apply,Exec.pure_apply,Outcome.sat_ok]
    rw [same]
    unfold Machine.registersInRange
    rw [opcode]
    cases op with
    | nop => exact iff_true_intro trivial
    | halt => exact iff_true_intro trivial
    | jmp => exact iff_true_intro trivial
    | beq => exact indexSafe_onRegs.trans (indexSafe_branch ..)
    | bne => exact indexSafe_onRegs.trans (indexSafe_branch ..)
    | add => exact indexSafe_onRegs.trans (indexSafe_arith ..)
    | sub => exact indexSafe_onRegs.trans (indexSafe_arith ..)
    | mul => exact indexSafe_onRegs.trans (indexSafe_arith ..)
    | load => exact indexSafe_opLoad
    | store => exact indexSafe_opStore
    | mov => exact indexSafe_onRegs.trans indexSafe_opMov
    | movi => exact indexSafe_onRegs.trans indexSafe_opMovi
    | loadVr => exact indexSafe_opLoadVr
    | storeVr => exact indexSafe_opStoreVr
    | vecAdd => exact indexSafe_onRegs.trans (indexSafe_opVecAdd ..)
    | matmulTile => exact indexSafe_onRegs.trans (indexSafe_opMatmulTile ..)
    | dmaLoad => exact indexSafe_opDmaLoad
    | dmaStore => exact indexSafe_opDmaStore

-- Executing a word subscripts a register file out of range exactly when a field it
-- reaches is too large for that file.
theorem register_index_safe_iff (h : Host) (i : Instruction) (m : Machine) :
    execute h i m ≠ .undefined .registerIndex ↔ m.registersInRange i := by
  rw [← indexSafe_iff]
  exact indexSafe_execute h i m

-- ADD r31,r0,r0 writes past the sixteen registers.
theorem register_index_escapes : ¬ ∀ i m, execute (.ieee .scalar) i m ≠ .undefined .registerIndex := by
  intro safe
  exact safe ⟨Enc.add 31 0 0⟩ (Machine.initial 512 256) rfl

end Novium
