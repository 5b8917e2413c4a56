import Novium.Blocks
import Novium.Cycle

namespace Novium
open Storage Effects StateTransition SmallStep
variable {h : Host} {m m' : Machine} {ins : Instruction} {u : MMU} {t : Trap}

theorem FaultSite.handled {op : Opcode} {va : Word} {isStore : Bool} (site : FaultSite m ins op u va isStore) :
    handler h op ins m = .ok 2 (pageFaultOf m u va isStore) := by
  cases site with
  | load base failed =>
    obtain ⟨value,read,rfl⟩ := Option.map_eq_some_iff.mp base
    simp only [handler,Handlers.opLoad]
    rw [Exec.bind_ok (Handlers.readGpr_ok read),Exec.bind_ok (Handlers.resolve_apply ..),failed]
    rfl
  | store base failed =>
    obtain ⟨value,read,rfl⟩ := Option.map_eq_some_iff.mp base
    simp only [handler,Handlers.opStore]
    rw [Exec.bind_ok (Handlers.readGpr_ok read),Exec.bind_ok (Handlers.resolve_apply ..),failed]
    rfl
  | dmaDest kind dest src failed =>
    rcases kind with rfl | rfl
    · apply (Handlers.dma_operands dest src).trans
      rw [failed]
      rfl
    · apply (Handlers.dma_operands dest src).trans
      rw [failed]
      rfl
  | dmaLoadSrc dest src first failed =>
    apply (Handlers.dma_operands dest src).trans
    rw [first,failed]
    rfl
  | dmaStoreSrc dest src first failed =>
    apply (Handlers.dma_operands dest src).trans
    rw [first,failed]
    rfl

theorem FaultSite.executed {op : Opcode} {va : Word} {isStore : Bool} (site : FaultSite m ins op u va isStore)
    (opcode : ins.opcode = some op) : execute h ins m = .ok 2 (account op ins 2 (pageFaultOf m u va isStore)) := by
  simp only [execute,opcode]
  rw [Exec.bind_ok site.handled]
  rfl

theorem TrapSite.executed (site : TrapSite m ins u t) : ∃ m', execute h ins m = .ok 2 m' ∧ Trapped ins m m' := by
  cases site with
  | illegal unknown vectored =>
    have ran : execute h ins m = .ok 2 (m.enterTrap (InterruptController.illegalInstTrap ((m.regs.pc-4).zeroExtend 64) ins.raw)) := by
      simpa [execute,unknown,Novium.illegal,Exec.bind_apply] using vectored
    exact ⟨_,ran,_,_,_,_,.illegal unknown vectored,rfl⟩
  | fault opcode site => exact ⟨_,site.executed opcode,_,_,_,_,.fault opcode site,rfl⟩

theorem TrapSite.straight (site : TrapSite m ins u t) : ins.endsBlock = false := by
  cases site with
  | illegal unknown _ => simp [Instruction.endsBlock,unknown]
  | fault opcode site =>
    cases site with
    | load => simp [Instruction.endsBlock,opcode,Opcode.endsBlock]
    | store => simp [Instruction.endsBlock,opcode,Opcode.endsBlock]
    | dmaDest kind => obtain rfl | rfl := kind <;> simp [Instruction.endsBlock,opcode,Opcode.endsBlock]
    | dmaLoadSrc => simp [Instruction.endsBlock,opcode,Opcode.endsBlock]
    | dmaStoreSrc => simp [Instruction.endsBlock,opcode,Opcode.endsBlock]

theorem Trapped.debugger (trapped : Trapped ins m m') : m'.debugger = m.debugger := by
  obtain ⟨u,t,_,_,_,rfl⟩ := trapped
  rfl

def Traps (m : Machine) (ins : Instruction) : Prop := ∃ u t, TrapSite m ins u t

theorem TrapSite.replayed (site : TrapSite m.advancePc ins u t) :
    ∃ after, replay h ins m = .ok () after.tickPeripherals ∧ Trapped ins m.advancePc after := by
  obtain ⟨after,ran,trapped⟩ := site.executed (h := h)
  refine ⟨after,?_,trapped⟩
  simp only [replay,Exec.bind_apply,Exec.modify_apply,ran]

theorem tick_position (m : Machine) : m.tickPeripherals.regs = m.regs ∧ m.tickPeripherals.debugger = m.debugger :=
  Prod.mk.inj (Machine.tickPeripherals_keeps (fun m => (m.regs,m.debugger)) (fun _ => rfl) m)

-- One replayed instruction, seen from the pc: either it retires at the next word or
-- ends the block, or it was trapped and stands at the vector.
theorem replay_pc (ran : replay h ins m = .ok () m') : m'.debugger = m.debugger ∧
    ((¬ Traps m.advancePc ins ∧ (ins.endsBlock = false → m'.regs.pc = m.regs.pc+4)) ∨
      (Traps m.advancePc ins ∧ m'.regs = {m.regs with pc := m.trapVector})) := by
  by_cases traps : Traps m.advancePc ins
  · obtain ⟨u,t,site⟩ := traps
    obtain ⟨after,again,trapped⟩ := site.replayed (h := h)
    rw [ran] at again
    cases again
    obtain ⟨regs,debugger⟩ := tick_position after
    rw [regs,debugger]
    exact ⟨trapped.debugger,.inr ⟨⟨u,t,site⟩,trapped.regs⟩⟩
  · have effect := replay_effect h ins m
    rw [ran] at effect
    rcases effect with ⟨after,rfl,retired | ⟨u,t,_,_,site,_⟩⟩
    · obtain ⟨regs,debugger⟩ := tick_position after
      rw [regs,debugger]
      exact ⟨congrArg Control.debugger retired.control,.inl ⟨traps,retired.pc⟩⟩
    · exact absurd ⟨u,t,site⟩ traps

-- The pc is where the operation about to be replayed was decoded from.
def Synced : FastConfig → Prop
  | .block e blk i => ∀ ins, blk.ops[i]? = some ins → e.core.live = true → e.core.regs.pc = opPc blk.startPc i
  | _ => True

-- No trap is taken with operations of the block still to come, unless the vector is
-- where the block goes on or a breakpoint there stops the loop.
def Undiverted : FastConfig → Prop
  | .block e blk i => ∀ ins, blk.ops[i]? = some ins → e.core.live = true → i+1 < blk.ops.length →
      Traps e.core.advancePc ins →
      e.core.debugger.hasBreakpoint e.core.trapVector = true ∨ e.core.trapVector = opPc blk.startPc (i+1)
  | _ => True

theorem live_iff : m.live = true ↔ m.regs.halt = false ∧ m.debugger.hasBreakpoint m.regs.pc = false := by
  simp [Machine.live]

theorem translate_startPc {cache cache' : BlockCache} {mem : ByteStore} {pc : Word} {blk : DecodedBlock}
    (translated : cache.translate mem pc = (.ok blk,cache')) : blk.startPc = pc := by
  unfold BlockCache.translate at translated
  split at translated
  · rename_i found
    cases translated
    exact cache.keyed pc blk found
  · split at translated
    · cases translated
    · rename_i fresh
      cases translated
      exact freshBlock_startPc fresh

theorem synced_step {c d : FastConfig} (synced : Synced c) (undiverted : Undiverted c) (next : fastNext h c = some d) :
    Synced d := by
  cases fastNext_moves next with
  | traced e live verbose => cases step h e.core <;> trivial
  | entered e blk cache live silent translated =>
    intro ins _ _
    rw [translate_startPc translated,opPc_zero]
  | unread => trivial
  | stopped => trivial
  | ended => trivial
  | left => trivial
  | replayed e blk i ins op live =>
    cases ran : replay h ins e.core with
    | thrown err m' => trivial
    | undefined why => trivial
    | ok _ m' =>
      simp only [FastConfig.ofReplay]
      split
      · trivial
      · rename_i continues
        rcases replay_pc ran with ⟨debugger,⟨_,straight⟩ | ⟨traps,vector⟩⟩
        · intro _ _ _
          rw [straight (by simpa using continues),synced ins op live,opPc_next]
        · intro following op' live'
          have more : i+1 < blk.ops.length := (List.getElem?_eq_some_iff.mp op').1
          rcases undiverted ins op live more traps with stopped | same
          · have broken := (live_iff.mp live').2
            rw [debugger,vector,stopped] at broken
            cases broken
          · rw [vector]
            exact same

-- A trap out of a block that goes on leaves the loop unsynchronised: the trapped
-- step itself shows it.
theorem undiverted_of_synced {c : FastConfig} (always : ∀ d, Reaches (fastNext h) c d → Synced d) : Undiverted c := by
  cases c with
  | done e => trivial
  | thrown err e => trivial
  | undefined why => trivial
  | loop e => trivial
  | block e blk i =>
    intro ins op live more traps
    obtain ⟨u,t,site⟩ := traps
    obtain ⟨after,replayed,_⟩ := site.replayed (h := h)
    have straight := site.straight
    have next : fastNext h (.block e blk i) = some (.block ⟨after.tickPeripherals,e.blockCache⟩ blk (i+1)) := by
      simp only [fastNext,op,live,if_true,replayed,FastConfig.ofReplay,straight,Bool.false_eq_true,if_false]
    rcases replay_pc replayed with ⟨debugger,⟨none,_⟩ | ⟨_,regs⟩⟩
    · exact absurd ⟨u,t,site⟩ none
    · cases stopped : e.core.debugger.hasBreakpoint e.core.trapVector with
      | true => exact .inl rfl
      | false =>
        right
        have synced : Synced (.block ⟨after.tickPeripherals,e.blockCache⟩ blk (i+1)) := always _ (.single next)
        have live' : after.tickPeripherals.live = true := by
          rw [live_iff,regs,debugger]
          exact ⟨(live_iff.mp live).1,stopped⟩
        have pc := synced blk.ops[i+1] (List.getElem?_eq_getElem more) live'
        rw [regs] at pc
        exact pc

-- Over whole runs of `run_fast`: the replay stays with the pc exactly as long as no
-- trap is taken in the middle of a block.
theorem replay_synced_iff (h : Host) (e : Emulator) :
    (∀ d, Reaches (fastNext h) (.loop e) d → Synced d) ↔ ∀ d, Reaches (fastNext h) (.loop e) d → Undiverted d := by
  constructor
  · intro synced d path
    exact undiverted_of_synced fun later rest => synced later (path.trans rest)
  · intro undiverted d path
    induction path with
    | refl => trivial
    | tail before step ih => exact synced_step ih (undiverted _ before) step

-- An unknown opcode with a trap vector, and an instruction behind it.
def trappingProgram : Emulator :=
  let e := Emulator.programmed [0xFC000000,Enc.movi 1 5,Enc.halt]
  {e with core := {e.core with csr := e.core.csr.write csrMtvec 0x100}}

theorem replay_unsynced : ¬ ∀ d, Reaches (fastNext (.ieee .scalar)) (.loop trappingProgram) d → Synced d := by
  intro synced
  obtain ⟨d,ran,holds⟩ := reaches_of_any (by decide +kernel :
    (after (fastNext (.ieee .scalar)) 2 (.loop trappingProgram)).any (fun
      | .block e blk i => i == 1 && blk.ops[1]? == some ⟨Enc.movi 1 5⟩ && e.core.live && e.core.regs.pc == 0x100 &&
          blk.startPc == 0
      | _ => false) = true)
  cases d with
  | block e blk i =>
    simp only [Bool.and_eq_true,beq_iff_eq] at holds
    obtain ⟨⟨⟨⟨rfl,op⟩,live⟩,pc⟩,start⟩ := holds
    have expected := synced _ ran ⟨Enc.movi 1 5⟩ op live
    rw [pc,start] at expected
    exact absurd expected (by decide)
  | loop e => cases holds
  | done e => cases holds
  | thrown err e => cases holds
  | undefined why => cases holds

end Novium
