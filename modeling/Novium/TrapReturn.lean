import Novium.ControlState
import Novium.Resumption

namespace Novium
open Storage Effects Relation

namespace InterruptController

theorem mret_mstatus (csr : CSRFile) (b : Nat) (apart : b ∉ [3,7,11,12]) :
    (mret csr).2.mstatus.getLsbD b = csr.mstatus.getLsbD b := by
  unfold mret CSRFile.mstatus
  rw [CSRFile.read_withPriv,CSRFile.read_write_same _ _ _ (by decide) (by decide)]
  by_cases inside : b < 64
  · have masks : ∀ b < 64, b ∉ [3,7,11,12] →
        (1#64 <<< 3).getLsbD b = false ∧ (1#64 <<< 7).getLsbD b = false ∧ (3#64 <<< 11).getLsbD b = false := by decide
    obtain ⟨mie,mpie,mpp⟩ := masks b inside apart
    split
    · simp only [BitVec.getLsbD_or,BitVec.getLsbD_and,BitVec.getLsbD_not,mie,mpie,mpp,inside]
      simp
    · simp only [BitVec.getLsbD_and,BitVec.getLsbD_not,mie,mpie,mpp,inside]
      simp
  · rw [BitVec.getLsbD_of_ge _ _ (by omega),BitVec.getLsbD_of_ge _ _ (by omega)]

theorem mret_other (csr : CSRFile) (addr : BitVec 16) (apart : addr ≠ csrMstatus) :
    (mret csr).2.read addr = csr.read addr := by
  unfold mret
  rw [CSRFile.read_withPriv,CSRFile.read_write_other _ _ _ _ apart]

theorem mret_pc (csr : CSRFile) : (mret csr).1 = csr.read csrMepc := by
  unfold mret
  dsimp only
  rw [CSRFile.read_write_other _ _ _ _ (by decide)]

-- Back from the trap: what was interrupted is as it was, but for the registers trap entry reports in.
structure Undone (csr : CSRFile) (t : Trap) (back : DWord × CSRFile) : Prop where
  pc : back.1 = t.pc
  priv : back.2.priv = csr.priv
  mie : back.2.mstatusMie = csr.mstatusMie
  mstatus : ∀ b, b ∉ [3,7,11,12] → back.2.mstatus.getLsbD b = csr.mstatus.getLsbD b
  other : ∀ addr, addr ∉ [csrMepc,csrMcause,csrMtval,csrMstatus] → back.2.read addr = csr.read addr

theorem mret_takeTrapCsr (csr : CSRFile) (t : Trap) : Undone csr t (mret (takeTrapCsr csr t)) := by
  refine ⟨?_,?_,?_,?_,?_⟩
  · rw [mret_pc,takeTrapCsr_mepc]
  · rw [mret_priv,takeTrapCsr_mstatus,trapMstatus_mpp,PrivilegeLevel.ofBits_bits]
  · rw [mret_mie,takeTrapCsr_mstatus,trapMstatus_mpie]
    rfl
  · intro b apart
    rw [mret_mstatus _ _ apart,takeTrapCsr_mstatus,trapMstatus_other _ _ _ apart]
  · intro addr apart
    have mstatus : addr ≠ csrMstatus := by
      intro same
      rw [same] at apart
      exact apart (by decide)
    rw [mret_other _ _ mstatus,takeTrapCsr_other _ _ _ apart]

end InterruptController

open InterruptController

structure Untrapped (h : Host) (m m' : Machine) : Prop where
  stepped : Stepped h m m'
  count : m'.intc.trapCount = m.intc.trapCount

theorem Untrapped.csr {h : Host} {m m' : Machine} (untrapped : Untrapped h m m') : m'.csr = m.csr := by
  rcases untrapped.stepped.entries.masks with same | ⟨counted,_⟩
  · exact congrArg Prod.snd same
  · exact absurd untrapped.count counted

theorem untrapped_run {h : Host} {m m' : Machine} (path : ReflTransGen (Untrapped h) m m') : m'.csr = m.csr := by
  induction path with
  | refl => rfl
  | tail _ untrapped ih => exact untrapped.csr.trans ih

-- The machine may be anywhere in its program when it has taken the trap.
theorem mret_undoes_trap (h : Host) (i : InterruptController) (csr : CSRFile) (t : Trap) (m m' : Machine)
    (entered : m.csr = (i.takeTrap csr t).2) (path : ReflTransGen (Untrapped h) m m') : Undone csr t (mret m'.csr) := by
  rw [untrapped_run path,entered]
  exact mret_takeTrapCsr csr t

-- A breakpoint at 0x40 from user code with interrupts on; its handler at 0 runs MOVI r1,5.
def userCsr : CSRFile := {CSRFile.initial.write csrMstatus 0x8 with priv := .user}

def inHandler : Machine :=
  {(Emulator.programmed [Enc.movi 1 5,Enc.halt]).core with csr := (InterruptController.initial.takeTrap userCsr (ebreakTrap 0x40)).2}

theorem mret_undoes_trap_user : ∃ m', step (.ieee .scalar) inHandler = .ok () m' ∧ m'.regs.gpr 1 = 5 ∧
    Undone userCsr (ebreakTrap 0x40) (mret m'.csr) := by
  have returns : (step (.ieee .scalar) inHandler).Sat
      (fun _ m' => m'.regs.gpr 1 = 5 ∧ m'.intc.trapCount = inHandler.intc.trapCount) (fun _ _ => False) (fun _ => False) := by
    decide +kernel
  obtain ⟨_,m',ran,result,count⟩ := returns.returns
  exact ⟨m',ran,result,mret_undoes_trap (.ieee .scalar) .initial userCsr _ inHandler m' rfl (.single ⟨.returned ran,count⟩)⟩

end Novium
