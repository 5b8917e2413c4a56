import Novium.Isa

namespace Novium

-- `reserved` is the unnamed value 2, which a cast of MPP can produce.
inductive PrivilegeLevel where
  | user | supervisor | reserved | machine
  deriving DecidableEq, Repr

namespace PrivilegeLevel

def bits : PrivilegeLevel → BitVec 2
  | user => 0
  | supervisor => 1
  | reserved => 2
  | machine => 3

def ofBits (b : BitVec 2) : PrivilegeLevel :=
  if b = 0 then user else if b = 1 then supervisor else if b = 2 then reserved else machine

@[simp] theorem ofBits_bits (p : PrivilegeLevel) : ofBits p.bits = p := by
  cases p <;> rfl

end PrivilegeLevel

abbrev csrSepc : BitVec 16 := 0x141
abbrev csrSatp : BitVec 16 := 0x180
abbrev csrMstatus : BitVec 16 := 0x300
abbrev csrMisa : BitVec 16 := 0x301
abbrev csrMie : BitVec 16 := 0x304
abbrev csrMtvec : BitVec 16 := 0x305
abbrev csrMepc : BitVec 16 := 0x341
abbrev csrMcause : BitVec 16 := 0x342
abbrev csrMtval : BitVec 16 := 0x343

structure CSRFile where
  regs : Fin 4096 → DWord
  priv : PrivilegeLevel

namespace CSRFile

def read (c : CSRFile) (addr : BitVec 16) : DWord :=
  if h : addr.toNat < 4096 then c.regs ⟨addr.toNat,h⟩ else 0

def write (c : CSRFile) (addr : BitVec 16) (val : DWord) : CSRFile :=
  if h : addr.toNat < 4096 then
    if addr = csrMisa then c else {c with regs := Function.update c.regs ⟨addr.toNat,h⟩ val}
  else c

def satp (c : CSRFile) : DWord := c.read csrSatp
def mtvec (c : CSRFile) : DWord := c.read csrMtvec
def mstatus (c : CSRFile) : DWord := c.read csrMstatus
def mstatusMie (c : CSRFile) : Bool := c.mstatus.getLsbD 3

def initial : CSRFile :=
  ⟨Function.update (fun _ => 0) ⟨0x301,by decide⟩ 0x40001100,.machine⟩

theorem read_write_same (c : CSRFile) (addr : BitVec 16) (val : DWord) (slot : addr.toNat < 4096)
    (writable : addr ≠ csrMisa) : (c.write addr val).read addr = val := by
  unfold read write
  rw [dif_pos slot,dif_pos slot,if_neg writable]
  exact Function.update_self _ _ _

theorem read_write_other (c : CSRFile) (addr other : BitVec 16) (val : DWord) (apart : other ≠ addr) :
    (c.write addr val).read other = c.read other := by
  unfold write
  split
  · split
    · rfl
    · unfold read
      split
      · apply Function.update_of_ne
        intro same
        exact apart (BitVec.eq_of_toNat_eq (Fin.mk.inj same))
      · rfl
  · rfl

@[simp] theorem read_withPriv (c : CSRFile) (p : PrivilegeLevel) (addr : BitVec 16) :
    ({c with priv := p} : CSRFile).read addr = c.read addr := rfl

@[simp] theorem write_priv (c : CSRFile) (addr : BitVec 16) (val : DWord) : (c.write addr val).priv = c.priv := by
  unfold write
  split
  · split <;> rfl
  · rfl

end CSRFile

inductive TrapCause where
  | instAddrMisaligned | instAccessFault | illegalInst | breakpoint
  | loadAddrMisaligned | loadAccessFault | storeAddrMisaligned | storeAccessFault
  | envCallU | envCallS | envCallM | instPageFault | loadPageFault | storePageFault
  | supervisorSoft | machineSoft | supervisorTimer | machineTimer | supervisorExternal | machineExternal
  deriving DecidableEq, Repr

def TrapCause.code : TrapCause → BitVec 16
  | instAddrMisaligned => 0 | instAccessFault => 1 | illegalInst => 2 | breakpoint => 3
  | loadAddrMisaligned => 4 | loadAccessFault => 5 | storeAddrMisaligned => 6 | storeAccessFault => 7
  | envCallU => 8 | envCallS => 9 | envCallM => 11
  | instPageFault => 12 | loadPageFault => 13 | storePageFault => 15
  | supervisorSoft => 0x8001 | machineSoft => 0x8003
  | supervisorTimer => 0x8005 | machineTimer => 0x8007
  | supervisorExternal => 0x8009 | machineExternal => 0x800B

structure Trap where
  cause : TrapCause
  tval : DWord
  pc : DWord
  isInterrupt : Bool
  deriving DecidableEq, Repr

-- The constructor of the emulator attaches a CSR file to the controller and to
-- the MMU and never detaches it, so the controller's methods take it directly.
structure InterruptController where
  mip : Word
  externalId : Word
  trapCount : DWord

namespace InterruptController

def initial : InterruptController := ⟨0,0,0⟩

def raiseTimer (i : InterruptController) : InterruptController := {i with mip := i.mip ||| (1#32 <<< 7)}
def clearTimer (i : InterruptController) : InterruptController := {i with mip := i.mip &&& ~~~(1#32 <<< 7)}
def raiseExternal (i : InterruptController) (id : Word) : InterruptController :=
  {i with mip := i.mip ||| (1#32 <<< 11),externalId := id}
def clearExternal (i : InterruptController) : InterruptController := {i with mip := i.mip &&& ~~~(1#32 <<< 11)}
def raiseSoft (i : InterruptController) : InterruptController := {i with mip := i.mip ||| (1#32 <<< 3)}
def clearSoft (i : InterruptController) : InterruptController := {i with mip := i.mip &&& ~~~(1#32 <<< 3)}

def interruptPending (i : InterruptController) (csr : CSRFile) : Bool :=
  if csr.mstatus.getLsbD 3 then (i.mip.zeroExtend 64 &&& csr.read csrMie) != 0 else false

-- Priority: external, timer, soft, then the supervisor lines.
def pendingInterrupt (i : InterruptController) (csr : CSRFile) : Option Trap :=
  if i.interruptPending csr then
    let pending := i.mip &&& (csr.read csrMie).truncate 32
    if pending.getLsbD 11 then some ⟨.machineExternal,0,0,true⟩
    else if pending.getLsbD 7 then some ⟨.machineTimer,0,0,true⟩
    else if pending.getLsbD 3 then some ⟨.machineSoft,0,0,true⟩
    else if pending.getLsbD 9 then some ⟨.supervisorExternal,0,0,true⟩
    else if pending.getLsbD 5 then some ⟨.supervisorTimer,0,0,true⟩
    else none
  else none

-- MSTATUS on entry: MPIE and MPP keep the interrupted MIE and privilege, MIE is cleared.
def trapMstatus (mstatus : DWord) (priv : PrivilegeLevel) : DWord :=
  let cleared := mstatus &&& ~~~((1#64 <<< 7) ||| (1#64 <<< 3) ||| (3#64 <<< 11))
  let saved := if mstatus.getLsbD 3 then cleared ||| (1#64 <<< 7) else cleared
  saved ||| (priv.bits.zeroExtend 64 <<< 11)

def trapCause (t : Trap) : DWord := t.cause.code.zeroExtend 64 ||| (if t.isInterrupt then 1#64 <<< 63 else 0)

def takeTrapCsr (csr : CSRFile) (t : Trap) : CSRFile :=
  let saved := ((csr.write csrMepc t.pc).write csrMcause (trapCause t)).write csrMtval t.tval
  {saved.write csrMstatus (trapMstatus saved.mstatus saved.priv) with priv := .machine}

def takeTrap (i : InterruptController) (csr : CSRFile) (t : Trap) : InterruptController × CSRFile :=
  ({i with trapCount := i.trapCount+1},takeTrapCsr csr t)

def pageFaultTrap (pc va : DWord) (isStore : Bool) : Trap :=
  ⟨if isStore then .storePageFault else .loadPageFault,va,pc,false⟩

def illegalInstTrap (pc : DWord) (inst : Word) : Trap := ⟨.illegalInst,inst.zeroExtend 64,pc,false⟩

def ecallTrap (csr : CSRFile) (pc : DWord) : Trap :=
  ⟨match csr.priv with
    | .user => .envCallU
    | .supervisor => .envCallS
    | _ => .envCallM,0,pc,false⟩

def ebreakTrap (pc : DWord) : Trap := ⟨.breakpoint,0,pc,false⟩

def mret (csr : CSRFile) : DWord × CSRFile :=
  let mstatus := csr.mstatus
  let enabled := if mstatus.getLsbD 7 then mstatus &&& ~~~(1#64 <<< 3) ||| (1#64 <<< 3) else mstatus &&& ~~~(1#64 <<< 3)
  let next := csr.write csrMstatus (enabled &&& ~~~(1#64 <<< 7) &&& ~~~(3#64 <<< 11))
  (next.read csrMepc,{next with priv := .ofBits (mstatus.extractLsb' 11 2)})

def sret (csr : CSRFile) : DWord × CSRFile :=
  let mstatus := csr.mstatus
  let enabled := if mstatus.getLsbD 5 then mstatus &&& ~~~(1#64 <<< 1) ||| (1#64 <<< 1) else mstatus &&& ~~~(1#64 <<< 1)
  let next := csr.write csrMstatus (enabled &&& ~~~(1#64 <<< 5) &&& ~~~(1#64 <<< 8))
  (next.read csrSepc,{next with priv := if mstatus.getLsbD 8 then .supervisor else .user})

theorem trapMstatus_mie (s : DWord) (p : PrivilegeLevel) : (trapMstatus s p).getLsbD 3 = false := by
  unfold trapMstatus
  split <;> simp

theorem trapMstatus_mpie (s : DWord) (p : PrivilegeLevel) : (trapMstatus s p).getLsbD 7 = s.getLsbD 3 := by
  unfold trapMstatus
  cases enabled : s.getLsbD 3 <;> simp

theorem trapMstatus_mpp (s : DWord) (p : PrivilegeLevel) : (trapMstatus s p).extractLsb' 11 2 = p.bits := by
  apply BitVec.eq_of_getLsbD_eq
  intro b small
  have bit : b = 0 ∨ b = 1 := by omega
  unfold trapMstatus
  rcases bit with rfl | rfl
  · split <;> simp
  · split <;> simp

-- Trap entry writes four CSRs and the privilege, and nothing else.
theorem takeTrapCsr_read (csr : CSRFile) (t : Trap) (addr : BitVec 16) :
    (takeTrapCsr csr t).read addr =
      ((((csr.write csrMepc t.pc).write csrMcause (trapCause t)).write csrMtval t.tval).write csrMstatus
        (trapMstatus csr.mstatus csr.priv)).read addr := by
  simp only [takeTrapCsr,CSRFile.read_withPriv,CSRFile.write_priv,CSRFile.mstatus]
  rw [CSRFile.read_write_other _ _ csrMstatus _ (by decide),
    CSRFile.read_write_other _ _ csrMstatus _ (by decide),
    CSRFile.read_write_other _ _ csrMstatus _ (by decide)]

theorem takeTrapCsr_mstatus (csr : CSRFile) (t : Trap) :
    (takeTrapCsr csr t).mstatus = trapMstatus csr.mstatus csr.priv := by
  unfold CSRFile.mstatus
  rw [takeTrapCsr_read,CSRFile.read_write_same _ _ _ (by decide) (by decide)]
  rfl

theorem takeTrapCsr_mtval (csr : CSRFile) (t : Trap) : (takeTrapCsr csr t).read csrMtval = t.tval := by
  rw [takeTrapCsr_read,CSRFile.read_write_other _ _ _ _ (by decide),
    CSRFile.read_write_same _ _ _ (by decide) (by decide)]

theorem takeTrapCsr_mcause (csr : CSRFile) (t : Trap) : (takeTrapCsr csr t).read csrMcause = trapCause t := by
  rw [takeTrapCsr_read,CSRFile.read_write_other _ _ _ _ (by decide),CSRFile.read_write_other _ _ _ _ (by decide),
    CSRFile.read_write_same _ _ _ (by decide) (by decide)]

theorem takeTrapCsr_mepc (csr : CSRFile) (t : Trap) : (takeTrapCsr csr t).read csrMepc = t.pc := by
  rw [takeTrapCsr_read,CSRFile.read_write_other _ _ _ _ (by decide),CSRFile.read_write_other _ _ _ _ (by decide),
    CSRFile.read_write_other _ _ _ _ (by decide),CSRFile.read_write_same _ _ _ (by decide) (by decide)]

theorem takeTrapCsr_other (csr : CSRFile) (t : Trap) (addr : BitVec 16)
    (apart : addr ∉ [csrMepc,csrMcause,csrMtval,csrMstatus]) : (takeTrapCsr csr t).read addr = csr.read addr := by
  simp only [List.mem_cons,List.not_mem_nil,or_false,not_or] at apart
  obtain ⟨mepc,mcause,mtval,mstatus⟩ := apart
  rw [takeTrapCsr_read,CSRFile.read_write_other _ _ _ _ mstatus,CSRFile.read_write_other _ _ _ _ mtval,
    CSRFile.read_write_other _ _ _ _ mcause,CSRFile.read_write_other _ _ _ _ mepc]

end InterruptController
end Novium
