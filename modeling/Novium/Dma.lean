import Novium.Mediation
import Novium.ControlState
import Novium.Retirement
import Novium.RunFast

namespace Novium
open Storage Effects Handlers

structure DmaSite.Copied {m : Machine} {i : Instruction} (s : DmaSite m i) (op : Opcode) (m' : Machine) : Prop where
  dest : m'.dmaDest op = (m.dmaDest op).write s.dest.toNat ((m.dmaSrc op).read s.src.toNat (dmaCount i).toNat)
  src : m'.dmaSrc op = m.dmaSrc op

section Bounds
variable {h : Host} {op : Opcode} {i : Instruction} {m pre : Machine}

theorem execute_dma (h : Host) (m : Machine) (opcode : i.opcode = some op) (dma : op.isDma) :
    (execute h i m).Sat
      (fun _ m' => (IsEmpty (DmaSite m i) ∧ Trapped i m m') ∨ ∃ s : DmaSite m i, s.Inside op ∧ s.Copied op m')
      (fun _ m' => ∃ s : DmaSite m i, ¬ s.Admitted op ∧ m'.scratchpad = m.scratchpad ∧ m'.mainRam = m.mainRam)
      (fun _ => ∀ s : DmaSite m i, s.Admitted op) := by
  unfold execute
  rw [opcode]
  simp only [Exec.sat_bind,Exec.modify_apply,Exec.pure_apply,Outcome.sat_ok]
  refine sat_dma h dma ⟨?_,?_,?_,fun admitted _ => admitted⟩
  · intro u va isStore site
    exact .inl ⟨site.unmapped dma,_,_,_,_,.fault opcode site,rfl⟩
  · intro s rejected err
    exact ⟨s,rejected,rfl,rfl⟩
  · intro s inside axi
    refine .inr ⟨s,inside,?_⟩
    rcases dma with rfl | rfl
    · exact ⟨rfl,rfl⟩
    · exact ⟨rfl,rfl⟩

def DmaConfined (op : Opcode) (i : Instruction) (m : Machine) : Prop :=
  ∃ dest src, m.regs.readGpr i.rd.toNat = some dest ∧ m.regs.readGpr i.ra.toNat = some src ∧
    dest.toNat+(dmaCount i).toNat ≤ (m.dmaDest op).size ∧ src.toNat+(dmaCount i).toNat ≤ (m.dmaSrc op).size

-- A range that runs past 2^32 and out of its buffer.
def Wraps (start bytes : Word) (size : Nat) : Prop := 2^32 ≤ start.toNat+bytes.toNat ∧ size < start.toNat+bytes.toNat

-- Both registers exist, and a range that wraps is still caught by one of the tests.
def DmaCaught (op : Opcode) (i : Instruction) (m : Machine) : Prop :=
  ∃ dest src, m.regs.readGpr i.rd.toNat = some dest ∧ m.regs.readGpr i.ra.toNat = some src ∧
    (Wraps dest (dmaCount i) (m.dmaDest op).size ∨ Wraps src (dmaCount i) (m.dmaSrc op).size →
      (m.dmaDest op).size < (dest+dmaCount i).toNat ∨ (m.dmaSrc op).size < (src+dmaCount i).toNat)

theorem unwrapped_inside {start bytes : Word} {size : Nat} (tested : (start+bytes).toNat ≤ size) (straight : ¬ Wraps start bytes size) :
    start.toNat+bytes.toNat ≤ size := by
  unfold Wraps at straight
  rw [BitVec.toNat_add] at tested
  by_cases small : start.toNat+bytes.toNat < 2^32
  · rwa [Nat.mod_eq_of_lt small] at tested
  · omega

theorem DmaSite.Inside.admitted {s : DmaSite m i} (inside : s.Inside op) : s.Admitted op :=
  ⟨Nat.not_lt.mp (dma_admitted inside.1),Nat.not_lt.mp (dma_admitted inside.2)⟩

theorem dma_thrown (h : Host) (m : Machine) (opcode : i.opcode = some op) (dma : op.isDma) :
    (execute h i m).Sat (fun _ _ => ∀ s : DmaSite m i, s.Admitted op)
      (fun _ m' => (∃ s : DmaSite m i, ¬ s.Admitted op) ∧ m'.scratchpad = m.scratchpad ∧ m'.mainRam = m.mainRam)
      (fun _ => ∀ s : DmaSite m i, s.Admitted op) := by
  refine (execute_dma h m opcode dma).mono ?_ ?_ (fun _ admitted => admitted)
  · intro _ m' effect s
    rcases effect with ⟨unmapped,_⟩ | ⟨t,inside,_⟩
    · exact unmapped.elim s
    · rw [s.unique t]
      exact inside.admitted
  · intro _ m' effect
    obtain ⟨s,rejected,kept⟩ := effect
    exact ⟨⟨s,rejected⟩,kept⟩

theorem caught_iff_confined (off : m.mmu.enabled = false) (admitted : ∀ s : DmaSite m i, s.Admitted op) :
    DmaConfined op i m ↔ DmaCaught op i m := by
  constructor
  · intro confined
    obtain ⟨dest,src,readDest,readSrc,insideDest,insideSrc⟩ := confined
    refine ⟨dest,src,readDest,readSrc,?_⟩
    intro wraps
    rcases wraps with wraps | wraps
    · exact absurd wraps.2 (Nat.not_lt.mpr insideDest)
    · exact absurd wraps.2 (Nat.not_lt.mpr insideSrc)
  · intro caught
    obtain ⟨dest,src,readDest,readSrc,caught⟩ := caught
    have tests := admitted (.ofRegs off readDest readSrc)
    have straight : ¬ (Wraps dest (dmaCount i) (m.dmaDest op).size ∨ Wraps src (dmaCount i) (m.dmaSrc op).size) := by
      intro wraps
      rcases caught wraps with beyond | beyond
      · exact Nat.not_lt.mpr tests.1 beyond
      · exact Nat.not_lt.mpr tests.2 beyond
    exact ⟨dest,src,readDest,readSrc,unwrapped_inside tests.1 fun wraps => straight (.inl wraps),
      unwrapped_inside tests.2 fun wraps => straight (.inr wraps)⟩

theorem DmaSite.caught (s : DmaSite m i) (off : m.mmu.enabled = false) (rejected : ¬ s.Admitted op) : DmaCaught op i m := by
  refine ⟨s.destVa,s.srcVa,s.readDest,s.readSrc,fun _ => ?_⟩
  rw [s.unique (.ofRegs off s.readDest s.readSrc)] at rejected
  by_contra passed
  rw [not_or,Nat.not_lt,Nat.not_lt] at passed
  exact rejected passed

def StepConfined (h : Host) (op : Opcode) (i : Instruction) (m : Machine) : Prop :=
  (∃ err m', step h m = .thrown err m' ∧ m'.scratchpad = m.scratchpad ∧ m'.mainRam = m.mainRam) ∨ DmaConfined op i m

theorem dma_bounds_iff (h : Host) (running : m.regs.halt = false) (off : m.mmu.enabled = false)
    (fetched : fetch (saveBefore m.deliverInterrupt) = .ok i pre) (opcode : i.opcode = some op) (dma : op.isDma) :
    StepConfined h op i m ↔ DmaCaught op i m := by
  have scratchpad := fetched_keeps Machine.scratchpad (fun _ _ _ _ _ _ _ _ => rfl) fetched
  have mainRam := fetched_keeps Machine.mainRam (fun _ _ _ _ _ _ _ _ => rfl) fetched
  have confined := fetched_keeps (DmaConfined op i) (fun _ _ _ _ _ _ _ _ => rfl) fetched
  have caught := fetched_keeps (DmaCaught op i) (fun _ _ _ _ _ _ _ _ => rfl) fetched
  have untranslated : pre.mmu.enabled = false := (fetched_mmuKept fetched).1.trans off
  have thrown := dma_thrown h pre opcode dma
  have stepped := step_fetched h running fetched
  unfold StepConfined
  rw [stepped,Exec.bind_apply]
  cases ran : execute h i pre with
  | thrown err m' =>
    rw [ran] at thrown
    obtain ⟨⟨s,rejected⟩,kept,kept'⟩ := thrown
    rw [← caught]
    exact ⟨fun _ => s.caught untranslated rejected,fun _ => .inl ⟨err,m',rfl,kept.trans scratchpad,kept'.trans mainRam⟩⟩
  | ok | undefined =>
    rw [ran] at thrown
    rw [← confined,← caught,← caught_iff_confined untranslated thrown]
    refine or_iff_right ?_
    intro impossible
    obtain ⟨err,m'',impossible,_⟩ := impossible
    cases impossible

end Bounds

def dmaTo (dest : Word) : Machine :=
  {(Emulator.programmed [Enc.dmaLoad 1 0 1]).core with
    regs := {RegisterFile.initial with gpr := Function.update (fun _ => 0) 1 dest}}

theorem dmaTo_fetched (dest : Word) :
    fetch (saveBefore (dmaTo dest).deliverInterrupt) = .ok ⟨Enc.dmaLoad 1 0 1⟩ (dmaTo dest).advancePc := by
  have masked : (dmaTo dest).csr.mstatusMie = false := (by decide : CSRFile.initial.mstatusMie = false)
  have code : (Emulator.programmed [Enc.dmaLoad 1 0 1]).core.scratchpad.word 0 = Enc.dmaLoad 1 0 1 := by decide +kernel
  rw [deliverInterrupt_masked masked,saveBefore_silent rfl,
    fetch_plain (m := dmaTo dest) rfl (by decide : (0 : Word) < mmioBase) (by decide : 0+4 ≤ 512)]
  exact congrArg (fun w => Outcome.ok (⟨w⟩ : Instruction) _) code

theorem dma_bounds_first : StepConfined (.ieee .scalar) .dmaLoad ⟨Enc.dmaLoad 1 0 1⟩ (dmaTo 0x40) := by
  refine (dma_bounds_iff (.ieee .scalar) rfl rfl (dmaTo_fetched 0x40) (by decide) (.inl rfl)).mpr ⟨0x40,0,by decide,by decide,?_⟩
  intro wraps
  rcases wraps with wraps | wraps
  · exact absurd wraps.1 (by decide)
  · exact absurd wraps.1 (by decide)

-- One byte to 0xFFFFFFFF: the sum of the test is 0.
theorem dma_bounds_wrapped : ¬ ∀ (h : Host) (op : Opcode) (i : Instruction) (m pre : Machine), m.regs.halt = false →
    m.mmu.enabled = false → fetch (saveBefore m.deliverInterrupt) = .ok i pre → i.opcode = some op → op.isDma →
    StepConfined h op i m := by
  intro confined
  have stuck : (step (.ieee .scalar) (dmaTo 0xFFFFFFFF)).Sat (fun _ _ => False) (fun _ _ => False) (fun _ => True) := by
    decide +kernel
  rcases confined (.ieee .scalar) .dmaLoad _ (dmaTo 0xFFFFFFFF) _ rfl rfl (dmaTo_fetched 0xFFFFFFFF) (by decide) (.inl rfl) with
    ⟨err,m',threw,_⟩ | ⟨dest,src,readDest,_,inside,_⟩
  · rw [threw] at stuck
    exact stuck
  · have named : (dmaTo 0xFFFFFFFF).regs.readGpr (⟨Enc.dmaLoad 1 0 1⟩ : Instruction).rd.toNat = some 0xFFFFFFFF := by decide
    cases named.symm.trans readDest
    exact absurd inside (by decide)

section Pages
variable {m : Machine} {va base : Word} {isWrite : Bool} {n : Nat}

def Mapped (m : Machine) (va base : Word) (isWrite : Bool) (n : Nat) : Prop :=
  ∀ k < n, ∃ pa, m.byteAddr (va+BitVec.ofNat 32 k) isWrite = some pa ∧ pa.toNat = base.toNat+k

-- The range stays in its page, or the frame of the next page is mapped and follows on.
def RunsOn (m : Machine) (va : Word) (isWrite : Bool) (n : Nat) : Prop :=
  va.toNat%2^12+n ≤ 2^12 ∨ ∃ base next, m.byteAddr va isWrite = some base ∧
    m.byteAddr (va+BitVec.ofNat 32 (2^12-va.toNat%2^12)) isWrite = some next ∧ next.toNat = base.toNat+(2^12-va.toNat%2^12)

theorem mapped_within {k : Nat} (first : m.byteAddr va isWrite = some base) (room : va.toNat%2^12+k < 2^12) :
    ∃ pa, m.byteAddr (va+BitVec.ofNat 32 k) isWrite = some pa ∧ pa.toNat = base.toNat+k := by
  have offset := (MMU.answer_source first).offset
  exact ⟨_,byteAddr_within room first,add_within (by omega)⟩

theorem mapped_iff (small : n ≤ 2^12) (first : m.byteAddr va isWrite = some base) : Mapped m va base isWrite n ↔ RunsOn m va isWrite n := by
  have low : va.toNat%2^12 < 2^12 := Nat.mod_lt _ (by decide)
  constructor
  · intro mapped
    by_cases inside : va.toNat%2^12+n ≤ 2^12
    · exact .inl inside
    · obtain ⟨next,found,place⟩ := mapped (2^12-va.toNat%2^12) (by omega)
      exact .inr ⟨base,next,first,found,place⟩
  · intro runs k within
    by_cases inside : va.toNat%2^12+k < 2^12
    · exact mapped_within first inside
    · rcases runs with fits | ⟨base',next,first',found,place⟩
      · omega
      · cases first.symm.trans first'
        have split : k = (2^12-va.toNat%2^12)+(k-(2^12-va.toNat%2^12)) := by omega
        have start : (va+BitVec.ofNat 32 (2^12-va.toNat%2^12)).toNat%2^12 = 0 := by
          rw [BitVec.toNat_add,BitVec.toNat_ofNat]
          omega
        obtain ⟨pa,later,there⟩ := mapped_within (k := k-(2^12-va.toNat%2^12)) found (by omega)
        refine ⟨pa,?_,by omega⟩
        rw [split,BitVec.ofNat_add,← BitVec.add_assoc]
        exact later

end Pages

section Copies
variable {h : Host} {op : Opcode} {i : Instruction} {m m' : Machine}

-- Byte k goes from where its own address is read to where its own address is written. Each
-- operand is translated in the state in which the handler translates it.
def DmaSite.ByteByByte (s : DmaSite m i) (op : Opcode) (m' : Machine) : Prop :=
  ∀ k < (dmaCount i).toNat, ∃ source target,
    (m.afterResolve s.destVa true).byteAddr (s.srcVa+BitVec.ofNat 32 k) false = some source ∧ source.toNat = s.src.toNat+k ∧
    m.byteAddr (s.destVa+BitVec.ofNat 32 k) true = some target ∧ target.toNat = s.dest.toNat+k ∧
    (m'.dmaDest op).byte target.toNat = (m.dmaSrc op).byte source.toNat

def DmaSite.Straight (s : DmaSite m i) : Prop :=
  RunsOn m s.destVa true (dmaCount i).toNat ∧ RunsOn (m.afterResolve s.destVa true) s.srcVa false (dmaCount i).toNat

theorem dmaCount_small (i : Instruction) : (dmaCount i).toNat ≤ 2^12 := by
  have bound := i.func.isLt
  unfold dmaCount
  rw [BitVec.zeroExtend_eq_setWidth,BitVec.toNat_setWidth_of_le (by decide)]
  omega

theorem DmaSite.byteByByte_iff (s : DmaSite m i) (on : m.mmu.enabled = true) (copied : s.Copied op m') :
    s.ByteByByte op m' ↔ s.Straight := by
  have kept : (m.afterResolve s.destVa true).mmu.enabled = true := (m.resolved_kept s.destVa true).1.trans on
  have dest := s.translatedDest
  have src := s.translatedSrc
  rw [Machine.resolved_on on] at dest
  rw [Machine.resolved_on kept] at src
  unfold Straight
  rw [← mapped_iff (dmaCount_small i) dest,← mapped_iff (dmaCount_small i) src]
  constructor
  · intro bytes
    refine ⟨?_,?_⟩
    · intro k within
      obtain ⟨_,target,_,_,found,place,_⟩ := bytes k within
      exact ⟨target,found,place⟩
    · intro k within
      obtain ⟨source,_,found,place,_⟩ := bytes k within
      exact ⟨source,found,place⟩
  · intro mapped k within
    obtain ⟨target,written,there⟩ := mapped.1 k within
    obtain ⟨source,read,here⟩ := mapped.2 k within
    refine ⟨source,target,read,here,written,there,?_⟩
    rw [there,here,copied.dest]
    exact ByteStore.write_within _ _ (ByteStore.read_listed _ _ within)

theorem dma_pages_iff {cycles : Word} (h : Host) (on : m.mmu.enabled = true) (opcode : i.opcode = some op) (dma : op.isDma)
    (ran : execute h i m = .ok cycles m') (untrapped : ¬ Trapped i m m') :
    ∃ s : DmaSite m i, s.Copied op m' ∧ (s.ByteByByte op m' ↔ s.Straight) := by
  have ends := execute_dma h m opcode dma
  rw [ran] at ends
  rcases ends with ⟨_,trapped⟩ | ⟨s,_,copied⟩
  · exact absurd trapped untrapped
  · exact ⟨s,copied,s.byteByByte_iff on copied⟩

end Copies
-- Page 0 in its own frame and page 1 in frame 3, with the given destination in r1 and the
-- pc past the instruction.
def paged (dest : Word) : Machine :=
  let m := Machine.initial 0x4000 256
  {m with
    mmu := {(m.mmu.identityMap 0 0 1 7).identityMap 0x1000 0x3000 1 7 with enabled := true}
    regs := {RegisterFile.initial with gpr := Function.update (fun _ => 0) 1 dest,pc := 4}}

def twoBytes : Instruction := ⟨Enc.dmaLoad 1 0 2⟩

theorem paged_untrapped {dest : Word} {m' : Machine} (pc : m'.regs.pc = 4) : ¬ Trapped twoBytes (paged dest) m' := by
  intro trapped
  have redirected := congrArg RegisterFile.pc trapped.regs
  rw [pc] at redirected
  exact absurd redirected (by decide : (4 : Word) ≠ (paged 0).trapVector)

theorem dma_pages_inside : ∃ cycles m', execute (.ieee .scalar) twoBytes (paged 0x40) = .ok cycles m' ∧
    ∃ s : DmaSite (paged 0x40) twoBytes, s.ByteByByte .dmaLoad m' := by
  have returns : (execute (.ieee .scalar) twoBytes (paged 0x40)).Sat (fun _ m' => m'.regs.pc = 4) (fun _ _ => False) (fun _ => False) := by
    decide +kernel
  obtain ⟨cycles,m',ran,pc⟩ := returns.returns
  obtain ⟨s,_,exact⟩ := dma_pages_iff (.ieee .scalar) rfl (by decide) (.inl rfl) ran (paged_untrapped pc)
  refine ⟨cycles,m',ran,s,exact.mpr ?_⟩
  have dest : (paged 0x40).regs.readGpr twoBytes.rd.toNat = some 0x40 := by decide
  have src : (paged 0x40).regs.readGpr twoBytes.ra.toNat = some 0 := by decide
  have dest' := dest.symm.trans s.readDest
  have src' := src.symm.trans s.readSrc
  unfold DmaSite.Straight
  rw [← Option.some.inj dest',← Option.some.inj src']
  exact ⟨.inl (by decide),.inl (by decide)⟩

-- The second byte of a copy to 0xFFF goes to 0x1000, which is not where page 1 is.
theorem dma_crosses_page : ¬ ∀ (h : Host) (i : Instruction) (op : Opcode) (m m' : Machine) (cycles : Word), m.mmu.enabled = true →
    i.opcode = some op → op.isDma → execute h i m = .ok cycles m' → ¬ Trapped i m m' → ∃ s : DmaSite m i, s.ByteByByte op m' := by
  intro right
  have returns : (execute (.ieee .scalar) twoBytes (paged 0xFFF)).Sat (fun _ m' => m'.regs.pc = 4) (fun _ _ => False) (fun _ => False) := by
    decide +kernel
  obtain ⟨cycles,m',ran,pc⟩ := returns.returns
  obtain ⟨s,bytes⟩ := right (.ieee .scalar) twoBytes .dmaLoad (paged 0xFFF) m' cycles rfl (by decide) (.inl rfl) ran (paged_untrapped pc)
  obtain ⟨_,target,_,_,found,place,_⟩ := bytes 1 (by decide)
  have dest : (paged 0xFFF).regs.readGpr twoBytes.rd.toNat = some 0xFFF := by decide
  have frame : ((paged 0xFFF).resolved 0xFFF true).1 = some 0xFFF := by decide +kernel
  have next : (paged 0xFFF).byteAddr (0xFFF+BitVec.ofNat 32 1) true = some 0x3000 := by decide +kernel
  have translated := s.translatedDest
  have dest' := dest.symm.trans s.readDest
  rw [← Option.some.inj dest'] at translated found
  have frame' := frame.symm.trans translated
  have next' := next.symm.trans found
  rw [← Option.some.inj frame',← Option.some.inj next'] at place
  exact absurd place (by decide)

end Novium
