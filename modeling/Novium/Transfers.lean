import Novium.Accounting
import Novium.Dma
import Novium.Histories

namespace Novium
open Storage Effects Handlers Relation

namespace Profiler

@[simp] theorem record_dmaBytes (p : Profiler) (op : Opcode) (cycles : Word) (bytes : DWord) :
    (p.record op cycles bytes).dmaBytes = p.dmaBytes+bytes := by
  unfold record
  dsimp only
  split
  · rfl
  · rename_i none
    have zero : bytes = 0 := by bv_omega
    rw [zero]
    exact (BitVec.add_zero _).symm

end Profiler

-- The bytes an instruction copies between main RAM and scratchpad: a DMA that returns
-- has copied its whole range when both of its operands translated, and nothing else.
def moved (h : Host) (i : Instruction) (m : Machine) : Nat :=
  match execute h i m with
  | .ok _ _ =>
    if (i.opcode = some .dmaLoad ∨ i.opcode = some .dmaStore) ∧ m.transfers i = true then (dmaCount i).toNat else 0
  | _ => 0

def transferred : History Nat := ⟨0,fun h i m total => total+moved h i m⟩

def DmaFaults (i : Instruction) (m : Machine) : Prop :=
  ∃ op u va isStore, i.opcode = some op ∧ op.isDma ∧ dmaCount i ≠ 0 ∧ FaultSite m i op u va isStore

section Instruction
variable {h : Host} {i : Instruction} {op : Opcode} {m m' : Machine} {cycles : Word}

theorem stallRecord_dmaBytes : (m.stallRecord i).dmaBytes = m.profiler.dmaBytes := by
  unfold Machine.stallRecord
  split
  · rw [Profiler.record_dmaBytes]
    exact BitVec.add_zero _
  · rfl

theorem execute_dmaBytes (opcode : i.opcode = some op) (ran : execute h i m = .ok cycles m') :
    m'.profiler.dmaBytes = m.profiler.dmaBytes+dmaBytesOf op i := by
  rw [((execute_charged ran).handled op opcode).2,Profiler.record_dmaBytes,stallRecord_dmaBytes]

theorem moved_other (other : ∀ op, i.opcode = some op → ¬ op.isDma) : moved h i m = 0 := by
  have neither : ¬ (i.opcode = some .dmaLoad ∨ i.opcode = some .dmaStore) := by
    rintro (load | store)
    · exact other _ load (.inl rfl)
    · exact other _ store (.inr rfl)
  unfold moved
  split
  · rw [if_neg fun both => neither both.1]
  · rfl

theorem moved_transfers (opcode : i.opcode = some op) (dma : op.isDma) (ran : execute h i m = .ok cycles m') :
    moved h i m = if m.transfers i = true then (dmaCount i).toNat else 0 := by
  have either : i.opcode = some .dmaLoad ∨ i.opcode = some .dmaStore := by
    rcases dma with rfl | rfl
    · exact .inl opcode
    · exact .inr opcode
  simp only [moved,ran,either,true_and]

theorem moved_copied (opcode : i.opcode = some op) (dma : op.isDma) (ran : execute h i m = .ok cycles m') :
    (IsEmpty (DmaSite m i) ∧ Trapped i m m' ∧ moved h i m = 0) ∨
      ∃ s : DmaSite m i, s.Inside op ∧ s.Copied op m' ∧ moved h i m = (dmaCount i).toNat := by
  have effect := execute_dma h m opcode dma
  rw [ran] at effect
  rw [moved_transfers opcode dma ran]
  rcases effect with ⟨unmapped,trapped⟩ | ⟨s,inside,copied⟩
  · exact .inl ⟨unmapped,trapped,by simp [transfers_unmapped unmapped]⟩
  · exact .inr ⟨s,inside,copied,by simp [transfers_site s]⟩

theorem dmaBytesOf_dma (dma : op.isDma) : dmaBytesOf op i = BitVec.ofNat 64 (dmaCount i).toNat := by
  unfold dmaBytesOf dmaCount
  unfold Opcode.isDma at dma
  rw [if_pos dma]
  apply BitVec.eq_of_toNat_eq
  have small := i.func.isLt
  simp only [BitVec.zeroExtend_eq_setWidth,BitVec.toNat_setWidth,BitVec.toNat_ofNat]
  omega

theorem Trapped.faultSite (trapped : Trapped i m m') (opcode : i.opcode = some op) :
    ∃ u va isStore, FaultSite m i op u va isStore := by
  obtain ⟨u,t,_,_,site,_⟩ := trapped
  cases site with
  | illegal unknown => cases unknown.symm.trans opcode
  | fault known site =>
    cases known.symm.trans opcode
    exact ⟨_,_,_,site⟩

-- What the profiler adds is what was moved, unless the DMA took a page fault.
theorem counted_iff (ran : execute h i m = .ok cycles m') :
    m'.profiler.dmaBytes = m.profiler.dmaBytes+BitVec.ofNat 64 (moved h i m) ↔ ¬ DmaFaults i m := by
  by_cases dma : ∃ op, i.opcode = some op ∧ op.isDma
  · obtain ⟨op,opcode,dma⟩ := dma
    rw [execute_dmaBytes opcode ran,dmaBytesOf_dma dma]
    rcases moved_copied opcode dma ran with ⟨_,trapped,none⟩ | ⟨s,_,_,all⟩
    · obtain ⟨u,va,isStore,site⟩ := trapped.faultSite opcode
      rw [none]
      constructor
      · rintro counted ⟨_,_,_,_,_,_,some,_⟩
        have same := congrArg BitVec.toNat ((BitVec.add_right_inj _).mp counted)
        rw [BitVec.toNat_ofNat,BitVec.toNat_ofNat] at same
        have small := (dmaCount i).isLt
        exact some (BitVec.eq_of_toNat_eq (by change _ = 0; omega))
      · intro smooth
        have zero : dmaCount i = 0 := by
          by_contra some
          exact smooth ⟨op,u,va,isStore,opcode,dma,some,site⟩
        rw [zero]
        rfl
    · rw [all]
      refine ⟨fun _ => ?_,fun _ => rfl⟩
      rintro ⟨op',u,va,isStore,opcode',dma',_,site⟩
      exact (site.unmapped dma').elim s
  · have neither : ∀ op, i.opcode = some op → ¬ op.isDma := fun op opcode dma' => dma ⟨op,opcode,dma'⟩
    rw [moved_other neither]
    refine ⟨fun _ => ?_,fun _ => ?_⟩
    · rintro ⟨op,_,_,_,opcode,dma',_⟩
      exact neither op opcode dma'
    · cases opcode : i.opcode with
      | none =>
        rw [((execute_charged ran).illegal opcode).2]
        exact (BitVec.add_zero _).symm
      | some op =>
        have other := neither op opcode
        unfold Opcode.isDma at other
        rw [execute_dmaBytes opcode ran,dmaBytesOf,if_neg other]
        rfl

end Instruction

theorem transferred_keeps (h : Host) : transferred.Keeps Machine.profiler DmaFaults h
    (fun total m => m.profiler.dmaBytes = BitVec.ofNat 64 total) where
  blind := fun _ _ _ _ _ _ _ _ => rfl
  quiet := fun _ _ _ => rfl
  viewed := by
    intro t m m' same counted
    rw [same]
    exact counted
  returned := by
    intro t i m cycles after counted ran smooth
    rw [Machine.tickPeripherals_keeps Machine.profiler (fun _ => rfl),(counted_iff ran).mpr smooth,counted,← BitVec.ofNat_add]
    rfl
  thrown := by
    intro t i m err after counted ran
    have effect := execute_frame h i m
    rw [ran] at effect
    have none : moved h i m = 0 := by simp only [moved,ran]
    rw [effect.profiler,counted]
    change BitVec.ofNat 64 t = BitVec.ofNat 64 (t+moved h i m)
    rw [none]
    rfl
  reset := fun _ => rfl

-- The byte counter is the number of bytes moved in every run since reset in which no DMA
-- of at least one byte takes a page fault; such a DMA is counted and moves nothing.
theorem dma_bytes_moved (h : Host) :
    (∀ i op m cycles m', i.opcode = some op → op.isDma → execute h i m = .ok cycles m' →
      (IsEmpty (DmaSite m i) ∧ Trapped i m m' ∧ moved h i m = 0) ∨
        ∃ s : DmaSite m i, s.Inside op ∧ s.Copied op m' ∧ moved h i m = (dmaCount i).toNat) ∧
    (∀ i m cycles m', execute h i m = .ok cycles m' →
      (m'.profiler.dmaBytes = m.profiler.dmaBytes+BitVec.ofNat 64 (moved h i m) ↔ ¬ DmaFaults i m)) ∧
    ∀ (e : Emulator) (c : Activity) (total : Nat) (e' : Emulator),
      ReflTransGen (transferred.CallWithout Machine.profiler DmaFaults h) (.idle e.reset,0) (c,total) → c.emulator = some e' →
        e'.core.profiler.dmaBytes = BitVec.ofNat 64 total := by
  refine ⟨fun i op m cycles m' opcode dma ran => moved_copied opcode dma ran,fun i m cycles m' ran => counted_iff ran,?_⟩
  intro e c total e' path found
  have keeps := transferred_keeps h
  exact keeps.path (d := (c,total)) (keeps.start e) path e' found

def plainDma : Emulator := .programmed [Enc.dmaLoad 2 0 4]

theorem plainDma_maps : ¬ plainDma.core.Next DmaFaults := by
  rintro ⟨_,i,pre,fetched,op,u,va,isStore,_,dma,_,site⟩
  have transfers : (fetch (saveBefore plainDma.core.deliverInterrupt)).Sat (fun i pre => pre.transfers i = true)
      (fun _ _ => False) (fun _ => False) := by decide +kernel
  rw [fetched] at transfers
  have unmapped := transfers_unmapped (site.unmapped dma)
  rw [show pre.transfers i = true from transfers] at unmapped
  cases unmapped

theorem dma_bytes_moved_four : ∃ m', step (.ieee .scalar) plainDma.core = .ok () m' ∧ m'.profiler.dmaBytes = BitVec.ofNat 64 4 := by
  have returns : (step (.ieee .scalar) plainDma.core).Sat (fun _ _ => True) (fun _ _ => False) (fun _ => False) := by decide +kernel
  have four : transferred.step (.ieee .scalar) plainDma.core 0 = 4 := by decide +kernel
  obtain ⟨_,m',ran,_⟩ := returns.returns
  have start : transferred.CallWithout Machine.profiler DmaFaults (.ieee .scalar) (.idle (Emulator.initial 512 256).reset,0)
      (.idle plainDma,0) := ⟨_,.configure _ _ _ rfl,id⟩
  have next : transferred.CallWithout Machine.profiler DmaFaults (.ieee .scalar) (.idle plainDma,0)
      (.idle ⟨m',plainDma.blockCache⟩,transferred.step (.ieee .scalar) plainDma.core 0) := ⟨_,.step _ _ _ ran,plainDma_maps⟩
  rw [four] at next
  exact ⟨m',ran,(dma_bytes_moved (.ieee .scalar)).2.2 _ _ 4 ⟨m',plainDma.blockCache⟩ ((ReflTransGen.single start).tail next) rfl⟩

-- A DMA_LOAD of four bytes into a page that is mapped without W.
def readOnlyDma : Emulator :=
  let e := Emulator.programmed [Enc.dmaLoad 2 0 4]
  {e with core := {e.core with mmu := {e.core.mmu.identityMap 0 0 1 5 with enabled := true}}}

theorem faulted_dma_counted : ¬ ∀ (h : Host) (e : Emulator) (c : Activity) (total : Nat) (e' : Emulator),
    ReflTransGen (transferred.AnyCall Machine.profiler DmaFaults h) (.idle e.reset,0) (c,total) → c.emulator = some e' →
      e'.core.profiler.dmaBytes = BitVec.ofNat 64 total := by
  intro right
  have start : transferred.AnyCall Machine.profiler DmaFaults (.ieee .scalar) (.idle (Emulator.initial 512 256).reset,0)
      (.idle readOnlyDma,0) := ⟨_,.configure _ _ _ rfl⟩
  have counts : (step (.ieee .scalar) readOnlyDma.core).Sat (fun _ m' => m'.profiler.dmaBytes = 4) (fun _ _ => False) (fun _ => False) := by
    decide +kernel
  have none : transferred.step (.ieee .scalar) readOnlyDma.core 0 = 0 := by decide +kernel
  obtain ⟨_,m',ran,counted⟩ := counts.returns
  have zero := right _ _ _ _ ⟨m',readOnlyDma.blockCache⟩ ((ReflTransGen.single start).tail ⟨_,.step _ _ _ ran⟩) rfl
  rw [none,counted] at zero
  exact absurd zero (by decide)

end Novium
