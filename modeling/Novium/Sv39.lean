import Mathlib.Algebra.Group.Nat.Defs
import Novium.Isolation

namespace Novium
open Storage

theorem physical_toNat (ppn : DWord) (va : Word) :
    (physical ppn va).toNat = (ppn.toNat*2^12 + va.toNat % 2^12) % 2^32 := by
  have offset : (pageOffset va).toNat = va.toNat % 2^12 := by
    have mask : (pageSize-1 : DWord).toNat = 2^12-1 := by decide
    simp only [pageOffset,BitVec.toNat_and,mask,Nat.and_two_pow_sub_one_eq_mod]
    rw [BitVec.zeroExtend_eq_setWidth,BitVec.toNat_setWidth_of_le (by decide)]
  have small : (pageOffset va).toNat < 2^12 := by
    rw [offset]
    exact Nat.mod_lt _ (by decide)
  have shifted : (ppn <<< pageShift).toNat = (ppn.toNat % 2^52) <<< 12 := by
    rw [BitVec.toNat_shiftLeft,Nat.shiftLeft_eq,Nat.shiftLeft_eq,show pageShift = 12 from rfl]
    omega
  have joined : ((ppn <<< pageShift) ||| pageOffset va).toNat = (ppn.toNat % 2^52)*2^12 + va.toNat % 2^12 := by
    rw [BitVec.toNat_or,shifted,← Nat.shiftLeft_add_eq_or_of_lt small,Nat.shiftLeft_eq,offset]
  unfold physical
  rw [BitVec.truncate_eq_setWidth,BitVec.toNat_setWidth,joined]
  omega

-- Sv39: the low VPN fields of the address below the leaf's level, the address they
-- complete, and the alignment a superpage owes.
def vpnBelow (level : Nat) (va : Word) : Nat := va.toNat/2^12 % 2^(9*level)

def sv39Addr (ppn : DWord) (level : Nat) (va : Word) : Nat :=
  (ppn.toNat/2^(9*level)*2^(9*level) + vpnBelow level va)*2^12 + va.toNat % 2^12

def superpageAligned (ppn : DWord) (level : Nat) : Prop := ppn.toNat % 2^(9*level) = 0

def Sv39Correct (u : MMU) (ram : ByteStore) (csr : CSRFile) (va : Word) (isWrite isFetch : Bool) : Prop :=
  ∀ pte level, leafOf ram csr.satp va = some (pte,level) → ∀ cause t,
    u.translate (some ram) (some csr) va isWrite isFetch cause = some t →
    (∀ pa, t.pa = some pa → sv39Addr pte.ppn level va < 2^32 → pa.toNat = sv39Addr pte.ppn level va) ∧
    (¬ superpageAligned pte.ppn level → t.pa = none)

-- The first page of an aligned superpage, where there is nothing to insert; every
-- level 0 leaf is one.
def SuperpageBase (pte : PageTableEntry) (level : Nat) (va : Word) : Prop :=
  superpageAligned pte.ppn level ∧ (sv39Addr pte.ppn level va < 2^32 → vpnBelow level va = 0)

theorem superpageBase_zero (pte : PageTableEntry) (va : Word) : SuperpageBase pte 0 va := by
  refine ⟨?_,fun _ => ?_⟩
  · simp [superpageAligned,Nat.mod_one]
  · simp [vpnBelow,Nat.mod_one]

theorem physical_eq_sv39_iff {ppn : DWord} {level : Nat} {va : Word} (aligned : superpageAligned ppn level)
    (fits : sv39Addr ppn level va < 2^32) : (physical ppn va).toNat = sv39Addr ppn level va ↔ vpnBelow level va = 0 := by
  have whole : ppn.toNat/2^(9*level)*2^(9*level) = ppn.toNat := Nat.div_mul_cancel (Nat.dvd_of_mod_eq_zero aligned)
  unfold sv39Addr at fits ⊢
  rw [whole] at fits ⊢
  rw [physical_toNat]
  omega

-- With an empty TLB the walk is right exactly where Sv39 has nothing to insert.
theorem sv39_address_iff (u : MMU) (ram : ByteStore) (csr : CSRFile) (enabled : u.enabled = true) (emptied : u.Emptied)
    (mode : csr.satp >>> 60 = 8) (va : Word) (isWrite isFetch : Bool) :
    Sv39Correct u ram csr va isWrite isFetch ↔ ∀ pte level, leafOf ram csr.satp va = some (pte,level) →
      pte.permits csr.priv isWrite isFetch = true → SuperpageBase pte level va := by
  have walked : ¬ (!u.enabled || csr.satp = 0) = true := by
    simp only [enabled,Bool.not_true,Bool.false_or,decide_eq_true_eq]
    intro zero
    rw [zero] at mode
    cases mode
  have answers : ∀ {cause t}, u.translate (some ram) (some csr) va isWrite isFetch cause = some t →
      t.pa = walkAddr ram csr.satp csr.priv va isWrite isFetch := by
    intro cause t ran
    rw [emptied.answer ran,MMU.slowAddr,if_neg walked]
  constructor
  · intro correct pte level leaf granted
    obtain ⟨t,ran,_⟩ := u.translate_total (some ram) (some csr) va isWrite isFetch .none
    have address : t.pa = some (physical pte.ppn va) := by
      rw [answers ran,walkAddr,leaf,Option.bind_some,if_pos granted]
    obtain ⟨exact,faults⟩ := correct pte level leaf _ t ran
    have aligned : superpageAligned pte.ppn level := by
      apply Classical.byContradiction
      intro misaligned
      rw [faults misaligned] at address
      cases address
    exact ⟨aligned,fun fits => (physical_eq_sv39_iff aligned fits).mp (exact _ address fits)⟩
  · intro base pte level leaf cause t ran
    rw [answers ran,walkAddr,leaf,Option.bind_some]
    cases granted : pte.permits csr.priv isWrite isFetch with
    | false => exact ⟨fun pa given => (by cases given),fun _ => rfl⟩
    | true =>
      obtain ⟨aligned,first⟩ := base pte level leaf granted
      refine ⟨?_,fun misaligned => absurd aligned misaligned⟩
      intro pa given fits
      cases given
      exact (physical_eq_sv39_iff aligned fits).mpr (first fits)

-- A 4 KiB page: root at frame 1, tables at frames 2 and 3, leaf to frame 5.
def pageTables : ByteStore :=
  ⟨16384,((((⟨16384,fun _ => 0⟩ : ByteStore).write 4096 (wordBytes 0x801)).write 8192 (wordBytes 0xC01)).write 12288
    (wordBytes 0x1403)).byte⟩

theorem sv39_address_page : Sv39Correct machineMode.1 pageTables machineMode.2 0x10 false false := by
  apply (sv39_address_iff machineMode.1 pageTables machineMode.2 rfl (fun _ => rfl) (by decide) 0x10 false false).mpr
  have found : (leafOf pageTables machineMode.2.satp 0x10).any (fun leaf => leaf.2 == 0 && leaf.1.ppn == 5) = true := by
    decide +kernel
  intro pte level leaf _
  rw [leaf] at found
  simp only [Option.any_some,Bool.and_eq_true,beq_iff_eq] at found
  rw [found.1]
  exact superpageBase_zero pte 0x10

-- The second page of a 1 GiB leaf at frame 0 is sent to the first.
theorem sv39_superpage_offset_lost : ¬ ∀ (u : MMU) (ram : ByteStore) (csr : CSRFile), u.enabled = true → u.Emptied →
    csr.satp >>> 60 = 8 → ∀ va isWrite isFetch, Sv39Correct u ram csr va isWrite isFetch := by
  intro correct
  have lost : (machineMode.1.translate (some supervisorTables) (some machineMode.2) 0x1010 false false none).any
      (fun t => t.pa == some 0x10) = true := by decide +kernel
  have found : (leafOf supervisorTables machineMode.2.satp 0x1010).any (fun leaf => leaf.2 == 2 && leaf.1.ppn == 0) = true := by
    decide +kernel
  obtain ⟨t,ran,answer⟩ := (Option.any_eq_true _ _).mp lost
  obtain ⟨⟨pte,level⟩,leaf,shape⟩ := (Option.any_eq_true _ _).mp found
  simp only [Bool.and_eq_true,beq_iff_eq] at shape answer
  obtain ⟨rfl,frame⟩ := shape
  have exact := (correct machineMode.1 supervisorTables machineMode.2 rfl (fun _ => rfl) (by decide) 0x1010 false false
    pte 2 leaf none t ran).1 0x10 answer
  rw [frame] at exact
  exact absurd (exact (by decide)) (by decide)

end Novium
