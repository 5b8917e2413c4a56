import Novium.Encoding
import Novium.Lowering
import Novium.RegisterSafety

namespace Novium
open Storage Effects

namespace Opcode

-- The fields a handler subscripts the scalar file with, and the vector file.
def gprFields (op : Opcode) (i : Instruction) : List (BitVec 5) :=
  match op with
  | nop | halt | jmp | vecAdd | matmulTile => []
  | beq | bne | mov | load | store | dmaLoad | dmaStore => [i.rd,i.ra]
  | add | sub | mul => [i.rd,i.ra,i.rb]
  | movi => [i.rd]
  | loadVr | storeVr => [i.ra]

def vrFields (op : Opcode) (i : Instruction) : List (BitVec 5) :=
  match op with
  | vecAdd | matmulTile => [i.rd,i.ra,i.rb]
  | loadVr | storeVr => [i.rd]
  | _ => []

end Opcode

-- A word the dispatch table has a handler for, with every operand that handler uses
-- inside its file and a tile it accepts.
structure RunsAs (op : Opcode) (i : Instruction) : Prop where
  opcode : i.opcode = some op
  gpr : ∀ field ∈ op.gprFields i, field.toNat < numGpr
  vr : ∀ field ∈ op.vrFields i, field.toNat < numVr
  tile : op = .matmulTile → 1 ≤ (i.func &&& 0xF).toNat ∧ (i.func &&& 0xF).toNat ≤ tileSize

def Executable (w : Word) : Prop := ∃ op, RunsAs op ⟨w⟩

-- The lists name what the handlers reach: no executable word subscripts out of range.
theorem RunsAs.registersInRange {op : Opcode} {i : Instruction} (runs : RunsAs op i) (m : Machine) :
    m.registersInRange i := by
  obtain ⟨opcode,gpr,vr,_⟩ := runs
  unfold Machine.registersInRange
  rw [opcode]
  cases op <;> simp only [Opcode.gprFields,Opcode.vrFields,List.forall_mem_cons] at gpr vr ⊢ <;> tauto

theorem Executable.indexSafe {w : Word} (executable : Executable w) (h : Host) (m : Machine) :
    execute h ⟨w⟩ m ≠ .undefined .registerIndex := by
  obtain ⟨op,runs⟩ := executable
  apply indexSafe_iff.mp
  exact (indexSafe_execute h _ m).mpr (runs.registersInRange m)

namespace Enc
variable {rd ra rb : BitVec 8} {func imm : BitVec 16}

def SmallGpr (r : BitVec 8) : Prop := (r.truncate 5).toNat < numGpr
def SmallVr (r : BitVec 8) : Prop := (r.truncate 5).toNat < numVr

instance (r : BitVec 8) : Decidable (SmallGpr r) := inferInstanceAs (Decidable ((r.truncate 5).toNat < numGpr))

theorem executable_arith {op : Opcode} (scalar : op = .add ∨ op = .sub ∨ op = .mul) (first : SmallGpr rd)
    (second : SmallGpr ra) (third : SmallGpr rb) : Executable (rtype op rd ra rb func) := by
  refine ⟨op,rtype_opcode ..,?_,?_,?_⟩
  · rcases scalar with rfl | rfl | rfl <;> simpa [Opcode.gprFields] using ⟨first,second,third⟩
  · rcases scalar with rfl | rfl | rfl <;> simp [Opcode.vrFields]
  · rcases scalar with rfl | rfl | rfl <;> simp

theorem executable_itype {op : Opcode} (scalar : op = .movi ∨ op = .load ∨ op = .store) (first : SmallGpr rd)
    (second : SmallGpr ra) : Executable (itype op rd ra imm) := by
  refine ⟨op,itype_opcode ..,?_,?_,?_⟩
  · rcases scalar with rfl | rfl | rfl
    · simpa [Opcode.gprFields,SmallGpr] using first
    · simpa [Opcode.gprFields] using ⟨first,second⟩
    · simpa [Opcode.gprFields] using ⟨first,second⟩
  · rcases scalar with rfl | rfl | rfl <;> simp [Opcode.vrFields]
  · rcases scalar with rfl | rfl | rfl <;> simp

theorem executable_btype {op : Opcode} (branch : op = .beq ∨ op = .bne) (first : SmallGpr rd) (second : SmallGpr ra) :
    Executable (btype op rd ra imm) := by
  refine ⟨op,btype_opcode ..,?_,?_,?_⟩
  · rcases branch with rfl | rfl <;> simpa [Opcode.gprFields] using ⟨first,second⟩
  · rcases branch with rfl | rfl <;> simp [Opcode.vrFields]
  · rcases branch with rfl | rfl <;> simp

theorem executable_vecAdd (first : SmallVr rd) (second : SmallVr ra) (third : SmallVr rb) :
    Executable (vecAdd rd ra rb) := by
  refine ⟨.vecAdd,rtype_opcode ..,?_,?_,?_⟩
  · simp [Opcode.gprFields]
  · simpa [Opcode.vrFields,vecAdd] using ⟨first,second,third⟩
  · simp

theorem executable_plain {op : Opcode} {w : Word} (plain : op = .nop ∨ op = .halt ∨ op = .jmp)
    (opcode : (⟨w⟩ : Instruction).opcode = some op) : Executable w := by
  refine ⟨op,opcode,?_,?_,?_⟩
  · rcases plain with rfl | rfl | rfl <;> simp [Opcode.gprFields]
  · rcases plain with rfl | rfl | rfl <;> simp [Opcode.vrFields]
  · rcases plain with rfl | rfl | rfl <;> simp

end Enc

namespace TranslationEngine
open Enc

def AllExecutable (words : List Word) : Prop := ∀ w ∈ words, Executable w

-- Masking with fifteen or reducing modulo eight keeps an operand inside its file.
theorem masked_small (field : Word) : SmallGpr (reg field) := by
  have bound : (field &&& 0xF).toNat < 16 := by
    rw [BitVec.toNat_and]
    exact Nat.lt_of_le_of_lt Nat.and_le_right (by decide)
  unfold SmallGpr reg
  simp only [BitVec.truncate_eq_setWidth,BitVec.toNat_setWidth]
  change _ < 16
  omega

theorem reduced_small (field : Word) : SmallVr ((field % 8).truncate 8) := by
  have bound : (field % 8).toNat < 8 := by
    rw [BitVec.toNat_umod]
    exact Nat.mod_lt _ (by decide)
  unfold SmallVr
  simp only [BitVec.truncate_eq_setWidth,BitVec.toNat_setWidth]
  change _ < 8
  omega

theorem allExecutable_one {w : Word} (executable : Executable w) : AllExecutable [w] := by
  simpa [AllExecutable] using executable

theorem allExecutable_two {v w : Word} (first : Executable v) (second : Executable w) : AllExecutable [v,w] := by
  simpa [AllExecutable] using ⟨first,second⟩

theorem translateOneRiscv_executable {w : Word} {tmp : List Word} (accepted : translateOneRiscv w = some tmp) :
    AllExecutable tmp := by
  have small := masked_small
  unfold translateOneRiscv at accepted
  dsimp only at accepted
  split at accepted
  · split at accepted
    · cases accepted
      exact allExecutable_one (executable_arith (.inl rfl) (small _) (small _) (small _))
    · split at accepted
      · cases accepted
        exact allExecutable_one (executable_arith (.inr (.inl rfl)) (small _) (small _) (small _))
      · split at accepted
        · cases accepted
          exact allExecutable_one (executable_arith (.inr (.inr rfl)) (small _) (small _) (small _))
        · cases accepted
  · split at accepted
    · cases accepted
      exact allExecutable_two (executable_itype (.inl rfl) (by decide) (by decide))
        (executable_arith (.inl rfl) (small _) (small _) (by decide))
    · split at accepted
      · cases accepted
        exact allExecutable_one (executable_itype (.inr (.inl rfl)) (small _) (small _))
      · split at accepted
        · cases accepted
          exact allExecutable_one (executable_itype (.inr (.inr rfl)) (small _) (small _))
        · split at accepted
          · split at accepted
            · cases accepted
              exact allExecutable_one (executable_btype (.inl rfl) (small _) (small _))
            · split at accepted
              · cases accepted
                exact allExecutable_one (executable_btype (.inr rfl) (small _) (small _))
              · cases accepted
          · split at accepted
            · cases accepted
              exact allExecutable_one (executable_plain (.inr (.inr rfl)) (jtype_opcode ..))
            · cases accepted

theorem translateOneArm64_executable {w : Word} {tmp : List Word} (accepted : translateOneArm64 w = some tmp) :
    AllExecutable tmp := by
  have small := masked_small
  have lane := reduced_small
  unfold translateOneArm64 at accepted
  dsimp only at accepted
  split at accepted
  · cases accepted
    exact allExecutable_one (executable_arith (.inl rfl) (small _) (small _) (small _))
  · split at accepted
    · cases accepted
      exact allExecutable_one (executable_arith (.inr (.inl rfl)) (small _) (small _) (small _))
    · split at accepted
      · cases accepted
        exact allExecutable_one (executable_itype (.inl rfl) (small _) (by decide))
      · split at accepted
        · cases accepted
          exact allExecutable_one (executable_plain (.inr (.inr rfl)) (jtype_opcode ..))
        · split at accepted
          · cases accepted
            exact allExecutable_one (executable_itype (.inr (.inl rfl)) (small _) (small _))
          · split at accepted
            · cases accepted
              exact allExecutable_one (executable_vecAdd (lane _) (lane _) (lane _))
            · cases accepted

theorem translateOnePtx_executable {line : List Byte} {tmp : List Word} (accepted : translateOnePtx line = some tmp) :
    AllExecutable tmp := by
  have added : Executable (vecAdd 2 0 1) := ⟨.vecAdd,by decide,by decide,by decide,by decide⟩
  have multiplied : Executable (matmulTile 3 0 1 4) := ⟨.matmulTile,by decide,by decide,by decide,by decide⟩
  have loaded : Executable (loadVr 0 5 0) := ⟨.loadVr,by decide,by decide,by decide,by decide⟩
  have stored : Executable (storeVr 3 5 0) := ⟨.storeVr,by decide,by decide,by decide,by decide⟩
  unfold translateOnePtx at accepted
  dsimp only at accepted
  split at accepted
  · cases accepted
  · split at accepted
    · cases accepted
      exact allExecutable_one added
    · split at accepted
      · cases accepted
        exact allExecutable_one multiplied
      · split at accepted
        · cases accepted
          exact allExecutable_one loaded
        · split at accepted
          · cases accepted
            exact allExecutable_one stored
          · split at accepted
            · cases accepted
              exact allExecutable_one (executable_itype (.inl rfl) (by decide) (by decide))
            · split at accepted
              · cases accepted
                exact allExecutable_one (executable_plain (.inr (.inl rfl)) (make_opcode _))
              · cases accepted

-- The loops only append what the one-word and one-line translators returned.
theorem translateWords_executable {one : Word → Option (List Word)}
    (each : ∀ w tmp, one w = some tmp → AllExecutable tmp) (words : List Word) :
    AllExecutable (translateWords one words).1 := by
  rw [translateWords_out]
  intro w listed
  obtain ⟨guest,_,emitted⟩ := List.mem_flatMap.mp listed
  cases accepted : one guest with
  | none =>
    rw [accepted,Option.getD_none,List.mem_singleton] at emitted
    rw [emitted]
    exact executable_plain (.inl rfl) (make_opcode _)
  | some tmp =>
    rw [accepted] at emitted
    exact each guest tmp accepted w emitted

theorem translateLines_out (lines : List (List Byte)) :
    (translateLines lines).1 = lines.flatMap fun line => (translateOnePtx line).getD [] := by
  refine foldl_appends ?_ lines _
  intro acc line
  unfold pushLine
  cases translateOnePtx line with
  | none => simp
  | some tmp => rfl

theorem translateLines_executable (lines : List (List Byte)) : AllExecutable (translateLines lines).1 := by
  rw [translateLines_out]
  intro w listed
  obtain ⟨line,_,emitted⟩ := List.mem_flatMap.mp listed
  cases accepted : translateOnePtx line with
  | none =>
    rw [accepted] at emitted
    cases emitted
  | some tmp =>
    rw [accepted] at emitted
    exact translateOnePtx_executable accepted w emitted

-- A word whose top six bits are those of HALT is a HALT.
theorem halt_of_top {w : Word} (top : w >>> 26 = Opcode.halt.bits.zeroExtend 32) :
    (⟨w⟩ : Instruction).opcode = some .halt := by
  apply opcode_placed
  have field : (w >>> 26).truncate 6 = (⟨w⟩ : Instruction).opcodeBits := by
    unfold Instruction.opcodeBits
    ext k inside
    simp
  rw [← field,top]
  rfl

theorem translateBytes_ptx (data : List Byte) : AllExecutable (translateBytes .ptx data).1 ∧
    ∃ last, (translateBytes .ptx data).1.getLast? = some last ∧ (⟨last⟩ : Instruction).opcode = some .halt := by
  have lines := translateLines_executable (getLines data)
  unfold translateBytes
  dsimp only
  split
  · rename_i ends
    obtain ⟨last,final,top⟩ := Option.map_eq_some_iff.mp ends
    exact ⟨lines,last,final,halt_of_top top⟩
  · refine ⟨?_,Enc.halt,by simp,make_opcode _⟩
    intro w listed
    rcases List.mem_append.mp listed with emitted | added
    · exact lines w emitted
    · rw [List.mem_singleton.mp added]
      exact executable_plain (.inr (.inl rfl)) (make_opcode _)

theorem translated_code_executable (isa : GuestISA) (foreign : isa = .riscv64 ∨ isa = .arm64 ∨ isa = .ptx)
    (data : List Byte) :
    (∀ w ∈ (translateBytes isa data).1, Executable w ∧ ∀ (h : Host) (m : Machine),
      execute h ⟨w⟩ m ≠ .undefined .registerIndex) ∧
    (isa = .ptx → ∃ last, (translateBytes isa data).1.getLast? = some last ∧ (⟨last⟩ : Instruction).opcode = some .halt) := by
  have executable : AllExecutable (translateBytes isa data).1 := by
    rcases foreign with rfl | rfl | rfl
    · exact translateWords_executable (fun _ _ accepted => translateOneRiscv_executable accepted) _
    · exact translateWords_executable (fun _ _ accepted => translateOneArm64_executable accepted) _
    · exact (translateBytes_ptx data).1
  constructor
  · intro w listed
    exact ⟨executable w listed,(executable w listed).indexSafe⟩
  · intro ptx
    subst ptx
    exact (translateBytes_ptx data).2

-- A kernel of four lines that does not return, and a RISC-V image: ADDI, ADD, LW, a word no
-- rule knows, BEQ, and three stray bytes.
def kernelImage : List Byte :=
  ascii "ld.global.f32 %f0, [%r5];\n\tadd.f32 %f2, %f0, %f1; // sum\n\nmma.sync %f3, %f0, %f1;\nst.global.f32 [%r5], %f3;\n"

def riscvImage : List Byte :=
  [0x93,0x00,0x50,0x00,0xB3,0x81,0x20,0x00,0x03,0xA2,0x41,0x00,0x73,0x00,0x00,0x00,0x63,0x84,0x20,0x00,0x13,0x00,0x00]

theorem translated_code_executable_images :
    (translateBytes .ptx kernelImage).1 = [loadVr 0 5 0,vecAdd 2 0 1,matmulTile 3 0 1 4,storeVr 3 5 0,halt] ∧
    (∀ w ∈ [loadVr 0 5 0,vecAdd 2 0 1,matmulTile 3 0 1 4,storeVr 3 5 0,halt], Executable w ∧
      ∀ (h : Host) (m : Machine), execute h ⟨w⟩ m ≠ .undefined .registerIndex) ∧
    (∃ last, (translateBytes .ptx kernelImage).1.getLast? = some last ∧ (⟨last⟩ : Instruction).opcode = some .halt) ∧
    (translateBytes .riscv64 riscvImage).1 = [movi 15 5,add 1 0 15,add 3 1 2,load 4 3 4,nop,beq 1 2 1] ∧
    ∀ w ∈ [movi 15 5,add 1 0 15,add 3 1 2,load 4 3 4,nop,beq 1 2 1], Executable w ∧
      ∀ (h : Host) (m : Machine), execute h ⟨w⟩ m ≠ .undefined .registerIndex := by
  have kernel := translated_code_executable .ptx (.inr (.inr rfl)) kernelImage
  have image := translated_code_executable .riscv64 (.inl rfl) riscvImage
  have kernelWords : (translateBytes .ptx kernelImage).1 =
      [loadVr 0 5 0,vecAdd 2 0 1,matmulTile 3 0 1 4,storeVr 3 5 0,halt] := by decide +kernel
  have imageWords : (translateBytes .riscv64 riscvImage).1 =
      [movi 15 5,add 1 0 15,add 3 1 2,load 4 3 4,nop,beq 1 2 1] := by decide +kernel
  exact ⟨kernelWords,kernelWords ▸ kernel.1,kernel.2 rfl,imageWords,imageWords ▸ image.1⟩

end TranslationEngine
end Novium
