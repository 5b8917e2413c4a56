import Novium.Devices
import Novium.Registers
import Novium.Traps

namespace Novium
open Storage

-- The object representation `memcpy` moves: the scalar registers, the vector lanes and
-- the pc, then the halt byte, the byte of the flag bits and two bytes of padding. No
-- one reads padding back; it stands here as zero.
namespace RegisterFile
attribute [ext] RegisterFile

def lanes (r : RegisterFile) : List Word := (List.finRange numVr).flatMap fun v => List.ofFn (r.vr v)
def words (r : RegisterFile) : List Word := List.ofFn r.gpr ++ (r.lanes ++ [r.pc])

def haltByte (r : RegisterFile) : Byte := if r.halt then 1 else 0

def statusByte (r : RegisterFile) : Byte :=
  (if r.status.zero then 1 else 0) ||| (if r.status.negative then 2 else 0) ||| (if r.status.overflow then 4 else 0)

def bytes (r : RegisterFile) : List Byte := r.words.flatMap wordBytes ++ [r.haltByte,r.statusByte,0,0]

def ofBytes (s : ByteStore) : RegisterFile where
  gpr k := s.word (4*k.val)
  vr v k := s.word (4*(numGpr+(vecWidth*v.val+k.val)))
  pc := s.word (4*(numGpr+numVr*vecWidth))
  halt := s.byte (4*(numGpr+numVr*vecWidth+1)) != 0
  status :=
    let flags := s.byte (4*(numGpr+numVr*vecWidth+1)+1)
    ⟨flags.getLsbD 0,flags.getLsbD 1,flags.getLsbD 2⟩

theorem lanes_length (r : RegisterFile) : r.lanes.length = numVr*vecWidth := by
  unfold lanes
  rw [length_flatMap_even (n := vecWidth) (fun _ => List.length_ofFn),List.length_finRange,Nat.mul_comm]

theorem words_length (r : RegisterFile) : r.words.length = numGpr+numVr*vecWidth+1 := by
  simp only [words,List.length_append,List.length_ofFn,lanes_length,List.length_singleton,Nat.add_assoc]

theorem words_gpr (r : RegisterFile) (k : Fin numGpr) : r.words[k.val]? = some (r.gpr k) := by
  unfold words
  rw [List.getElem?_append_left (by simp),List.getElem?_ofFn,dif_pos k.isLt]

theorem lanes_lane (r : RegisterFile) (v : Fin numVr) (k : Fin vecWidth) :
    r.lanes[vecWidth*v.val+k.val]? = some (r.vr v k) := by
  have listed : (List.finRange numVr)[v.val]? = some v := by simp
  unfold lanes
  rw [getElem?_flatMap_even (fun _ => List.length_ofFn) listed k.val k.isLt,List.getElem?_ofFn,dif_pos k.isLt]

theorem words_lane (r : RegisterFile) (v : Fin numVr) (k : Fin vecWidth) :
    r.words[numGpr+(vecWidth*v.val+k.val)]? = some (r.vr v k) := by
  have listed := r.lanes_lane v k
  obtain ⟨inside,_⟩ := List.getElem?_eq_some_iff.mp listed
  unfold words
  rw [List.getElem?_append_right (by simp),List.length_ofFn,Nat.add_sub_cancel_left,
    List.getElem?_append_left inside,listed]

theorem words_pc (r : RegisterFile) : r.words[numGpr+numVr*vecWidth]? = some r.pc := by
  unfold words
  rw [List.getElem?_append_right (by simp),List.length_ofFn,Nat.add_sub_cancel_left,
    List.getElem?_append_right (by rw [lanes_length]),lanes_length,Nat.sub_self]
  rfl

theorem ofBytes_written (s : ByteStore) (r : RegisterFile) : ofBytes (s.write 0 r.bytes) = r := by
  have split : s.write 0 r.bytes = (s.write 0 (r.words.flatMap wordBytes)).write (4*(numGpr+numVr*vecWidth+1))
      [r.haltByte,r.statusByte,0,0] := by
    unfold bytes
    rw [s.write_append,length_flatMap_even (n := 4) (fun _ => rfl),words_length,Nat.zero_add]
  have word : ∀ k w, r.words[k]? = some w → (s.write 0 r.bytes).word (4*k) = w := by
    intro k w listed
    obtain ⟨inside,_⟩ := List.getElem?_eq_some_iff.mp listed
    rw [words_length] at inside
    rw [split,ByteStore.word_apart _ _ _ _ (.inl (by omega))]
    simpa using word_written s 0 listed
  have halt : (s.write 0 r.bytes).byte (4*(numGpr+numVr*vecWidth+1)) = r.haltByte := by
    rw [split]
    exact ByteStore.write_within _ _ (k := 0) rfl
  have status : (s.write 0 r.bytes).byte (4*(numGpr+numVr*vecWidth+1)+1) = r.statusByte := by
    rw [split]
    exact ByteStore.write_within _ _ (k := 1) rfl
  apply RegisterFile.ext
  · funext k
    exact word _ _ (r.words_gpr k)
  · funext v k
    exact word _ _ (r.words_lane v k)
  · exact word _ _ r.words_pc
  · unfold ofBytes
    dsimp only
    rw [halt,haltByte]
    cases r.halt <;> rfl
  · unfold ofBytes
    dsimp only
    rw [status,statusByte]
    obtain ⟨zero,negative,overflow⟩ := r.status
    cases zero <;> cases negative <;> cases overflow <;> rfl

end RegisterFile

structure Checkpoint where
  regs : RegisterFile
  csr : CSRFile
  profiler : Profiler
  tickAccum : DWord
  globalClock : DWord
  seq : Word
  scratchSnapshot : List Byte
  hasMemory : Bool

namespace CheckpointManager

def sizeofRegs : Nat := 584
-- 4096 slots of eight bytes and the privilege byte, rounded up to a multiple of eight.
def sizeofCsr : Nat := 32776

def saveBlob (cp : Checkpoint) : ByteStore :=
  (⟨sizeofRegs+sizeofCsr+64,fun _ => 0⟩ : ByteStore).write 0 cp.regs.bytes

def restoreBlob (blob : ByteStore) (out : Checkpoint) : Bool × Checkpoint :=
  if blob.size < sizeofRegs then (false,out) else (true,{out with regs := .ofBytes blob})

end CheckpointManager

structure ExecutionState where
  regs : RegisterFile
  csr : CSRFile
  profiler : Profiler
  tickAccum : DWord
  globalClock : DWord
  seq : Word

def Checkpoint.execution (cp : Checkpoint) : ExecutionState :=
  ⟨cp.regs,cp.csr,cp.profiler,cp.tickAccum,cp.globalClock,cp.seq⟩

def BlobRoundTrip (cp out : Checkpoint) : Prop :=
  let restored := CheckpointManager.restoreBlob (CheckpointManager.saveBlob cp) out
  restored.1 = true ∧ restored.2.execution = cp.execution

theorem restoreBlob_saveBlob (cp out : Checkpoint) :
    CheckpointManager.restoreBlob (CheckpointManager.saveBlob cp) out = (true,{out with regs := cp.regs}) := by
  unfold CheckpointManager.restoreBlob CheckpointManager.saveBlob
  rw [ByteStore.write_size,if_neg (by decide),RegisterFile.ofBytes_written]

-- Only the register file travels: the rest has to be in `out` already.
theorem blob_round_trip_iff (cp out : Checkpoint) : BlobRoundTrip cp out ↔
    out.csr = cp.csr ∧ out.profiler = cp.profiler ∧ out.tickAccum = cp.tickAccum ∧
      out.globalClock = cp.globalClock ∧ out.seq = cp.seq := by
  unfold BlobRoundTrip
  rw [restoreBlob_saveBlob]
  simp only [Checkpoint.execution,ExecutionState.mk.injEq,true_and]

-- `Checkpoint{}`: a CSR file that was never reset has no MISA either.
def Checkpoint.initial : Checkpoint := ⟨.initial,⟨fun _ => 0,.machine⟩,.initial,0,0,0,[],false⟩

theorem blob_drops_csr : ¬ ∀ cp out : Checkpoint, BlobRoundTrip cp out := by
  intro roundTrips
  have kept := roundTrips {Checkpoint.initial with csr := Checkpoint.initial.csr.write csrMtvec 0x100} .initial
  have same := (congrArg (fun c : CSRFile => c.read csrMtvec) (congrArg ExecutionState.csr kept.2))
  rw [restoreBlob_saveBlob] at same
  exact absurd same (by decide)

end Novium
