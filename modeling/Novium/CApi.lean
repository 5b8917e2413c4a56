import Novium.Emulator
import Novium.Relational

namespace Novium
open Storage Effects StateTransition

abbrev OnStore (α : Type) := Exec EmulatorError Hazard ByteStore α
abbrev OnEmulator (α : Type) := Exec EmulatorError Hazard Emulator α

-- The loaders statement by statement: an error raised after a copy would leave the
-- copy behind. Counts are `size_t`, and the sum of the bound check is taken there.
namespace Loader

def checkBounds (error : EmulatorError) (addr : Word) (count : DWord) : OnStore Unit := do
  let s ← Exec.get
  if s.size < (addr.zeroExtend 64+count).toNat then Exec.throw error else return ()

def copy (error : EmulatorError) (addr : Word) (src : List Byte) (count : DWord) : OnStore Unit := do
  checkBounds error addr count
  Exec.modify fun s => s.write addr.toNat (src.take count.toNat)

def onScratchpad {α : Type} (x : OnStore α) : OnEmulator α :=
  Exec.within (fun e => e.core.scratchpad) (fun s e => {e with core := {e.core with scratchpad := s}}) x

def onMainRam {α : Type} (x : OnStore α) : OnEmulator α :=
  Exec.within (fun e => e.core.mainRam) (fun s e => {e with core := {e.core with mainRam := s}}) x

-- `VirtualSRAM::load` and `write_bytes` have the same body.
def writeBytes (addr : Word) (src : List Byte) (count : DWord) : OnEmulator Unit :=
  onScratchpad (copy (.sramBounds addr count.toNat) addr src count)

def loadProgram (bytes : List Byte) (count : DWord) : OnEmulator Unit := do
  if BitVec.ofNat 64 textSize < count then Exec.throw (.programSize count.toNat)
  else
    writeBytes textBase bytes count
    Exec.modify Emulator.clearBlocks

def loadMainRam (addr : Word) (data : List Byte) (count : DWord) : OnEmulator Unit :=
  onMainRam (copy .mainRamBounds addr data count)

end Loader

-- `try { ...; return 0; } catch (...) { return -1; }`
def status (x : OnEmulator Unit) : OnEmulator Int := do
  let caught ← x.attempt
  return if caught.isSome then -1 else 0

def aismLoadProgram (instrs : List Word) (count : Word) : OnEmulator Int :=
  status (Loader.loadProgram (instrs.flatMap wordBytes) (count.zeroExtend 64*4))

def aismLoadMainRam (offset : Word) (data : List Byte) (count : Word) : OnEmulator Int :=
  status (Loader.loadMainRam offset data (count.zeroExtend 64))

def aismLoadTensor (addr : Word) (data : List Word) (count : Word) : OnEmulator Int :=
  status (Loader.writeBytes addr (data.flatMap wordBytes) (count.zeroExtend 64*4))

def aismWriteScratchpad (addr : Word) (data : List Byte) (count : Word) : OnEmulator Int :=
  status (Loader.writeBytes addr data (count.zeroExtend 64))

-- `try { ...; } catch (...) {}`
def aismStep (h : Host) : Emu Unit := do
  let _ ← (step h).attempt
  return ()

-- `run` need not return. When it does, by its own end or by an error, the caller finds
-- the machine where the run left it.
inductive AismRun (h : Host) (m : Machine) : Machine → Prop where
  | returned : Reaches (runNext h) (.loop m) (.done m') → AismRun h m m'
  | swallowed : Reaches (runNext h) (.loop m) (.thrown err m') → AismRun h m m'

section Bounds
variable {error : EmulatorError} {addr : Word} {src : List Byte} {count : DWord}

-- A 32-bit address and a byte count of at most 34 bits do not wrap in `size_t`.
theorem sum_exact (small : count.toNat < 2^35) : (addr.zeroExtend 64+count).toNat = addr.toNat+count.toNat := by
  have width := addr.isLt
  rw [BitVec.toNat_add,BitVec.toNat_setWidth,Nat.mod_eq_of_lt (by omega : addr.toNat < 2^64)]
  omega

theorem copy_exact (small : count.toNat < 2^35) (whole : src.length = count.toNat) (s : ByteStore) : Loader.copy error addr src count s =
    if addr.toNat+count.toNat ≤ s.size then .ok () (s.write addr.toNat src) else .thrown error s := by
  unfold Loader.copy Loader.checkBounds
  simp only [Exec.bind_apply,Exec.get_apply,Exec.ite_apply,sum_exact small,Exec.throw_apply,Exec.pure_apply,
    Exec.modify_apply,List.take_of_length_le (Nat.le_of_eq whole)]
  by_cases fits : addr.toNat+count.toNat ≤ s.size
  · rw [if_neg (by omega),if_pos fits]
  · rw [if_pos (by omega),if_neg fits]

theorem bytes_count (count : Word) : (count.zeroExtend 64).toNat = count.toNat := by
  have width := count.isLt
  rw [BitVec.toNat_setWidth,Nat.mod_eq_of_lt (by omega)]

theorem words_count (count : Word) : (count.zeroExtend 64*4).toNat = 4*count.toNat := by
  have width := count.isLt
  have four : (4 : DWord).toNat = 4 := rfl
  rw [BitVec.toNat_mul,bytes_count,four,Nat.mod_eq_of_lt (by omega),Nat.mul_comm]

end Bounds

structure Copied (before after : ByteStore) (addr : Nat) (data : List Byte) : Prop where
  size : after.size = before.size
  inside : ∀ k b, data[k]? = some b → after.byte (addr+k) = b
  outside : ∀ i, i < addr ∨ addr+data.length ≤ i → after.byte i = before.byte i

theorem copied_write (s : ByteStore) (addr : Nat) (data : List Byte) : Copied s (s.write addr data) addr data where
  size := rfl
  inside _ _ listed := s.write_within addr listed
  outside i apart := s.write_outside addr data i apart

-- The call answers 0 exactly when the data fits and has then done what it is for;
-- otherwise it answers -1 and nothing has changed.
def AllOrNothing (call : OnEmulator Int) (e : Emulator) (fits : Prop) (done : Emulator → Prop) : Prop :=
  ∃ code e', call e = .ok code e' ∧ (code = 0 ↔ fits) ∧ (code = 0 → done e') ∧ (code ≠ 0 → code = -1 ∧ e' = e)

theorem AllOrNothing.intro {x : OnEmulator Unit} {e e' : Emulator} {err : EmulatorError} {fits : Prop} [Decidable fits]
    {done : Emulator → Prop} (ran : x e = if fits then .ok () e' else .thrown err e) (complete : done e') :
    AllOrNothing (status x) e fits done := by
  by_cases holds : fits
  · rw [if_pos holds] at ran
    refine ⟨0,e',?_,iff_of_true rfl holds,fun _ => complete,fun failed => absurd rfl failed⟩
    simp only [status,Exec.bind_apply,Exec.attempt,ran,Exec.pure_apply,Option.isSome_none,Bool.false_eq_true,if_false]
  · rw [if_neg holds] at ran
    refine ⟨-1,e,?_,iff_of_false (by decide) holds,fun impossible => absurd impossible (by decide),fun _ => ⟨rfl,rfl⟩⟩
    simp only [status,Exec.bind_apply,Exec.attempt,ran,Exec.pure_apply,Option.isSome_some,if_true]

section Calls
variable (e : Emulator) (addr : Word)

theorem writeBytes_exact {src : List Byte} {bytes : DWord} (small : bytes.toNat < 2^35) (whole : src.length = bytes.toNat) :
    Loader.writeBytes addr src bytes e = if addr.toNat+bytes.toNat ≤ e.core.scratchpad.size then
      .ok () {e with core := {e.core with scratchpad := e.core.scratchpad.write addr.toNat src}}
    else .thrown (.sramBounds addr bytes.toNat) e := by
  unfold Loader.writeBytes Loader.onScratchpad Exec.within
  rw [copy_exact small whole]
  by_cases fits : addr.toNat+bytes.toNat ≤ e.core.scratchpad.size
  · simp only [if_pos fits]
  · simp only [if_neg fits]

theorem loadMainRam_exact {src : List Byte} {bytes : DWord} (small : bytes.toNat < 2^35) (whole : src.length = bytes.toNat) :
    Loader.loadMainRam addr src bytes e = if addr.toNat+bytes.toNat ≤ e.core.mainRam.size then
      .ok () {e with core := {e.core with mainRam := e.core.mainRam.write addr.toNat src}}
    else .thrown .mainRamBounds e := by
  unfold Loader.loadMainRam Loader.onMainRam Exec.within
  rw [copy_exact small whole]
  by_cases fits : addr.toNat+bytes.toNat ≤ e.core.mainRam.size
  · simp only [if_pos fits]
  · simp only [if_neg fits]

theorem loadProgram_exact {src : List Byte} {bytes : DWord} (small : bytes.toNat < 2^35) (whole : src.length = bytes.toNat) : ∃ err,
    Loader.loadProgram src bytes e = if bytes.toNat ≤ min textSize e.core.scratchpad.size then
      .ok () (Emulator.clearBlocks {e with core := {e.core with scratchpad := e.core.scratchpad.write 0 src}})
    else .thrown err e := by
  have text : BitVec.ofNat 64 textSize < bytes ↔ textSize < bytes.toNat := Iff.rfl
  have base : textBase.toNat = 0 := rfl
  unfold Loader.loadProgram
  rw [Exec.ite_apply]
  by_cases large : textSize < bytes.toNat
  · refine ⟨.programSize bytes.toNat,?_⟩
    rw [if_pos (text.mpr large),if_neg (by rw [Nat.le_min]; omega)]
    rfl
  · refine ⟨.sramBounds textBase bytes.toNat,?_⟩
    rw [if_neg (fun beyond => large (text.mp beyond)),Exec.bind_apply,writeBytes_exact e textBase small whole,base,
      Nat.zero_add]
    by_cases fits : bytes.toNat ≤ e.core.scratchpad.size
    · rw [if_pos fits,if_pos (by rw [Nat.le_min]; omega)]
      rfl
    · rw [if_neg fits,if_neg (by rw [Nat.le_min]; omega)]

end Calls

theorem loaders_all_or_nothing (e : Emulator) (addr count : Word) :
    (∀ instrs : List Word, instrs.length = count.toNat → AllOrNothing (aismLoadProgram instrs count) e
      (4*count.toNat ≤ min textSize e.core.scratchpad.size) fun e' =>
        Copied e.core.scratchpad e'.core.scratchpad 0 (instrs.flatMap wordBytes) ∧ e'.core.mainRam = e.core.mainRam) ∧
    (∀ data : List Byte, data.length = count.toNat → AllOrNothing (aismLoadMainRam addr data count) e
      (addr.toNat+count.toNat ≤ e.core.mainRam.size) fun e' =>
        Copied e.core.mainRam e'.core.mainRam addr.toNat data ∧ e'.core.scratchpad = e.core.scratchpad) ∧
    (∀ data : List Word, data.length = count.toNat → AllOrNothing (aismLoadTensor addr data count) e
      (addr.toNat+4*count.toNat ≤ e.core.scratchpad.size) fun e' =>
        Copied e.core.scratchpad e'.core.scratchpad addr.toNat (data.flatMap wordBytes) ∧ e'.core.mainRam = e.core.mainRam) ∧
    ∀ data : List Byte, data.length = count.toNat → AllOrNothing (aismWriteScratchpad addr data count) e
      (addr.toNat+count.toNat ≤ e.core.scratchpad.size) fun e' =>
        Copied e.core.scratchpad e'.core.scratchpad addr.toNat data ∧ e'.core.mainRam = e.core.mainRam := by
  have width := count.isLt
  have bytes := bytes_count count
  have words := words_count count
  have image : ∀ data : List Word, data.length = count.toNat →
      (data.flatMap wordBytes).length = (count.zeroExtend 64*4).toNat := by
    intro data whole
    rw [words,length_flatMap_even (n := 4) (fun _ => rfl),whole]
  refine ⟨?_,?_,?_,?_⟩
  · intro instrs whole
    obtain ⟨err,ran⟩ := loadProgram_exact e (by omega) (image instrs whole)
    rw [words] at ran
    exact .intro ran ⟨copied_write _ _ _,rfl⟩
  · intro data whole
    have ran := loadMainRam_exact e addr (by omega) (whole.trans bytes.symm)
    rw [bytes] at ran
    exact .intro ran ⟨copied_write _ _ _,rfl⟩
  · intro data whole
    have ran := writeBytes_exact e addr (by omega) (image data whole)
    rw [words] at ran
    exact .intro ran ⟨copied_write _ _ _,rfl⟩
  · intro data whole
    have ran := writeBytes_exact e addr (by omega) (whole.trans bytes.symm)
    rw [bytes] at ran
    exact .intro ran ⟨copied_write _ _ _,rfl⟩

theorem loaders_all_or_nothing_top :
    AllOrNothing (aismWriteScratchpad 0xFFFFFFFF [7,7] 2) (.initial 512 256)
      ((0xFFFFFFFF : Word).toNat+(2 : Word).toNat ≤ 512) fun e' =>
        Copied (zeroStore 512) e'.core.scratchpad (0xFFFFFFFF : Word).toNat [7,7] ∧ e'.core.mainRam = zeroStore 256 :=
  (loaders_all_or_nothing (.initial 512 256) 0xFFFFFFFF 2).2.2.2 [7,7] rfl

end Novium
