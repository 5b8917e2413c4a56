import Novium.Machine
import Mathlib.Data.List.TakeWhile

namespace Novium
open Storage Effects

namespace UartDevice

def low (value : Word) : Byte := value.truncate 8

def transmit (u : UartDevice) : List Word → UartDevice × List (List Byte)
  | [] => (u,[])
  | value :: values =>
    let (next,payload) := u.writeReg 0x00 value
    let (last,payloads) := next.transmit values
    (last,payload.toList ++ payloads)

def session (u : UartDevice) (values : List Word) : List (List Byte) :=
  (u.transmit values).2 ++ (u.transmit values).1.flush.2.toList

variable {u : UartDevice} {value : Word} {values : List Word}

theorem transmit_cons : u.transmit (value :: values) =
    (((u.writeReg 0x00 value).1.transmit values).1,
      (u.writeReg 0x00 value).2.toList ++ ((u.writeReg 0x00 value).1.transmit values).2) := rfl

theorem writeReg_cases (u : UartDevice) (value : Word) :
    (u.writeReg 0x00 value = ({u with txBuffer := u.txBuffer ++ [low value]},none) ∧ u.txBuffer.length+1 < 256) ∨
      u.writeReg 0x00 value = ({u with txBuffer := []},some (printed (u.txBuffer ++ [low value]))) := by
  unfold writeReg
  rw [if_pos rfl]
  dsimp only
  split
  · exact .inr rfl
  · rename_i keeps
    rw [not_or,List.length_append,List.length_singleton,Nat.not_le] at keeps
    exact .inl ⟨rfl,keeps.2⟩

theorem transmit_bounded (small : u.txBuffer.length < 256) : (u.transmit values).1.txBuffer.length < 256 := by
  induction values generalizing u with
  | nil => exact small
  | cons value values ih =>
      rw [transmit_cons]
      apply ih
      rcases writeReg_cases u value with ⟨kept,room⟩ | flushed
      · rw [kept,List.length_append]
        exact room
      · rw [flushed]
        exact Nat.zero_lt_succ 255

theorem transmit_chunks (u : UartDevice) (values : List Word) :
    ∃ chunks : List (List Byte), (u.transmit values).2 = chunks.map printed ∧
      chunks.flatten ++ (u.transmit values).1.txBuffer = u.txBuffer ++ values.map low := by
  induction values generalizing u with
  | nil => exact ⟨[],rfl,(List.append_nil _).symm⟩
  | cons value values ih =>
      obtain ⟨chunks,payloads,held⟩ := ih (u.writeReg 0x00 value).1
      rw [transmit_cons]
      rcases writeReg_cases u value with ⟨kept,_⟩ | flushed
      · rw [kept] at payloads held ⊢
        exact ⟨chunks,payloads,by rw [held,List.append_assoc]; rfl⟩
      · rw [flushed] at payloads held ⊢
        refine ⟨(u.txBuffer ++ [low value]) :: chunks,congrArg _ payloads,?_⟩
        rw [List.flatten_cons,List.append_assoc,held,List.append_assoc]
        rfl

theorem session_chunks (u : UartDevice) (values : List Word) :
    ∃ chunks : List (List Byte), u.session values = chunks.map printed ∧ chunks.flatten = u.txBuffer ++ values.map low := by
  obtain ⟨chunks,payloads,held⟩ := transmit_chunks u values
  unfold session flush
  rw [payloads]
  split
  · rename_i empty
    rw [empty,List.append_nil] at held
    exact ⟨chunks,List.append_nil _,held⟩
  · refine ⟨chunks ++ [(u.transmit values).1.txBuffer],?_,?_⟩
    · rw [List.map_append]
      rfl
    · rw [List.flatten_append,List.flatten_singleton,held]

theorem printed_iff (chunk : List Byte) : printed chunk = chunk ↔ ∀ b ∈ chunk, b ≠ 0 := by
  unfold printed
  rw [List.takeWhile_eq_self_iff]
  simp only [ne_eq,decide_eq_true_eq]

theorem printed_length (chunk : List Byte) : (printed chunk).length ≤ chunk.length :=
  (List.takeWhile_prefix _).length_le

theorem printed_flatten_length (chunks : List (List Byte)) : (chunks.map printed).flatten.length ≤ chunks.flatten.length := by
  induction chunks with
  | nil => exact Nat.le_refl 0
  | cons chunk chunks ih =>
      rw [List.map_cons,List.flatten_cons,List.flatten_cons,List.length_append,List.length_append]
      exact Nat.add_le_add (printed_length chunk) ih

-- No byte can stand in for a lost one, as every chunk prints at most its own length.
theorem printed_flatten_iff (chunks : List (List Byte)) :
    (chunks.map printed).flatten = chunks.flatten ↔ ∀ b ∈ chunks.flatten, b ≠ 0 := by
  induction chunks with
  | nil => exact iff_of_true rfl (List.forall_mem_nil _)
  | cons chunk chunks ih =>
      rw [List.map_cons,List.flatten_cons,List.flatten_cons,List.forall_mem_append,←printed_iff,←ih]
      constructor
      · intro same
        have total := congrArg List.length same
        rw [List.length_append,List.length_append] at total
        have first := printed_length chunk
        have rest := printed_flatten_length chunks
        exact List.append_inj same (by omega)
      · intro ⟨first,rest⟩
        rw [first,rest]

-- Every byte is transmitted once and in order exactly when none of them is zero: %s
-- ends at a zero byte, and the rest of its chunk is lost.
theorem uart_transmits_iff (values : List Word) :
    ((initial.session values).flatten = values.map low ∧
      ∀ n, (initial.transmit (values.take n)).1.txBuffer.length < 256) ↔ ∀ value ∈ values, low value ≠ 0 := by
  obtain ⟨chunks,payloads,whole⟩ := session_chunks initial values
  have held : chunks.flatten = values.map low := whole
  have bounded (n : Nat) : (initial.transmit (values.take n)).1.txBuffer.length < 256 :=
    transmit_bounded (Nat.zero_lt_succ 255)
  rw [payloads,←held,printed_flatten_iff,held,List.forall_mem_map]
  exact and_iff_left bounded

-- "A", a zero byte and "B": only the first is printed.
theorem uart_transmits_zero_byte :
    ¬((initial.session [0x41,0x00,0x42]).flatten = [0x41,0x00,0x42].map low ∧
      ∀ n, (initial.transmit ([0x41,0x00,0x42].take n)).1.txBuffer.length < 256) := by
  intro ⟨same,_⟩
  exact absurd same (by decide)

end UartDevice

namespace Machine

theorem deviceAt_uart (m : Machine) : m.deviceAt (mmioBase+uartBase) = some .uart := by
  unfold deviceAt devices
  rw [if_pos (by decide)]
  rfl

theorem busWrite_uart (m : Machine) (value : Word) :
    Bus.write32 (mmioBase+uartBase) value m = .ok () {m with
      uart := (m.uart.writeReg 0x00 value).1
      stdout := m.stdout ++ ((m.uart.writeReg 0x00 value).2.map Output.uartTx).toList} := by
  unfold Bus.write32
  rw [Exec.bind_ok (Exec.get_apply m),deviceAt_uart]
  rfl

theorem busWrites_uart (m : Machine) (values : List Word) :
    ∃ m', values.forM (Bus.write32 (mmioBase+uartBase)) m = .ok () m' ∧ m'.uart = (m.uart.transmit values).1 ∧
      m'.stdout = m.stdout ++ (m.uart.transmit values).2.map Output.uartTx := by
  induction values generalizing m with
  | nil => exact ⟨m,rfl,rfl,(List.append_nil _).symm⟩
  | cons value values ih =>
      obtain ⟨m',written,uart,stdout⟩ := ih {m with
        uart := (m.uart.writeReg 0x00 value).1
        stdout := m.stdout ++ ((m.uart.writeReg 0x00 value).2.map Output.uartTx).toList}
      refine ⟨m',?_,uart,?_⟩
      · change (Bus.write32 (mmioBase+uartBase) value >>= fun _ => values.forM (Bus.write32 (mmioBase+uartBase))) m = _
        rw [Exec.bind_ok (busWrite_uart m value)]
        exact written
      · rw [stdout,UartDevice.transmit_cons,List.map_append,←List.append_assoc,Option.toList_map]

-- What a program sends over the bus and `run` flushes is the session of the device.
theorem uart_stdout (m : Machine) (values : List Word) :
    ∃ m', values.forM (Bus.write32 (mmioBase+uartBase)) m = .ok () m' ∧
      m'.flushUart.stdout = m.stdout ++ (m.uart.session values).map Output.uartTx := by
  obtain ⟨m',written,uart,stdout⟩ := busWrites_uart m values
  refine ⟨m',written,?_⟩
  unfold flushUart UartDevice.session
  dsimp only
  rw [uart,stdout,List.map_append,←List.append_assoc,Option.toList_map]

end Machine

end Novium
