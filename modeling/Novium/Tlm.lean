import Novium.Execution

namespace Novium
open Storage Effects

inductive TLMCommand where
  | read | write | ignore
  deriving DecidableEq, Repr

inductive TLMResponse where
  | ok | addressError | genericError
  deriving DecidableEq, Repr

-- `data` is what the pointer of the payload points to.
structure TLMPayload where
  command : TLMCommand
  address : DWord
  data : List Byte
  length : Word
  response : TLMResponse
  tlmDelayCycles : Word
  deriving DecidableEq, Repr

-- A call on its way through the target. `moved` is no state of the code: it lists where
-- in the target the bytes stand that were copied to or from the buffer.
structure TLMTransfer (σ : Type) where
  payload : TLMPayload
  target : σ
  moved : List Nat

abbrev Tlm (σ α : Type) := Exec EmulatorError Hazard (TLMTransfer σ) α

-- A bus as the adapter sees it, with whatever devices are registered on it.
structure BusPort (σ : Type) where
  read32 : Word → Exec EmulatorError Hazard σ Word
  write32 : Word → Word → Exec EmulatorError Hazard σ Unit
  -- A device is there, or four bytes of the RAM.
  answers : Word → σ → Bool
  read_returns : ∀ addr s, (∃ value t, read32 addr s = .ok value t) ↔ answers addr s = true
  write_returns : ∀ addr value s, (∃ t, write32 addr value s = .ok () t) ↔ answers addr s = true

namespace TLMTransfer
variable {σ : Type}

def span (addr count : Nat) : List Nat := (List.range count).map (addr + ·)

def copied (t : TLMTransfer σ) (addr count : Nat) : TLMTransfer σ := {t with moved := t.moved ++ span addr count}

def withData (t : TLMTransfer σ) (data : List Byte) : TLMTransfer σ := {t with payload := {t.payload with data := data}}

def rejected (t : TLMTransfer σ) : TLMTransfer σ := {t with payload := {t.payload with response := .addressError}}

def accepted (t : TLMTransfer σ) (delay : Word) : TLMTransfer σ :=
  {t with payload := {t.payload with response := .ok,tlmDelayCycles := delay}}

def onTarget {α : Type} (x : Exec EmulatorError Hazard σ α) : Tlm σ α :=
  Exec.within TLMTransfer.target (fun s t => {t with target := s}) x

end TLMTransfer

namespace TLMAdapter
open TLMTransfer
variable {σ : Type}

-- The memcpy of `bind_memory`, with the address cut to 32 bits.
def memcpy : Tlm ByteStore Unit := do
  let t ← Exec.get
  let addr := (t.payload.address.truncate 32 : Word).toNat
  let count := t.payload.length.toNat
  if t.payload.command = .write then
    if addr+count ≤ t.target.size ∧ count ≤ t.payload.data.length then
      Exec.modify fun t => {t.copied addr count with target := t.target.write addr (t.payload.data.take count)}
    else Exec.undefined .outOfBounds
  else if t.payload.command = .read then
    if addr+count ≤ t.target.size ∧ count ≤ t.payload.data.length then
      Exec.modify fun t => (t.copied addr count).withData (t.target.read addr count ++ t.payload.data.drop count)
    else Exec.undefined .outOfBounds
  else return ()

-- The sum of the bounds check is 64 bits wide.
def memoryTransport : Tlm ByteStore Unit := do
  let t ← Exec.get
  if t.target.size < (t.payload.address+t.payload.length.zeroExtend 64).toNat then Exec.modify rejected
  else
    memcpy
    Exec.modify fun t => t.accepted 1

def firstWord (data : List Byte) : Word :=
  data[3]?.getD 0 ++ data[2]?.getD 0 ++ data[1]?.getD 0 ++ data[0]?.getD 0

-- `p.data[0]=0` before a read.
def placeholder : Tlm σ Unit := do
  let t ← Exec.get
  if t.payload.command = .read then
    if t.payload.data = [] then Exec.undefined .outOfBounds
    else Exec.modify fun t => t.withData (t.payload.data.set 0 0)
  else return ()

def forward (port : BusPort σ) : Tlm σ Unit := do
  let t ← Exec.get
  let addr : Word := t.payload.address.truncate 32
  if t.payload.command = .write ∧ t.payload.length = 4 then
    if 4 ≤ t.payload.data.length then
      onTarget (port.write32 addr (firstWord t.payload.data))
      Exec.modify fun t => t.copied addr.toNat 4
    else Exec.undefined .outOfBounds
  else if t.payload.command = .read ∧ t.payload.length = 4 then
    let value ← onTarget (port.read32 addr)
    if 4 ≤ t.payload.data.length then
      Exec.modify fun t => (t.copied addr.toNat 4).withData (wordBytes value ++ t.payload.data.drop 4)
    else Exec.undefined .outOfBounds
  else return ()

def busTransport (port : BusPort σ) : Tlm σ Unit := do
  placeholder
  forward port
  Exec.modify fun t => t.accepted 2

end TLMAdapter

structure TLMSocket (σ : Type) where
  transport : Option (Tlm σ Unit)

namespace TLMSocket
variable {σ : Type}

def setTransport (_ : TLMSocket σ) (fn : Tlm σ Unit) : TLMSocket σ := ⟨some fn⟩

def bind (_ target : TLMSocket σ) : TLMSocket σ := ⟨target.transport⟩

-- The new value of the caller's `delay_cycles`.
def bTransport (socket : TLMSocket σ) (delay : Word) : Tlm σ Word :=
  match socket.transport with
  | some transport => do
    transport
    let t ← Exec.get
    return delay+t.payload.tlmDelayCycles
  | none => do
    Exec.modify TLMTransfer.rejected
    return delay

end TLMSocket

structure TLMAdapter (σ : Type) where
  initiator : TLMSocket σ
  target : TLMSocket σ

namespace TLMAdapter
variable {σ : Type}

def bindTransport (a : TLMAdapter σ) (fn : Tlm σ Unit) : TLMAdapter σ :=
  let target := a.target.setTransport fn
  ⟨a.initiator.bind target,target⟩

def bindMemory (a : TLMAdapter ByteStore) : TLMAdapter ByteStore := a.bindTransport memoryTransport

def bindBus (a : TLMAdapter σ) (port : BusPort σ) : TLMAdapter σ := a.bindTransport (busTransport port)

end TLMAdapter

structure TLMPayload.WellFormed (p : TLMPayload) : Prop where
  transfers : p.command ≠ .ignore
  sized : p.data.length = p.length.toNat

namespace TLMAdapter
open TLMTransfer

-- What an answer stands for. OK: the bytes of the target from `address` on were moved,
-- `length` of them, as the target moves them. An error: nothing has changed.
def Honest {σ : Type} (Moves : TLMPayload → σ → TLMPayload → σ → Prop) (p : TLMPayload) (s : σ)
    (o : Outcome EmulatorError Hazard (TLMTransfer σ) Word) : Prop :=
  ∃ delay t, o = .ok delay t ∧
    (t.payload.response = .ok → t.moved = span p.address.toNat p.length.toNat ∧ Moves p s t.payload t.target) ∧
    (t.payload.response ≠ .ok → t.payload.data = p.data ∧ t.target = s)

def MemoryMoves (p : TLMPayload) (ram : ByteStore) (p' : TLMPayload) (ram' : ByteStore) : Prop :=
  p.address.toNat+p.length.toNat ≤ ram.size ∧
    match p.command with
    | .write => p'.data = p.data ∧ ram' = ram.write p.address.toNat p.data
    | .read => p'.data = ram.read p.address.toNat p.length.toNat ∧ ram' = ram
    | .ignore => p'.data = p.data ∧ ram' = ram

-- The one access that a bus offers is of four bytes.
def BusMoves {σ : Type} (port : BusPort σ) (p : TLMPayload) (s : σ) (p' : TLMPayload) (s' : σ) : Prop :=
  if p.length = 4 then
    match p.command with
    | .write => p'.data = p.data ∧
      ∃ value, wordBytes value = p.data ∧ port.write32 (p.address.truncate 32) value s = .ok () s'
    | .read => ∃ value, p'.data = wordBytes value ∧ port.read32 (p.address.truncate 32) s = .ok value s'
    | .ignore => p'.data = p.data ∧ s' = s
  else p'.data = p.data ∧ s' = s

-- The check of the memory rejects the payload, or the whole of it lies in the memory and
-- the address survives the cut to 32 bits.
def MemoryFits (p : TLMPayload) (ram : ByteStore) : Prop :=
  ram.size < (p.address.toNat+p.length.toNat) % 2^64 ∨
    p.address.toNat+p.length.toNat ≤ ram.size ∧ (p.address.toNat < 2^32 ∨ p.length = 0)

instance (p : TLMPayload) (ram : ByteStore) : Decidable (MemoryFits p ram) := inferInstanceAs (Decidable (_ ∨ _))

-- Nothing is to be written, or the access is one of the bus's own and answered.
def BusFits {σ : Type} (port : BusPort σ) (p : TLMPayload) (s : σ) : Prop :=
  p.length = 0 ∧ p.command = .write ∨
    p.length = 4 ∧ p.address.toNat < 2^32 ∧ port.answers (p.address.truncate 32) s = true

instance {σ : Type} (port : BusPort σ) (p : TLMPayload) (s : σ) : Decidable (BusFits port p s) :=
  inferInstanceAs (Decidable (_ ∨ _))

theorem span_eq_iff {addr other count : Nat} : span addr count = span other count ↔ addr = other ∨ count = 0 := by
  cases count with
  | zero => exact iff_of_true rfl (.inr rfl)
  | succ count =>
      constructor
      · intro same
        have first := congrArg (·[0]?) same
        simp only [span,List.getElem?_map,List.getElem?_range (Nat.succ_pos count),Option.map_some,Nat.add_zero,
          Option.some.injEq] at first
        exact .inl first
      · rintro (rfl | none)
        · rfl
        · cases none

section Calls
variable {σ : Type} {Moves : TLMPayload → σ → TLMPayload → σ → Prop} {p : TLMPayload} {s : σ} {fn : Tlm σ Unit}

theorem honest_iff (a : TLMAdapter σ) (delay : Word) :
    Honest Moves p s ((a.bindTransport fn).initiator.bTransport delay ⟨p,s,[]⟩) ↔ ∃ t, fn ⟨p,s,[]⟩ = .ok () t ∧
      (t.payload.response = .ok → t.moved = span p.address.toNat p.length.toNat ∧ Moves p s t.payload t.target) ∧
      (t.payload.response ≠ .ok → t.payload.data = p.data ∧ t.target = s) := by
  have called : (a.bindTransport fn).initiator.bTransport delay =
      (fn >>= fun _ => Exec.get >>= fun t => pure (delay+t.payload.tlmDelayCycles)) := rfl
  unfold Honest
  rw [called,Exec.bind_apply]
  cases fn ⟨p,s,[]⟩ with
  | ok u t =>
      constructor
      · intro ⟨_,_,returned,honest⟩
        cases returned
        exact ⟨t,rfl,honest⟩
      · intro ⟨_,returned,honest⟩
        cases returned
        exact ⟨_,t,rfl,honest⟩
  | thrown e t =>
      constructor
      · intro ⟨_,_,returned,_⟩
        cases returned
      · intro ⟨_,returned,_⟩
        cases returned
  | undefined why =>
      constructor
      · intro ⟨_,_,returned,_⟩
        cases returned
      · intro ⟨_,returned,_⟩
        cases returned

end Calls

section Memory
variable {p : TLMPayload} {ram : ByteStore}

theorem cut_toNat (p : TLMPayload) : (p.address.truncate 32 : Word).toNat = p.address.toNat % 2^32 :=
  BitVec.toNat_setWidth ..

theorem sum_toNat (p : TLMPayload) :
    (p.address+p.length.zeroExtend 64).toNat = (p.address.toNat+p.length.toNat) % 2^64 := by
  rw [BitVec.toNat_add,BitVec.toNat_setWidth,Nat.mod_eq_of_lt (Nat.lt_trans p.length.isLt (by decide))]

theorem cut_iff (p : TLMPayload) : span (p.address.truncate 32 : Word).toNat p.length.toNat =
    span p.address.toNat p.length.toNat ↔ p.address.toNat < 2^32 ∨ p.length = 0 := by
  rw [span_eq_iff,cut_toNat]
  apply or_congr
  · exact ⟨fun same => same ▸ Nat.mod_lt _ (by decide),Nat.mod_eq_of_lt⟩
  · exact ⟨fun none => BitVec.toNat_inj.mp none,fun none => by rw [none]; rfl⟩

theorem memory_rejects (beyond : ram.size < (p.address+p.length.zeroExtend 64).toNat) :
    memoryTransport ⟨p,ram,[]⟩ = .ok () (rejected ⟨p,ram,[]⟩) := by
  unfold memoryTransport
  rw [Exec.bind_ok (Exec.get_apply _),Exec.ite_apply,if_pos beyond]
  rfl

theorem memory_copies (inside : ¬ram.size < (p.address+p.length.zeroExtend 64).toNat) :
    memoryTransport ⟨p,ram,[]⟩ = (memcpy >>= fun _ => Exec.modify fun t => t.accepted 1) ⟨p,ram,[]⟩ := by
  unfold memoryTransport
  rw [Exec.bind_ok (Exec.get_apply _),Exec.ite_apply,if_neg inside]

theorem memcpy_outside (wellFormed : p.WellFormed)
    (outside : ¬(p.address.truncate 32 : Word).toNat+p.length.toNat ≤ ram.size) :
    memcpy ⟨p,ram,[]⟩ = .undefined .outOfBounds := by
  unfold memcpy
  rw [Exec.bind_ok (Exec.get_apply _)]
  dsimp only
  cases command : p.command with
  | write =>
      rw [Exec.ite_apply,if_pos rfl,Exec.ite_apply,if_neg fun fits => outside fits.1]
      rfl
  | read =>
      rw [Exec.ite_apply,if_neg (by decide),Exec.ite_apply,if_pos rfl,Exec.ite_apply,if_neg fun fits => outside fits.1]
      rfl
  | ignore => exact absurd command wellFormed.transfers

theorem memcpy_write (command : p.command = .write) (sized : p.data.length = p.length.toNat)
    (inside : (p.address.truncate 32 : Word).toNat+p.length.toNat ≤ ram.size) :
    memcpy ⟨p,ram,[]⟩ = .ok () ⟨p,ram.write (p.address.truncate 32 : Word).toNat p.data,
      span (p.address.truncate 32 : Word).toNat p.length.toNat⟩ := by
  unfold memcpy
  rw [Exec.bind_ok (Exec.get_apply _)]
  dsimp only
  rw [Exec.ite_apply,if_pos command,Exec.ite_apply,if_pos ⟨inside,Nat.le_of_eq sized.symm⟩,Exec.modify_apply,
    List.take_of_length_le (Nat.le_of_eq sized)]
  rfl

theorem memcpy_read (command : p.command = .read) (sized : p.data.length = p.length.toNat)
    (inside : (p.address.truncate 32 : Word).toNat+p.length.toNat ≤ ram.size) :
    memcpy ⟨p,ram,[]⟩ = .ok () ⟨{p with data := ram.read (p.address.truncate 32 : Word).toNat p.length.toNat},ram,
      span (p.address.truncate 32 : Word).toNat p.length.toNat⟩ := by
  unfold memcpy
  rw [Exec.bind_ok (Exec.get_apply _)]
  dsimp only
  rw [Exec.ite_apply,if_neg (by rw [command]; decide),Exec.ite_apply,if_pos command,Exec.ite_apply,
    if_pos ⟨inside,Nat.le_of_eq sized.symm⟩,Exec.modify_apply,List.drop_of_length_le (Nat.le_of_eq sized),
    List.append_nil]
  rfl

theorem memcpy_inside (wellFormed : p.WellFormed)
    (inside : (p.address.truncate 32 : Word).toNat+p.length.toNat ≤ ram.size) :
    ∃ p' ram', memcpy ⟨p,ram,[]⟩ = .ok () ⟨p',ram',span (p.address.truncate 32 : Word).toNat p.length.toNat⟩ := by
  cases command : p.command with
  | write => exact ⟨_,_,memcpy_write command wellFormed.sized inside⟩
  | read => exact ⟨_,_,memcpy_read command wellFormed.sized inside⟩
  | ignore => exact absurd command wellFormed.transfers

theorem memory_moves (wellFormed : p.WellFormed) (inside : p.address.toNat+p.length.toNat ≤ ram.size)
    (kept : p.address.toNat < 2^32 ∨ p.length = 0) :
    ∃ p' ram', memcpy ⟨p,ram,[]⟩ = .ok () ⟨p',ram',span p.address.toNat p.length.toNat⟩ ∧ MemoryMoves p ram p' ram' := by
  have sized := wellFormed.sized
  have below : (p.address.truncate 32 : Word).toNat ≤ p.address.toNat := by
    rw [cut_toNat]
    exact Nat.mod_le ..
  have fits : (p.address.truncate 32 : Word).toNat+p.length.toNat ≤ ram.size := by omega
  have place : (p.address.truncate 32 : Word).toNat = p.address.toNat ∨ p.length.toNat = 0 :=
    span_eq_iff.mp ((cut_iff p).mpr kept)
  unfold MemoryMoves
  cases command : p.command with
  | write =>
      refine ⟨_,_,by rw [memcpy_write command sized fits,(cut_iff p).mpr kept],inside,rfl,?_⟩
      rcases place with same | none
      · rw [same]
      · rw [List.eq_nil_of_length_eq_zero (sized.trans none),ByteStore.write_nothing,ByteStore.write_nothing]
  | read =>
      refine ⟨_,_,by rw [memcpy_read command sized fits,(cut_iff p).mpr kept],inside,?_,rfl⟩
      rcases place with same | none
      · rw [same]
      · rw [none]
        rfl
  | ignore => exact absurd command wellFormed.transfers

theorem memory_honest_iff (a : TLMAdapter ByteStore) (delay : Word) (wellFormed : p.WellFormed) :
    Honest MemoryMoves p ram (a.bindMemory.initiator.bTransport delay ⟨p,ram,[]⟩) ↔ MemoryFits p ram := by
  unfold bindMemory MemoryFits
  rw [honest_iff,←sum_toNat]
  by_cases beyond : ram.size < (p.address+p.length.zeroExtend 64).toNat
  · refine iff_of_true ⟨_,memory_rejects beyond,?_,fun _ => ⟨rfl,rfl⟩⟩ (.inl beyond)
    intro ok
    cases ok
  · rw [memory_copies beyond,or_iff_right beyond]
    constructor
    · intro ⟨t,ran,moved,_⟩
      by_cases fits : (p.address.truncate 32 : Word).toNat+p.length.toNat ≤ ram.size
      · obtain ⟨p',ram',copied⟩ := memcpy_inside wellFormed fits
        rw [Exec.bind_ok copied] at ran
        cases ran
        obtain ⟨place,inside,_⟩ := moved rfl
        exact ⟨inside,(cut_iff p).mp place⟩
      · rw [Exec.bind_apply,memcpy_outside wellFormed fits] at ran
        cases ran
    · intro ⟨inside,kept⟩
      obtain ⟨p',ram',copied,moves⟩ := memory_moves wellFormed inside kept
      refine ⟨_,by rw [Exec.bind_ok copied]; rfl,fun _ => ⟨rfl,?_⟩,fun error => absurd rfl error⟩
      exact moves

end Memory

theorem firstWord_bit (a b c d : Byte) (k : Nat) : (firstWord [a,b,c,d]).getLsbD k =
    if k < 8 then a.getLsbD k else if k-8 < 8 then b.getLsbD (k-8) else if k-8-8 < 8 then c.getLsbD (k-8-8)
      else d.getLsbD (k-8-8-8) := by
  apply BitVec.getLsbD_append.trans
  rw [BitVec.getLsbD_append,BitVec.getLsbD_append]
  rfl

theorem wordBytes_firstWord {data : List Byte} (four : data.length = 4) : wordBytes (firstWord data) = data := by
  obtain ⟨a,b,c,d,rfl⟩ : ∃ a b c d, data = [a,b,c,d] := List.length_eq_four.mp four
  have byte (start : Nat) (e : Byte) (same : ∀ k < 8, (firstWord [a,b,c,d]).getLsbD (start+k) = e.getLsbD k) :
      (firstWord [a,b,c,d]).extractLsb' start 8 = e := by
    apply BitVec.eq_of_getLsbD_eq
    intro k inside
    rw [BitVec.getLsbD_extractLsb',same k inside,decide_eq_true inside,Bool.true_and]
  have first := byte 0 a fun k inside => by rw [firstWord_bit,if_pos (by omega),Nat.zero_add]
  have second := byte 8 b fun k inside => by
    rw [firstWord_bit,if_neg (by omega),if_pos (by omega),Nat.add_sub_cancel_left]
  have third := byte 16 c fun k inside => by
    rw [firstWord_bit,if_neg (by omega),if_neg (by omega),if_pos (by omega)]
    congr 1
    omega
  have fourth := byte 24 d fun k inside => by
    rw [firstWord_bit,if_neg (by omega),if_neg (by omega),if_neg (by omega)]
    congr 1
    omega
  unfold wordBytes
  rw [first,second,third,fourth]
section Bus
variable {σ : Type} {port : BusPort σ} {t u : TLMTransfer σ}

theorem placeholder_ok : placeholder t = .ok () u ↔
    t.payload.command ≠ .read ∧ u = t ∨
      t.payload.command = .read ∧ t.payload.data ≠ [] ∧ u = t.withData (t.payload.data.set 0 0) := by
  unfold placeholder
  rw [Exec.bind_ok (Exec.get_apply t),Exec.ite_apply]
  split
  · rename_i read
    rw [Exec.ite_apply]
    split
    · rename_i none
      refine iff_of_false (fun stuck => by cases stuck) ?_
      rintro (⟨other,_⟩ | ⟨_,some,_⟩)
      · exact other read
      · exact some none
    · rename_i some
      rw [Exec.modify_apply]
      constructor
      · rintro ⟨⟩
        exact .inr ⟨read,some,rfl⟩
      · rintro (⟨other,_⟩ | ⟨_,_,rfl⟩)
        · exact absurd read other
        · rfl
  · rename_i other
    constructor
    · rintro ⟨⟩
      exact .inl ⟨other,rfl⟩
    · rintro (⟨_,rfl⟩ | ⟨read,_,_⟩)
      · rfl
      · exact absurd read other

theorem placeholder_write (command : t.payload.command = .write) : placeholder t = .ok () t := by
  refine placeholder_ok.mpr (.inl ⟨?_,rfl⟩)
  rw [command]
  decide

theorem forward_write (command : t.payload.command = .write) (four : t.payload.length = 4)
    (long : 4 ≤ t.payload.data.length) : forward port t = .ok () u ↔
      ∃ s', port.write32 (t.payload.address.truncate 32) (firstWord t.payload.data) t.target = .ok () s' ∧
        u = {t with target := s',moved := t.moved ++ span (t.payload.address.truncate 32 : Word).toNat 4} := by
  unfold forward
  rw [Exec.bind_ok (Exec.get_apply t)]
  rw [Exec.ite_apply,if_pos ⟨command,four⟩,Exec.ite_apply,if_pos long,Exec.bind_eq_ok]
  constructor
  · rintro ⟨_,_,ran,⟨⟩⟩
    obtain ⟨s',written,rfl⟩ := Exec.within_eq_ok.mp ran
    exact ⟨s',written,rfl⟩
  · rintro ⟨s',written,rfl⟩
    exact ⟨(),_,Exec.within_eq_ok.mpr ⟨s',written,rfl⟩,rfl⟩

theorem forward_read (command : t.payload.command = .read) (four : t.payload.length = 4)
    (long : 4 ≤ t.payload.data.length) : forward port t = .ok () u ↔
      ∃ value s', port.read32 (t.payload.address.truncate 32) t.target = .ok value s' ∧
        u = ⟨{t.payload with data := wordBytes value ++ t.payload.data.drop 4},s',
          t.moved ++ span (t.payload.address.truncate 32 : Word).toNat 4⟩ := by
  unfold forward
  rw [Exec.bind_ok (Exec.get_apply t)]
  have read : ¬(t.payload.command = .write ∧ t.payload.length = 4) := by
    rw [command]
    exact fun write => nomatch write.1
  rw [Exec.ite_apply,if_neg read,Exec.ite_apply,if_pos ⟨command,four⟩,
    Exec.bind_eq_ok]
  constructor
  · rintro ⟨value,_,ran,rest⟩
    obtain ⟨s',answered,rfl⟩ := Exec.within_eq_ok.mp ran
    rw [Exec.ite_apply,if_pos long] at rest
    cases rest
    exact ⟨value,s',answered,rfl⟩
  · rintro ⟨value,s',answered,rfl⟩
    refine ⟨value,_,Exec.within_eq_ok.mpr ⟨s',answered,rfl⟩,?_⟩
    rw [Exec.ite_apply,if_pos long]
    rfl

theorem forward_other (other : t.payload.length ≠ 4) : forward port t = .ok () t := by
  unfold forward
  rw [Exec.bind_ok (Exec.get_apply t)]
  rw [Exec.ite_apply,if_neg fun write => other write.2,Exec.ite_apply,if_neg fun read => other read.2]
  rfl

theorem bus_ok {p : TLMPayload} {s : σ} : busTransport port ⟨p,s,[]⟩ = .ok () u ↔
    ∃ v w, placeholder ⟨p,s,[]⟩ = .ok () v ∧ forward port v = .ok () w ∧ u = w.accepted 2 := by
  unfold busTransport
  rw [Exec.bind_eq_ok]
  constructor
  · rintro ⟨_,v,first,rest⟩
    obtain ⟨_,w,second,⟨⟩⟩ := Exec.bind_eq_ok.mp rest
    exact ⟨v,w,first,second,rfl⟩
  · rintro ⟨v,w,first,second,rfl⟩
    exact ⟨(),v,first,Exec.bind_eq_ok.mpr ⟨(),w,second,rfl⟩⟩

section Honesty
variable {p : TLMPayload} {s : σ}

-- What the caller may conclude from the answer.
def Keeps (port : BusPort σ) (p : TLMPayload) (s : σ) (t : TLMTransfer σ) : Prop :=
  (t.payload.response = .ok → t.moved = span p.address.toNat p.length.toNat ∧ BusMoves port p s t.payload t.target) ∧
    (t.payload.response ≠ .ok → t.payload.data = p.data ∧ t.target = s)

theorem keeps_accepted {w : TLMTransfer σ} (delay : Word) : Keeps port p s (w.accepted delay) ↔
    w.moved = span p.address.toNat p.length.toNat ∧ BusMoves port p s w.payload w.target :=
  ⟨fun keeps => keeps.1 rfl,fun moves => ⟨fun _ => moves,fun error => absurd rfl error⟩⟩

theorem word_cut_iff (four : p.length = 4) : [] ++ span (p.address.truncate 32 : Word).toNat 4 =
    span p.address.toNat p.length.toNat ↔ p.address.toNat < 2^32 := by
  have count : p.length.toNat = 4 := by
    rw [four]
    rfl
  have some : p.length ≠ 0 := by
    rw [four]
    decide
  have place := cut_iff p
  rw [or_iff_left some,count] at place
  rw [count]
  exact place

theorem write_honest (command : p.command = .write) (sized : p.data.length = p.length.toNat) (four : p.length = 4) :
    (∃ u, busTransport port ⟨p,s,[]⟩ = .ok () u ∧ Keeps port p s u) ↔
      p.address.toNat < 2^32 ∧ port.answers (p.address.truncate 32) s = true := by
  have whole : p.data.length = 4 := by
    rw [sized,four]
    rfl
  have long := Nat.le_of_eq whole.symm
  have skipped := @placeholder_write σ ⟨p,s,[]⟩ command
  rw [←port.write_returns _ (firstWord p.data)]
  constructor
  · intro ⟨_,ran,keeps⟩
    obtain ⟨v,w,first,second,rfl⟩ := bus_ok.mp ran
    cases skipped.symm.trans first
    obtain ⟨s',written,rfl⟩ := (forward_write command four long).mp second
    obtain ⟨place,_⟩ := (keeps_accepted 2).mp keeps
    exact ⟨(word_cut_iff four).mp place,s',written⟩
  · intro ⟨small,s',written⟩
    refine ⟨_,bus_ok.mpr ⟨_,_,skipped,(forward_write command four long).mpr ⟨s',written,rfl⟩,rfl⟩,?_⟩
    refine (keeps_accepted 2).mpr ⟨(word_cut_iff four).mpr small,?_⟩
    unfold BusMoves
    rw [if_pos four,command]
    exact ⟨rfl,firstWord p.data,wordBytes_firstWord whole,written⟩

theorem read_honest (command : p.command = .read) (sized : p.data.length = p.length.toNat) (four : p.length = 4) :
    (∃ u, busTransport port ⟨p,s,[]⟩ = .ok () u ∧ Keeps port p s u) ↔
      p.address.toNat < 2^32 ∧ port.answers (p.address.truncate 32) s = true := by
  have whole : (p.data.set 0 0).length = 4 := by
    rw [List.length_set,sized,four]
    rfl
  have some : p.data ≠ [] := by
    intro none
    rw [none] at whole
    cases whole
  have zeroed : placeholder (⟨p,s,[]⟩ : TLMTransfer σ) = .ok () ⟨{p with data := p.data.set 0 0},s,[]⟩ :=
    placeholder_ok.mpr (.inr ⟨command,some,rfl⟩)
  have long := Nat.le_of_eq whole.symm
  have nothing := List.drop_of_length_le (Nat.le_of_eq whole)
  have read (u : TLMTransfer σ) := @forward_read σ port ⟨{p with data := p.data.set 0 0},s,[]⟩ u command four long
  rw [←port.read_returns]
  constructor
  · intro ⟨_,ran,keeps⟩
    obtain ⟨v,w,first,second,rfl⟩ := bus_ok.mp ran
    cases zeroed.symm.trans first
    obtain ⟨value,s',answered,rfl⟩ := (read _).mp second
    obtain ⟨place,_⟩ := (keeps_accepted 2).mp keeps
    exact ⟨(word_cut_iff four).mp place,value,s',answered⟩
  · intro ⟨small,value,s',answered⟩
    refine ⟨_,bus_ok.mpr ⟨_,_,zeroed,(read _).mpr ⟨value,s',answered,rfl⟩,rfl⟩,?_⟩
    refine (keeps_accepted 2).mpr ⟨(word_cut_iff four).mpr small,?_⟩
    unfold BusMoves
    rw [if_pos four,command]
    refine ⟨value,?_,answered⟩
    dsimp only
    rw [nothing,List.append_nil]

theorem other_honest (wellFormed : p.WellFormed) (other : p.length ≠ 4) :
    (∃ u, busTransport port ⟨p,s,[]⟩ = .ok () u ∧ Keeps port p s u) ↔ p.length = 0 ∧ p.command = .write := by
  have none (place : [] = span p.address.toNat p.length.toNat) : p.length = 0 := by
    have count := congrArg List.length place
    rw [span,List.length_map,List.length_range] at count
    exact BitVec.toNat_inj.mp count.symm
  constructor
  · intro ⟨_,ran,keeps⟩
    obtain ⟨v,w,first,second,rfl⟩ := bus_ok.mp ran
    rcases placeholder_ok.mp first with ⟨unread,rfl⟩ | ⟨read,some,rfl⟩
    · cases (forward_other other).symm.trans second
      obtain ⟨place,_⟩ := (keeps_accepted 2).mp keeps
      refine ⟨none place,?_⟩
      cases command : p.command with
      | write => rfl
      | read => exact absurd command unread
      | ignore => exact absurd command wellFormed.transfers
    · have passed : forward port (withData ⟨p,s,[]⟩ (p.data.set 0 0)) = .ok () _ := forward_other other
      cases passed.symm.trans second
      obtain ⟨place,_⟩ := (keeps_accepted 2).mp keeps
      have empty := wellFormed.sized
      rw [none place] at empty
      exact absurd (List.eq_nil_of_length_eq_zero empty) some
  · intro ⟨none,command⟩
    refine ⟨_,bus_ok.mpr ⟨_,_,placeholder_write command,forward_other other,rfl⟩,(keeps_accepted 2).mpr ⟨?_,?_⟩⟩
    · rw [none]
      rfl
    · unfold BusMoves
      rw [if_neg other]
      exact ⟨rfl,rfl⟩

theorem bus_honest_iff (a : TLMAdapter σ) (delay : Word) (wellFormed : p.WellFormed) :
    Honest (BusMoves port) p s ((a.bindBus port).initiator.bTransport delay ⟨p,s,[]⟩) ↔ BusFits port p s := by
  unfold bindBus BusFits
  rw [honest_iff]
  change (∃ t, busTransport port ⟨p,s,[]⟩ = .ok () t ∧ Keeps port p s t) ↔ _
  by_cases four : p.length = 4
  · have some : ¬(p.length = 0 ∧ p.command = .write) := by
      rw [four]
      exact fun none => absurd none.1 (by decide)
    rw [or_iff_right some,and_iff_right four]
    cases command : p.command with
    | write => exact write_honest command wellFormed.sized four
    | read => exact read_honest command wellFormed.sized four
    | ignore => exact absurd command wellFormed.transfers
  · rw [other_honest wellFormed four,or_iff_left fun word => four word.1]

end Honesty

end Bus

theorem machineBus_read (addr : Word) (m : Machine) :
    (∃ value m', Bus.read32 addr m = .ok value m') ↔ m.addressable addr = true := by
  cases reached : m.addressable addr with
  | true => exact iff_of_true ⟨_,_,Handlers.busRead_answers reached⟩ rfl
  | false =>
      refine iff_of_false ?_ Bool.false_ne_true
      intro ⟨value,m',returned⟩
      rcases Handlers.busRead_fails reached with ⟨e,thrown⟩ | stuck
      · cases thrown.symm.trans returned
      · cases stuck.symm.trans returned

theorem machineBus_write (addr value : Word) (m : Machine) :
    (∃ m', Bus.write32 addr value m = .ok () m') ↔ m.addressable addr = true := by
  have ends : Outcome.Sat (fun _ _ => m.addressable addr = true) (fun _ _ => m.addressable addr = false)
      (fun _ => m.addressable addr = false) (Bus.write32 addr value m) :=
    Handlers.sat_busWrite (fun reached _ _ => reached) (fun beyond _ => beyond) id
  constructor
  · intro ⟨m',returned⟩
    rw [returned] at ends
    exact ends
  · intro reached
    cases ran : Bus.write32 addr value m with
    | ok u m' => exact ⟨m',rfl⟩
    | thrown e m' =>
        rw [ran] at ends
        cases ends.symm.trans reached
    | undefined why =>
        rw [ran] at ends
        cases ends.symm.trans reached

def machineBus : BusPort Machine := ⟨Bus.read32,Bus.write32,fun addr m => m.addressable addr,machineBus_read,machineBus_write⟩

-- Through either binding an answer is honest on these payloads and no others.
theorem tlm_honest_iff {σ : Type} (p : TLMPayload) (delay : Word) (wellFormed : p.WellFormed)
    (a : TLMAdapter ByteStore) (ram : ByteStore) (b : TLMAdapter σ) (port : BusPort σ) (s : σ) :
    (Honest MemoryMoves p ram (a.bindMemory.initiator.bTransport delay ⟨p,ram,[]⟩) ↔ MemoryFits p ram) ∧
    (Honest (BusMoves port) p s ((b.bindBus port).initiator.bTransport delay ⟨p,s,[]⟩) ↔ BusFits port p s) :=
  ⟨memory_honest_iff a delay wellFormed,bus_honest_iff b delay wellFormed⟩

-- A word written to the memory and to the bus.
theorem tlm_honest_word :
    Honest MemoryMoves ⟨.write,0x10,[1,2,3,4],4,.ok,0⟩ (zeroStore 64)
      ((bindMemory ⟨⟨none⟩,⟨none⟩⟩).initiator.bTransport 0 ⟨⟨.write,0x10,[1,2,3,4],4,.ok,0⟩,zeroStore 64,[]⟩) ∧
    Honest (BusMoves machineBus) ⟨.write,0x10,[1,2,3,4],4,.ok,0⟩ (.initial 64 64)
      ((bindBus ⟨⟨none⟩,⟨none⟩⟩ machineBus).initiator.bTransport 0
        ⟨⟨.write,0x10,[1,2,3,4],4,.ok,0⟩,.initial 64 64,[]⟩) := by
  obtain ⟨memory,bus⟩ := tlm_honest_iff ⟨.write,0x10,[1,2,3,4],4,.ok,0⟩ 0 ⟨by decide,rfl⟩ ⟨⟨none⟩,⟨none⟩⟩ (zeroStore 64)
    ⟨⟨none⟩,⟨none⟩⟩ machineBus (.initial 64 64)
  constructor
  · exact memory.mpr (by decide)
  · exact bus.mpr (by decide +kernel)

-- Eight bytes at the end of the address space, where the bounds check of the memory
-- wraps, and eight bytes to the bus, which are accepted and not written.
theorem tlm_honest_double_word :
    ¬Honest MemoryMoves ⟨.write,0xFFFFFFFFFFFFFFFC,[1,2,3,4,5,6,7,8],8,.ok,0⟩ (zeroStore 64)
      ((bindMemory ⟨⟨none⟩,⟨none⟩⟩).initiator.bTransport 0
        ⟨⟨.write,0xFFFFFFFFFFFFFFFC,[1,2,3,4,5,6,7,8],8,.ok,0⟩,zeroStore 64,[]⟩) ∧
    ¬Honest (BusMoves machineBus) ⟨.write,0x10,[1,2,3,4,5,6,7,8],8,.ok,0⟩ (.initial 64 64)
      ((bindBus ⟨⟨none⟩,⟨none⟩⟩ machineBus).initiator.bTransport 0
        ⟨⟨.write,0x10,[1,2,3,4,5,6,7,8],8,.ok,0⟩,.initial 64 64,[]⟩) := by
  constructor
  · rw [memory_honest_iff _ _ ⟨by decide,rfl⟩]
    decide
  · rw [bus_honest_iff _ _ ⟨by decide,rfl⟩]
    decide +kernel

end TLMAdapter

end Novium
