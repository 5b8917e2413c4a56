import Novium.ByteStore
import Novium.Traps

namespace Novium
open Storage

abbrev pageShift : Nat := 12
abbrev pageSize : DWord := 4096
abbrev tlbSize : Nat := 32

inductive PageFaultCause where
  | none | loadAccessFault | storeAccessFault | fetchAccessFault
  | loadPageFault | storePageFault | fetchPageFault
  deriving DecidableEq, Repr

structure PageTableEntry where
  raw : DWord
  deriving DecidableEq, Repr

namespace PageTableEntry

def valid (p : PageTableEntry) : Bool := p.raw.getLsbD 0
def read (p : PageTableEntry) : Bool := p.raw.getLsbD 1
def write (p : PageTableEntry) : Bool := p.raw.getLsbD 2
def execute (p : PageTableEntry) : Bool := p.raw.getLsbD 3
def user (p : PageTableEntry) : Bool := p.raw.getLsbD 4
def ppn (p : PageTableEntry) : DWord := (p.raw >>> 10) &&& 0xFFFFFFFFFFF
def isLeaf (p : PageTableEntry) : Bool := p.read || p.write || p.execute

def perms (p : PageTableEntry) : BitVec 8 :=
  (if p.read then 1 else 0) ||| (if p.write then 2 else 0) ||| (if p.execute then 4 else 0) |||
    (if p.user then 8 else 0)

end PageTableEntry

structure TLBEntry where
  vpn : DWord
  ppn : DWord
  perms : BitVec 8
  valid : Bool
  asid : DWord
  deriving DecidableEq, Repr

structure SimpleMap where
  vpn : Word
  ppn : Word
  perms : BitVec 8
  valid : Bool
  deriving DecidableEq, Repr

-- `tlbNext` is used modulo the TLB size only, and the counters are never read
-- back by a translation.
structure MMU where
  enabled : Bool
  tlb : Fin tlbSize → TLBEntry
  tlbNext : Nat
  hits : Nat
  misses : Nat
  lastFault : PageFaultCause
  lastFaultVa : Word
  simpleMap : List SimpleMap

-- `cause` is the caller's pointer: `none` for null, else the pointee.
structure Translation where
  mmu : MMU
  cause : Option PageFaultCause
  pa : Option Word

def vpnOf (va : Word) : DWord := (va >>> pageShift).zeroExtend 64
def pageOffset (va : Word) : DWord := va.zeroExtend 64 &&& (pageSize - 1)
def asidOf (satp : DWord) : DWord := (satp >>> 44) &&& 0xFFFF
def vpnLevel (va : Word) (level : Nat) : DWord := (va >>> (12+9*level)).zeroExtend 64 &&& 0x1FF
def physical (ppn : DWord) (va : Word) : Word := ((ppn <<< pageShift) ||| pageOffset va).truncate 32
def needPerms (isWrite isFetch : Bool) : BitVec 8 := if isFetch then 4 else if isWrite then 2 else 1

namespace MMU

def initial : MMU := ⟨false,fun _ => ⟨0,0,0,false,0⟩,0,0,0,.none,0,[]⟩

def insert (u : MMU) (e : TLBEntry) : MMU :=
  {u with tlb := Function.update u.tlb (Fin.ofNat tlbSize u.tlbNext) e,tlbNext := u.tlbNext+1}

def find (u : MMU) (vpn asid : DWord) : Option TLBEntry :=
  ((List.finRange tlbSize).map u.tlb).find? fun e => e.valid && e.vpn == vpn && e.asid == asid

-- The first entry of the page decides: when it lacks a permission, later entries
-- are not consulted and neither counter moves.
def tlbLookup (u : MMU) (csr : Option CSRFile) (va : Word) (need : BitVec 8) : MMU × Option Word :=
  match u.find (vpnOf va) ((csr.map fun c => asidOf c.satp).getD 0) with
  | some e =>
    if e.perms &&& need = need then ({u with hits := u.hits+1},some (physical e.ppn va)) else (u,none)
  | none => ({u with misses := u.misses+1},none)

def fault (u : MMU) (va : Word) (cause : Option PageFaultCause) (c : PageFaultCause) : Translation :=
  ⟨{u with lastFault := c,lastFaultVa := va},cause.map fun _ => c,none⟩

def faultVia (u : MMU) (va : Word) (cause : Option PageFaultCause) (c : PageFaultCause) : Option Translation :=
  if cause.isSome then some (u.fault va cause c) else none

-- Bare mode. Read permission is not looked at here.
def bare (u : MMU) (va : Word) (isWrite isFetch : Bool) (cause : Option PageFaultCause) : Translation :=
  match u.simpleMap.find? (fun m => m.valid && m.vpn == va >>> pageShift) with
  | none => ⟨u,cause,some va⟩
  | some m =>
    if isWrite && !m.perms.getLsbD 1 then u.fault va cause .storePageFault
    else if isFetch && !m.perms.getLsbD 2 then u.fault va cause .fetchPageFault
    else ⟨u.insert ⟨vpnOf va,m.ppn.zeroExtend 64,m.perms,true,0⟩,cause,
      some ((m.ppn <<< pageShift) ||| (va &&& 0xFFF))⟩

def accessFault (isWrite isFetch : Bool) : PageFaultCause :=
  if isFetch then .fetchPageFault else if isWrite then .storePageFault else .loadPageFault

-- The leaf check. The privilege failure alone leaves `last_fault_` as it was.
def walkLeaf (u : MMU) (csr : CSRFile) (va : Word) (isWrite isFetch : Bool)
    (cause : Option PageFaultCause) (pte : PageTableEntry) : Option Translation :=
  if isWrite && !pte.write then u.faultVia va cause .storePageFault
  else if isFetch && !pte.execute then u.faultVia va cause .fetchPageFault
  else if !isWrite && !isFetch && !pte.read then u.faultVia va cause .loadPageFault
  else if csr.priv = .user && !pte.user then some ⟨u,cause.map fun _ => .loadPageFault,none⟩
  else some ⟨u.insert ⟨vpnOf va,pte.ppn,pte.perms,true,asidOf csr.satp⟩,cause,some (physical pte.ppn va)⟩

def walkLevels (u : MMU) (ram : ByteStore) (csr : CSRFile) (va : Word) (isWrite isFetch : Bool)
    (cause : Option PageFaultCause) : Nat → DWord → Option Translation
  | 0,_ => u.faultVia va cause .loadPageFault
  | level+1,curPpn =>
    let pteAddr := curPpn*pageSize + vpnLevel va level*8
    if ram.size < pteAddr.toNat+8 then some (u.fault va cause .loadAccessFault)
    else
      let pte : PageTableEntry := ⟨ram.dword (pteAddr.truncate 32).toNat⟩
      if !pte.valid then u.faultVia va cause (accessFault isWrite isFetch)
      else if pte.isLeaf then u.walkLeaf csr va isWrite isFetch cause pte
      else u.walkLevels ram csr va isWrite isFetch cause level pte.ppn

def walk (u : MMU) (ram : Option ByteStore) (csr : Option CSRFile) (va : Word) (isWrite isFetch : Bool)
    (cause : Option PageFaultCause) : Option Translation :=
  match ram,csr with
  | some r,some c => u.walkLevels r c va isWrite isFetch cause 3 (c.satp &&& 0xFFFFFFFFFFF)
  | _,_ => some ⟨u,cause.map fun _ => .loadAccessFault,none⟩

-- `none` is a null pointer dereference; otherwise the result, the MMU after it
-- and the pointee of `cause`.
def translate (u : MMU) (ram : Option ByteStore) (csr : Option CSRFile) (va : Word) (isWrite isFetch : Bool)
    (cause : Option PageFaultCause) : Option Translation :=
  match u.tlbLookup csr va (needPerms isWrite isFetch) with
  | (u,some pa) => some ⟨u,cause,some pa⟩
  | (u,none) =>
    if !u.enabled || (csr.map CSRFile.satp).getD 0 = 0 then some (u.bare va isWrite isFetch cause)
    else u.walk ram csr va isWrite isFetch cause

def tlbFlush (u : MMU) : MMU := {u with tlb := fun k => {u.tlb k with valid := false},tlbNext := 0}

def tlbFlushVa (u : MMU) (va : Word) : MMU :=
  {u with tlb := fun k =>
    if (u.tlb k).valid && (u.tlb k).vpn == vpnOf va then {u.tlb k with valid := false} else u.tlb k}

def identityMap (u : MMU) (vaBase paBase : Word) (pages : Nat) (perms : BitVec 8) : MMU :=
  {u with simpleMap := u.simpleMap ++ (List.range pages).map fun i =>
    ⟨(vaBase >>> pageShift) + BitVec.ofNat 32 i,(paBase >>> pageShift) + BitVec.ofNat 32 i,perms,true⟩}

end MMU
end Novium
