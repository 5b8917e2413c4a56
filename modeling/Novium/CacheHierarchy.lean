import Mathlib.Data.BitVec
import Novium.Cache
import Novium.MemoryController

namespace Novium

structure CacheHierarchy where
  l1 : Cache
  l2 : Cache
  l3 : Cache
  mc : MemoryController

namespace CacheHierarchy

def initial : Option CacheHierarchy := do
  let l1 ← Cache.configure ⟨32*1024,64,8,1,10⟩
  let l2 ← Cache.configure ⟨256*1024,64,8,4,20⟩
  let l3 ← Cache.configure ⟨2*1024*1024,64,16,12,40⟩
  return ⟨l1,l2,l3,.ofConfig {}⟩

-- `tmp` is one variable for the three lookups: a level that writes no stall leaves it
-- at the value of the level before.
def access (c : CacheHierarchy) (a : MemoryAccess) : Option (Word × CacheHierarchy) := do
  let first ← c.l1.access a.addr a.isWrite
  let tmp := first.stall.getD 0
  let c := {c with l1 := first.cache}
  if first.hit then return (tmp,c)
  let stall := tmp
  let second ← c.l2.access a.addr a.isWrite
  let tmp := second.stall.getD tmp
  let c := {c with l2 := second.cache}
  let stall := stall+tmp
  if second.hit then return (stall,c)
  let third ← c.l3.access a.addr a.isWrite
  let tmp := third.stall.getD tmp
  let c := {c with l3 := third.cache}
  let stall := stall+tmp
  if third.hit then return (stall,c)
  let (row,mc) ← c.mc.access a
  return (stall+row,{c with mc := mc})

def run (c : CacheHierarchy) : List MemoryAccess → Option (List Word × CacheHierarchy)
  | [] => some ([],c)
  | a :: rest => do
    let (stall,c) ← c.access a
    let (stalls,c) ← c.run rest
    return (stall :: stalls,c)

end CacheHierarchy

structure Counters (α : Type) where
  l1Hits : α
  l1Misses : α
  l2Hits : α
  l2Misses : α
  l3Hits : α
  l3Misses : α
  rowHits : α
  rowMisses : α

def Counters.map {α β : Type} (f : α → β) (n : Counters α) : Counters β :=
  ⟨f n.l1Hits,f n.l1Misses,f n.l2Hits,f n.l2Misses,f n.l3Hits,f n.l3Misses,f n.rowHits,f n.rowMisses⟩

def CacheHierarchy.counters (c : CacheHierarchy) : Counters DWord :=
  ⟨c.l1.stats.hits,c.l1.stats.misses,c.l2.stats.hits,c.l2.stats.misses,c.l3.stats.hits,c.l3.stats.misses,c.mc.rowHits,c.mc.rowMisses⟩

-- Every miss is an access of the next level, and every stall has its counter.
structure Counters.Balanced {α : Type} [CommSemiring α] (n : Counters α) (cfg : MemoryControllerConfig) (accesses stalls : α) : Prop where
  l1 : n.l1Hits+n.l1Misses = accesses
  l2 : n.l2Hits+n.l2Misses = n.l1Misses
  l3 : n.l3Hits+n.l3Misses = n.l2Misses
  mc : n.rowHits+n.rowMisses = n.l3Misses
  stalls : stalls = 1*n.l1Hits+10*n.l1Misses+4*n.l2Hits+20*n.l2Misses+12*n.l3Hits+40*n.l3Misses+
    (cfg.tCas.toNat : α)*n.rowHits+((cfg.tCas.toNat : α)+cfg.tRcd.toNat+cfg.tRp.toNat)*n.rowMisses

namespace Cache

structure Shaped (c : Cache) : Prop where
  line : c.cfg.lineBytes ≠ 0
  nonempty : c.sets ≠ []
  ways : ∀ lines ∈ c.sets, lines ≠ []

inductive Answered (c : Cache) : Looked → Prop where
  | hit : Shaped c' → c'.cfg = c.cfg → c'.stats.hits = c.stats.hits+1 → c'.stats.misses = c.stats.misses →
      Answered c ⟨true,some c.cfg.hitLatency,c'⟩
  | miss : Shaped c' → c'.cfg = c.cfg → c'.stats.hits = c.stats.hits → c'.stats.misses = c.stats.misses+1 →
      Answered c ⟨false,some c.cfg.missPenalty,c'⟩

variable {c : Cache}

theorem Shaped.replaced (shaped : Shaped c) {lines : List Line} (full : lines ≠ []) (set : Nat) (tick : DWord) (stats : CacheStats) :
    Shaped {c with sets := c.sets.set set lines,tick := tick,stats := stats} := by
  refine ⟨shaped.line,?_,?_⟩
  · intro empty
    exact shaped.nonempty (by simpa using empty)
  · intro entry member
    rcases List.mem_or_eq_of_mem_set member with old | rfl
    · exact shaped.ways entry old
    · exact full

theorem Shaped.access (shaped : Shaped c) (addr : Word) (isWrite : Bool) :
    ∃ looked, c.access addr isWrite = some looked ∧ Answered c looked := by
  obtain ⟨lines,looked,_,full,answered,accessed⟩ := access_accessed shaped.line shaped.nonempty shaped.ways addr isWrite
  refine ⟨looked,answered,?_⟩
  cases accessed with
  | hit found =>
    refine .hit (shaped.replaced ?_ _ _ _) rfl rfl rfl
    intro empty
    exact full (List.length_eq_zero_iff.mp (by simpa using congrArg List.length empty))
  | miss writebacks absent head =>
    refine .miss (shaped.replaced ?_ _ _ _) rfl rfl rfl
    intro empty
    exact full (List.length_eq_zero_iff.mp (by simpa using congrArg List.length empty))

theorem configure_shaped (cfg : CacheConfig) (product : cfg.lineBytes*cfg.associativity ≠ 0)
    (sets : (cfg.sizeBytes/(cfg.lineBytes*cfg.associativity)).toNat ≠ 0) :
    ∃ c, configure cfg = some c ∧ Shaped c ∧ c.cfg = cfg ∧ c.stats = ⟨0,0,0⟩ := by
  unfold configure
  rw [if_neg product]
  obtain ⟨line,ways⟩ := factors_of_product product
  refine ⟨_,rfl,⟨line,?_,?_⟩,rfl,rfl⟩
  · intro empty
    exact sets (by simpa using empty)
  · intro lines member empty
    rw [(List.mem_replicate.mp member).2,List.replicate_eq_nil_iff] at empty
    exact absurd empty (Nat.ne_of_gt ways)

end Cache

theorem MemoryController.access_counts {mc : MemoryController} (banks : mc.cfg.banks ≠ 0) (a : MemoryAccess) :
    ∃ stall mc', mc.access a = some (stall,mc') ∧ mc'.cfg = mc.cfg ∧
      ((stall = mc.cfg.tCas ∧ mc'.rowHits = mc.rowHits+1 ∧ mc'.rowMisses = mc.rowMisses) ∨
        (stall = mc.cfg.tCas+mc.cfg.tRcd+mc.cfg.tRp ∧ mc'.rowHits = mc.rowHits ∧ mc'.rowMisses = mc.rowMisses+1)) := by
  unfold access
  rw [if_neg banks]
  dsimp only
  split
  · exact ⟨_,_,rfl,rfl,.inl ⟨rfl,rfl,rfl⟩⟩
  · exact ⟨_,_,rfl,rfl,.inr ⟨rfl,rfl,rfl⟩⟩

namespace CacheHierarchy

structure Level (c : Cache) (hitLatency missPenalty : Word) : Prop where
  shaped : c.Shaped
  hit : c.cfg.hitLatency = hitLatency
  miss : c.cfg.missPenalty = missPenalty

theorem Level.access {c : Cache} {hitLatency missPenalty : Word} (level : Level c hitLatency missPenalty) (a : MemoryAccess) :
    ∃ c', Level c' hitLatency missPenalty ∧
      ((c.access a.addr a.isWrite = some ⟨true,some hitLatency,c'⟩ ∧
          c'.stats.hits = c.stats.hits+1 ∧ c'.stats.misses = c.stats.misses) ∨
        (c.access a.addr a.isWrite = some ⟨false,some missPenalty,c'⟩ ∧
          c'.stats.hits = c.stats.hits ∧ c'.stats.misses = c.stats.misses+1)) := by
  obtain ⟨looked,answered,told⟩ := level.shaped.access a.addr a.isWrite
  rw [answered,← level.hit,← level.miss]
  cases told with
  | hit shaped cfg hits misses =>
    exact ⟨_,⟨shaped,by rw [cfg],by rw [cfg]⟩,.inl ⟨rfl,hits,misses⟩⟩
  | miss shaped cfg hits misses =>
    exact ⟨_,⟨shaped,by rw [cfg],by rw [cfg]⟩,.inr ⟨rfl,hits,misses⟩⟩

structure Ready (c : CacheHierarchy) : Prop where
  l1 : Level c.l1 1 10
  l2 : Level c.l2 4 20
  l3 : Level c.l3 12 40
  mc : c.mc.cfg = {}

-- Where an access of the default hierarchy ends.
inductive Served where
  | l1 | l2 | l3 | openRow | closedRow

def Served.stall : Served → Nat
  | l1 => 1
  | l2 => 10+4
  | l3 => 10+20+12
  | openRow => 10+20+40+16
  | closedRow => 10+20+40+(16+16+16)

def Served.count (n : Counters Nat) : Served → Counters Nat
  | l1 => {n with l1Hits := n.l1Hits+1}
  | l2 => {n with l1Misses := n.l1Misses+1,l2Hits := n.l2Hits+1}
  | l3 => {n with l1Misses := n.l1Misses+1,l2Misses := n.l2Misses+1,l3Hits := n.l3Hits+1}
  | openRow => {n with
      l1Misses := n.l1Misses+1,l2Misses := n.l2Misses+1,l3Misses := n.l3Misses+1,rowHits := n.rowHits+1}
  | closedRow => {n with
      l1Misses := n.l1Misses+1,l2Misses := n.l2Misses+1,l3Misses := n.l3Misses+1,rowMisses := n.rowMisses+1}

variable {c : CacheHierarchy} {n : Counters Nat} {accesses stalls : Nat}

theorem Ready.access (ready : Ready c) (counters : c.counters = n.map (BitVec.ofNat 64)) (a : MemoryAccess) :
    ∃ served stall c', c.access a = some (stall,c') ∧ Ready c' ∧ stall.toNat = Served.stall served ∧
      c'.counters = (served.count n).map (BitVec.ofNat 64) := by
  obtain ⟨level1,level2,level3,cfg⟩ := ready
  simp only [CacheHierarchy.counters,Counters.map,Counters.mk.injEq] at counters
  obtain ⟨l1,level1',⟨answered1,hits1,misses1⟩ | ⟨answered1,hits1,misses1⟩⟩ := level1.access a
  · refine ⟨.l1,1,{c with l1 := l1},?_,⟨level1',level2,level3,cfg⟩,rfl,?_⟩
    · simp [CacheHierarchy.access,answered1]
    · simp [CacheHierarchy.counters,Counters.map,Served.count,hits1,misses1,counters,BitVec.ofNat_add]
  obtain ⟨l2,level2',⟨answered2,hits2,misses2⟩ | ⟨answered2,hits2,misses2⟩⟩ := level2.access a
  · refine ⟨.l2,10+4,{c with l1 := l1,l2 := l2},?_,⟨level1',level2',level3,cfg⟩,rfl,?_⟩
    · simp [CacheHierarchy.access,answered1,answered2]
    · simp [CacheHierarchy.counters,Counters.map,Served.count,hits1,misses1,hits2,misses2,counters,BitVec.ofNat_add]
  obtain ⟨l3,level3',⟨answered3,hits3,misses3⟩ | ⟨answered3,hits3,misses3⟩⟩ := level3.access a
  · refine ⟨.l3,10+20+12,{c with l1 := l1,l2 := l2,l3 := l3},?_,⟨level1',level2',level3',cfg⟩,rfl,?_⟩
    · simp [CacheHierarchy.access,answered1,answered2,answered3]
    · simp [CacheHierarchy.counters,Counters.map,Served.count,hits1,misses1,hits2,misses2,hits3,misses3,counters,BitVec.ofNat_add]
  obtain ⟨row,mc,answered,cfg',⟨stall,hits,misses⟩ | ⟨stall,hits,misses⟩⟩ := MemoryController.access_counts (by rw [cfg]; decide) a
  · refine ⟨.openRow,10+20+40+row,⟨l1,l2,l3,mc⟩,?_,⟨level1',level2',level3',cfg'.trans cfg⟩,?_,?_⟩
    · simp [CacheHierarchy.access,answered1,answered2,answered3,answered]
    · rw [stall,cfg]
      rfl
    · simp [CacheHierarchy.counters,Counters.map,Served.count,hits1,misses1,hits2,misses2,hits3,misses3,hits,misses,counters,
        BitVec.ofNat_add]
  · refine ⟨.closedRow,10+20+40+row,⟨l1,l2,l3,mc⟩,?_,⟨level1',level2',level3',cfg'.trans cfg⟩,?_,?_⟩
    · simp [CacheHierarchy.access,answered1,answered2,answered3,answered]
    · rw [stall,cfg]
      rfl
    · simp [CacheHierarchy.counters,Counters.map,Served.count,hits1,misses1,hits2,misses2,hits3,misses3,hits,misses,counters,
        BitVec.ofNat_add]

theorem Served.balanced (balanced : n.Balanced {} accesses stalls) (served : Served) :
    (served.count n).Balanced {} (accesses+1) (stalls+served.stall) := by
  obtain ⟨l1,l2,l3,mc,total⟩ := balanced
  -- the three timings have the same default
  have timing : ({} : MemoryControllerConfig).tCas.toNat = 16 := rfl
  simp only [Nat.cast_id,timing] at total
  cases served with
  | l1 => constructor <;> simp only [Served.count,Served.stall,Nat.cast_id,timing] <;> omega
  | l2 => constructor <;> simp only [Served.count,Served.stall,Nat.cast_id,timing] <;> omega
  | l3 => constructor <;> simp only [Served.count,Served.stall,Nat.cast_id,timing] <;> omega
  | openRow => constructor <;> simp only [Served.count,Served.stall,Nat.cast_id,timing] <;> omega
  | closedRow => constructor <;> simp only [Served.count,Served.stall,Nat.cast_id,timing] <;> omega

theorem initial_ready : ∃ c, initial = some c ∧ Ready c ∧ c.counters = (⟨0,0,0,0,0,0,0,0⟩ : Counters Nat).map (BitVec.ofNat 64) := by
  obtain ⟨l1,configured1,shaped1,cfg1,stats1⟩ := Cache.configure_shaped ⟨32*1024,64,8,1,10⟩ (by decide) (by decide)
  obtain ⟨l2,configured2,shaped2,cfg2,stats2⟩ := Cache.configure_shaped ⟨256*1024,64,8,4,20⟩ (by decide) (by decide)
  obtain ⟨l3,configured3,shaped3,cfg3,stats3⟩ := Cache.configure_shaped ⟨2*1024*1024,64,16,12,40⟩ (by decide) (by decide)
  refine ⟨⟨l1,l2,l3,.ofConfig {}⟩,?_,⟨⟨shaped1,by rw [cfg1],by rw [cfg1]⟩,⟨shaped2,by rw [cfg2],by rw [cfg2]⟩,
    ⟨shaped3,by rw [cfg3],by rw [cfg3]⟩,rfl⟩,?_⟩
  · unfold initial
    rw [configured1,configured2,configured3]
    rfl
  · unfold counters
    rw [stats1,stats2,stats3]
    rfl

theorem Ready.run (ready : Ready c) (counters : c.counters = n.map (BitVec.ofNat 64)) (balanced : n.Balanced {} accesses stalls)
    (calls : List MemoryAccess) : ∃ returned c' n', c.run calls = some (returned,c') ∧ returned.length = calls.length ∧
      c'.counters = Counters.map (BitVec.ofNat 64) n' ∧
      n'.Balanced {} (accesses+calls.length) (stalls+(returned.map BitVec.toNat).sum) := by
  induction calls generalizing c n accesses stalls with
  | nil => exact ⟨[],c,n,rfl,rfl,counters,balanced⟩
  | cons a rest ih =>
    obtain ⟨served,stall,c',answered,ready',cost,counters'⟩ := ready.access counters a
    obtain ⟨returned,c'',n',ran,length,counted,balanced'⟩ := ih ready' counters' (served.balanced balanced)
    refine ⟨stall :: returned,c'',n',?_,?_,counted,?_⟩
    · unfold run
      rw [answered]
      simp [ran]
    · rw [List.length_cons,List.length_cons,length]
    · rw [List.map_cons,List.sum_cons,cost,← Nat.add_assoc,List.length_cons,Nat.add_comm rest.length 1,← Nat.add_assoc]
      exact balanced'

end CacheHierarchy

theorem Counters.Balanced.words {n : Counters Nat} {cfg : MemoryControllerConfig} {accesses stalls : Nat}
    (balanced : n.Balanced cfg accesses stalls) : (n.map (BitVec.ofNat 64)).Balanced cfg (accesses : DWord) (stalls : DWord) := by
  obtain ⟨l1,l2,l3,mc,total⟩ := balanced
  refine ⟨?_,?_,?_,?_,?_⟩
  · rw [← l1]
    simp [Counters.map]
  · simp [Counters.map,← l2,BitVec.ofNat_add]
  · simp [Counters.map,← l3,BitVec.ofNat_add]
  · simp [Counters.map,← mc,BitVec.ofNat_add]
  · rw [total]
    simp [Counters.map]

-- While the first level has not been accessed 2^64 times, no counter has come round.
theorem Counters.Balanced.numbers {n : Counters Nat} {cfg : MemoryControllerConfig} {accesses stalls : Nat}
    (balanced : n.Balanced cfg accesses stalls) (few : accesses < 2^64) : (n.map (BitVec.ofNat 64)).map BitVec.toNat = n := by
  obtain ⟨l1,l2,l3,mc,_⟩ := balanced
  have fits : ∀ m, m ≤ accesses → (BitVec.ofNat 64 m).toNat = m := by
    intro m small
    rw [BitVec.toNat_ofNat]
    exact Nat.mod_eq_of_lt (by omega)
  unfold Counters.map
  dsimp only
  rw [fits _ (by omega),fits _ (by omega),fits _ (by omega),fits _ (by omega),fits _ (by omega),fits _ (by omega),
    fits _ (by omega),fits _ (by omega)]

-- In words always, and in numbers until a counter comes round.
theorem hierarchy_accounting_exact (calls : List MemoryAccess) : ∃ c stalls c', CacheHierarchy.initial = some c ∧
    c.run calls = some (stalls,c') ∧ stalls.length = calls.length ∧
    c'.counters.Balanced {} (calls.length : DWord) ((stalls.map BitVec.toNat).sum : DWord) ∧
    (calls.length < 2^64 → (c'.counters.map BitVec.toNat).Balanced {} calls.length (stalls.map BitVec.toNat).sum) := by
  obtain ⟨c,configured,ready,zero⟩ := CacheHierarchy.initial_ready
  have empty : (⟨0,0,0,0,0,0,0,0⟩ : Counters Nat).Balanced {} 0 0 := ⟨rfl,rfl,rfl,rfl,rfl⟩
  obtain ⟨stalls,c',n,ran,length,counters,balanced⟩ := ready.run zero empty calls
  rw [Nat.zero_add,Nat.zero_add] at balanced
  refine ⟨c,stalls,c',configured,ran,length,?_,?_⟩
  · rw [counters]
    exact balanced.words
  · intro few
    rw [counters,balanced.numbers few]
    exact balanced

end Novium
