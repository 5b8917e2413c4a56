import Novium.Machine
import Novium.Recency

namespace Novium
open Recency

structure CacheConfig where
  sizeBytes : DWord
  lineBytes : DWord
  associativity : DWord
  hitLatency : Word
  missPenalty : Word

def CacheConfig.lineOf (cfg : CacheConfig) (addr : Word) : Word := (addr.zeroExtend 64/cfg.lineBytes).truncate 32

structure CacheStats where
  hits : DWord
  misses : DWord
  writebacks : DWord

structure Line where
  valid : Bool
  dirty : Bool
  tag : Word
  lru : DWord

def Line.blank : Line := ⟨false,false,0,0⟩

def Line.holds (tag : Word) (l : Line) : Bool := l.valid && l.tag == tag

structure Cache where
  cfg : CacheConfig
  sets : List (List Line)
  tick : DWord
  stats : CacheStats

-- What `access` returns, the stall it writes if it writes one, and the cache after it.
structure Looked where
  hit : Bool
  stall : Option Word
  cache : Cache

inductive CacheCall where
  | access (addr : Word) (isWrite : Bool)
  | flush

namespace Cache

-- The product can wrap to zero, and is then divided by.
def configure (cfg : CacheConfig) : Option Cache :=
  if cfg.lineBytes*cfg.associativity = 0 then none
  else
    let sets := cfg.sizeBytes/(cfg.lineBytes*cfg.associativity)
    some ⟨cfg,List.replicate sets.toNat (List.replicate cfg.associativity.toNat .blank),0,⟨0,0,0⟩⟩

-- The scan keeps the first of the smallest stamps and does not look at `valid`.
def scanVictim (victim : Nat) (least : DWord) (position : Nat) : List Line → Nat
  | [] => victim
  | l :: rest =>
    if l.lru < least then scanVictim position l.lru (position+1) rest
    else scanVictim victim least (position+1) rest

def access (c : Cache) (addr : Word) (isWrite : Bool) : Option Looked :=
  if c.sets.isEmpty then some ⟨true,none,c⟩
  else if c.cfg.lineBytes = 0 then none
  else
    let tag := c.cfg.lineOf addr
    let set := tag.toNat % c.sets.length
    let tick := c.tick+1
    let lines := c.sets[set]?.getD []
    match lines.findIdx? (·.holds tag) with
    | some k =>
      let lines' := lines.modify k fun l => {l with lru := tick,dirty := l.dirty || isWrite}
      some ⟨true,some c.cfg.hitLatency,
        {c with sets := c.sets.set set lines',tick,stats := {c.stats with hits := c.stats.hits+1}}⟩
    | none => match lines with
      -- `sets_[set][0]` of a set without lines
      | [] => none
      | first :: _ =>
        let victim := scanVictim 0 first.lru 0 lines
        let writebacks := if (lines[victim]?.getD first).dirty then c.stats.writebacks+1 else c.stats.writebacks
        let lines' := lines.set victim ⟨true,isWrite,tag,tick⟩
        some ⟨false,some c.cfg.missPenalty,
          {c with sets := c.sets.set set lines',tick,stats := ⟨c.stats.hits,c.stats.misses+1,writebacks⟩}⟩

def flush (c : Cache) : Cache :=
  {c with sets := c.sets.map fun lines => lines.map fun l => {l with valid := false,dirty := false}}

def call (c : Cache) : CacheCall → Option Cache
  | .access addr isWrite => (c.access addr isWrite).map Looked.cache
  | .flush => some c.flush

def run (c : Cache) (calls : List CacheCall) : Option Cache := calls.foldlM call c

end Cache

def CacheConfig.see (cfg : CacheConfig) (seen : List Word) : CacheCall → List Word
  | .access addr _ => cfg.lineOf addr :: seen
  | .flush => []

-- The lines accessed since the last flush, latest first.
def CacheConfig.recent (cfg : CacheConfig) (calls : List CacheCall) : List Word := calls.foldl cfg.see []

def CacheCall.isAccess : CacheCall → Bool
  | .access _ _ => true
  | .flush => false

def Line.slot (l : Line) : Slot Word := ⟨if l.valid then some l.tag else none,l.lru.toNat⟩

namespace Cache

def ways (n : Nat) (lines : List Line) (k : Fin n) : Slot Word := (lines[k.val]?.getD .blank).slot

theorem slot_key {l : Line} {tag : Word} : l.slot.key = some tag ↔ l.holds tag = true := by
  unfold Line.slot Line.holds
  cases l.valid <;> simp

theorem ways_of_get {n k : Nat} {lines : List Line} {l : Line} (inside : k < n) (found : lines[k]? = some l) :
    ways n lines ⟨k,inside⟩ = l.slot := by
  unfold ways
  rw [found]
  rfl

theorem ways_set {n k : Nat} {lines : List Line} (inside : k < n) (size : lines.length = n) (l : Line) :
    ways n (lines.set k l) = Function.update (ways n lines) ⟨k,inside⟩ l.slot := by
  funext j
  unfold ways
  by_cases same : j = ⟨k,inside⟩
  · rw [same,Function.update_self,List.getElem?_set_self (by omega)]
    rfl
  · have other : k ≠ j.val := fun equal => same (Fin.ext equal.symm)
    rw [Function.update_of_ne same,List.getElem?_set_ne other]

theorem scanVictim_least {all : List Line} {victim : Nat} {least : DWord} : ∀ {rest before : List Line},
    all = before ++ rest → (∃ l, all[victim]? = some l ∧ l.lru = least) → (∀ l ∈ before, least ≤ l.lru) →
    ∃ l, all[scanVictim victim least before.length rest]? = some l ∧ ∀ l' ∈ all, l.lru ≤ l'.lru := by
  intro rest
  induction rest generalizing victim least with
  | nil =>
    intro before whole found lowest
    obtain ⟨l,here,rfl⟩ := found
    rw [List.append_nil] at whole
    rw [← whole] at lowest
    exact ⟨l,here,lowest⟩
  | cons first rest ih =>
    intro before whole found lowest
    have onward : all = (before ++ [first]) ++ rest := by rw [whole,List.append_assoc]; rfl
    have length : (before ++ [first]).length = before.length+1 := by simp
    unfold scanVictim
    split
    · rename_i smaller
      rw [← length]
      apply ih onward
      · exact ⟨first,by rw [whole,List.getElem?_append_right (Nat.le_refl _)]; simp,rfl⟩
      · intro l listed
        rcases List.mem_append.mp listed with earlier | last
        · exact Nat.le_of_lt (Nat.lt_of_lt_of_le smaller (lowest l earlier))
        · rw [List.mem_singleton.mp last]
          exact BitVec.le_refl _
    · rename_i notSmaller
      rw [← length]
      apply ih onward found
      intro l listed
      rcases List.mem_append.mp listed with earlier | last
      · exact lowest l earlier
      · rw [List.mem_singleton.mp last]
        exact BitVec.not_lt.mp notSmaller

-- All that an access of a cache with lines in every set can do, `lines` being those of
-- its own set.
inductive Accessed (c : Cache) (addr : Word) (isWrite : Bool) (lines : List Line) : Looked → Prop where
  | hit {k : Nat} : lines.findIdx? (·.holds (c.cfg.lineOf addr)) = some k →
      Accessed c addr isWrite lines ⟨true,some c.cfg.hitLatency,{c with
        sets := c.sets.set ((c.cfg.lineOf addr).toNat % c.sets.length)
          (lines.modify k fun l => {l with lru := c.tick+1,dirty := l.dirty || isWrite})
        tick := c.tick+1
        stats := {c.stats with hits := c.stats.hits+1}}⟩
  | miss {first : Line} (writebacks : DWord) : lines.findIdx? (·.holds (c.cfg.lineOf addr)) = none → lines[0]? = some first →
      Accessed c addr isWrite lines ⟨false,some c.cfg.missPenalty,{c with
        sets := c.sets.set ((c.cfg.lineOf addr).toNat % c.sets.length)
          (lines.set (scanVictim 0 first.lru 0 lines) ⟨true,isWrite,c.cfg.lineOf addr,c.tick+1⟩)
        tick := c.tick+1
        stats := ⟨c.stats.hits,c.stats.misses+1,writebacks⟩}⟩

theorem access_accessed {c : Cache} (line : c.cfg.lineBytes ≠ 0) (nonempty : c.sets ≠ []) (full : ∀ lines ∈ c.sets, lines ≠ [])
    (addr : Word) (isWrite : Bool) : ∃ lines looked, c.sets[(c.cfg.lineOf addr).toNat % c.sets.length]? = some lines ∧
      lines ≠ [] ∧ c.access addr isWrite = some looked ∧ Accessed c addr isWrite lines looked := by
  have within : (c.cfg.lineOf addr).toNat % c.sets.length < c.sets.length := Nat.mod_lt _ (List.length_pos_iff.mpr nonempty)
  have here := List.getElem?_eq_getElem within
  have some_line := full _ (List.getElem_mem within)
  generalize c.sets[(c.cfg.lineOf addr).toNat % c.sets.length] = lines at here some_line
  unfold Cache.access
  rw [if_neg (by simpa using nonempty),if_neg line]
  dsimp only
  rw [here,Option.getD_some]
  cases found : lines.findIdx? (·.holds (c.cfg.lineOf addr)) with
  | some k => exact ⟨lines,_,rfl,some_line,rfl,.hit found⟩
  | none =>
    obtain ⟨first,rest,rfl⟩ := List.exists_cons_of_ne_nil some_line
    exact ⟨_,_,rfl,some_line,rfl,.miss _ found rfl⟩

theorem factors_of_product {cfg : CacheConfig} (product : cfg.lineBytes*cfg.associativity ≠ 0) :
    cfg.lineBytes ≠ 0 ∧ 0 < cfg.associativity.toNat := by
  refine ⟨?_,Nat.pos_of_ne_zero ?_⟩
  · intro none
    rw [none] at product
    exact product BitVec.zero_mul
  · intro none
    rw [show cfg.associativity = 0 from BitVec.eq_of_toNat_eq none] at product
    exact product BitVec.mul_zero

-- What every call keeps: the geometry, and each set holding its latest lines as of `t`.
structure Follows (c : Cache) (t : Timeline Word) : Prop where
  line : c.cfg.lineBytes ≠ 0
  ways : 0 < c.cfg.associativity.toNat
  nonempty : c.sets ≠ []
  shape : ∀ (set : Nat) (lines : List Line), c.sets[set]? = some lines → lines.length = c.cfg.associativity.toNat
  tick : c.tick.toNat = t.now
  stats : c.stats.hits.toNat+c.stats.misses.toNat = t.now
  tracks : ∀ (set : Nat) (lines : List Line), c.sets[set]? = some lines →
    Tracks t (fun tag => tag.toNat % c.sets.length = set) (Cache.ways c.cfg.associativity.toNat lines)

variable {c c' : Cache} {t : Timeline Word} {tag : Word} {set k : Nat} {lines lines' : List Line}

theorem toNat_succ {v : DWord} {n : Nat} (value : v.toNat = n) (room : n+1 < 2^64) : (v+1).toNat = n+1 := by
  subst value
  exact BitVec.toNat_add_of_lt room

-- A hit and a miss both end with the line of the access stamped in its own set.
theorem Follows.stamped (follows : Follows c t) (here : c.sets[set]? = some lines) (mine : tag.toNat % c.sets.length = set)
    (inside : k < c.cfg.associativity.toNat) (fair : Fair (Cache.ways c.cfg.associativity.toNat lines) tag ⟨k,inside⟩)
    (written : Cache.ways c.cfg.associativity.toNat lines' =
      Function.update (Cache.ways c.cfg.associativity.toNat lines) ⟨k,inside⟩ ⟨some tag,t.now+1⟩)
    (size : lines'.length = lines.length) (room : t.now+1 < 2^64) {stats : CacheStats}
    (counted : stats.hits.toNat+stats.misses.toNat = t.now+1) :
    Follows {c with sets := c.sets.set set lines',tick := c.tick+1,stats} (t.use tag) := by
  have within : set < c.sets.length := (List.getElem?_eq_some_iff.mp here).1
  refine ⟨follows.line,follows.ways,?_,?_,toNat_succ follows.tick room,counted,?_⟩
  · intro empty
    exact follows.nonempty (by simpa using empty)
  · intro other entry found
    dsimp only at found ⊢
    by_cases same : set = other
    · subst same
      rw [List.getElem?_set_self within] at found
      cases found
      exact size.trans (follows.shape set lines here)
    · rw [List.getElem?_set_ne same] at found
      exact follows.shape other entry found
  · intro other entry found
    dsimp only at found ⊢
    rw [List.length_set]
    by_cases same : set = other
    · subst same
      rw [List.getElem?_set_self within] at found
      cases found
      rw [written]
      exact (follows.tracks set lines here).use mine fair
    · rw [List.getElem?_set_ne same] at found
      exact (follows.tracks other entry found).elsewhere fun theirs => same (mine.symm.trans theirs)

theorem Follows.flush (follows : Follows c t) : Follows c.flush t.clear := by
  have entries : ∀ (set : Nat) (entry : List Line), c.flush.sets[set]? = some entry →
      ∃ lines : List Line, c.sets[set]? = some lines ∧ entry = lines.map fun l => {l with valid := false,dirty := false} := by
    intro set entry found
    unfold Cache.flush at found
    dsimp only at found
    rw [List.getElem?_map] at found
    cases here : c.sets[set]? with
    | none =>
      rw [here] at found
      cases found
    | some lines =>
      rw [here] at found
      cases found
      exact ⟨lines,rfl,rfl⟩
  refine ⟨follows.line,follows.ways,?_,?_,follows.tick,follows.stats,?_⟩
  · intro empty
    exact follows.nonempty (List.map_eq_nil_iff.mp empty)
  · intro set entry found
    obtain ⟨lines,here,rfl⟩ := entries set entry found
    rw [List.length_map]
    exact follows.shape set lines here
  · intro set entry found
    obtain ⟨lines,here,rfl⟩ := entries set entry found
    have length : c.flush.sets.length = c.sets.length := List.length_map ..
    rw [length]
    apply (follows.tracks set lines here).clear
    intro k
    unfold Cache.ways
    rw [List.getElem?_map]
    cases lines[k.val]? <;> rfl

-- One access: defined, a hit just when a way of its set holds the line, and the
-- cache goes on following the timeline.
structure Served (c : Cache) (t : Timeline Word) (addr : Word) (looked : Looked) : Prop where
  follows : Follows looked.cache (t.use (c.cfg.lineOf addr))
  cfg : looked.cache.cfg = c.cfg
  sets : looked.cache.sets.length = c.sets.length
  hit : ∃ lines : List Line, c.sets[(c.cfg.lineOf addr).toNat % c.sets.length]? = some lines ∧
    (looked.hit = true ↔ ∃ k, (Cache.ways c.cfg.associativity.toNat lines k).key = some (c.cfg.lineOf addr))

theorem Follows.hit (follows : Follows c t) (here : c.sets[set]? = some lines) (mine : tag.toNat % c.sets.length = set)
    (room : t.now+1 < 2^64) (found : lines.findIdx? (·.holds tag) = some k) (dirty : Line → Bool) :
    Follows {c with
        sets := c.sets.set set (lines.modify k fun l => {l with lru := c.tick+1,dirty := dirty l})
        tick := c.tick+1
        stats := {c.stats with hits := c.stats.hits+1}} (t.use tag) ∧
      ∃ k, (Cache.ways c.cfg.associativity.toNat lines k).key = some tag := by
  obtain ⟨within,holds,_⟩ := List.findIdx?_eq_some_iff_getElem.mp found
  have size := follows.shape set lines here
  have inside : k < c.cfg.associativity.toNat := by omega
  have entry : lines[k]? = some lines[k] := List.getElem?_eq_getElem within
  have keyed : (Cache.ways c.cfg.associativity.toNat lines ⟨k,inside⟩).key = some tag := by
    rw [ways_of_get inside entry,slot_key]
    exact holds
  refine ⟨?_,⟨_,keyed⟩⟩
  have stamped : (Line.slot {lines[k] with lru := c.tick+1,dirty := dirty lines[k]}) = ⟨some tag,t.now+1⟩ := by
    have key : (Line.slot {lines[k] with lru := c.tick+1,dirty := dirty lines[k]}).key = some tag := slot_key.mpr holds
    have stamp := toNat_succ follows.tick room
    unfold Line.slot at key ⊢
    dsimp only at key ⊢
    rw [key,stamp]
  have total := follows.stats
  apply follows.stamped here mine inside (.inl keyed) ?_ (List.length_modify ..) room
  · dsimp only
    rw [toNat_succ rfl (by omega)]
    omega
  · rw [List.modify_eq_set_getElem?,entry]
    change Cache.ways _ (lines.set k _) = _
    rw [ways_set inside size,stamped]

theorem Follows.miss (follows : Follows c t) (here : c.sets[set]? = some lines) (mine : tag.toNat % c.sets.length = set)
    (room : t.now+1 < 2^64) (absent : lines.findIdx? (·.holds tag) = none) {first : Line} (head : lines[0]? = some first)
    (isWrite : Bool) (writebacks : DWord) :
    Follows {c with
        sets := c.sets.set set (lines.set (scanVictim 0 first.lru 0 lines) ⟨true,isWrite,tag,c.tick+1⟩)
        tick := c.tick+1
        stats := ⟨c.stats.hits,c.stats.misses+1,writebacks⟩} (t.use tag) ∧
      ∀ k, (Cache.ways c.cfg.associativity.toNat lines k).key ≠ some tag := by
  have size := follows.shape set lines here
  have nowhere : ∀ k, (Cache.ways c.cfg.associativity.toNat lines k).key ≠ some tag := by
    intro k
    have within : k.val < lines.length := by omega
    rw [ways_of_get k.isLt (List.getElem?_eq_getElem within),Ne,slot_key,
      List.findIdx?_eq_none_iff.mp absent _ (List.getElem_mem within)]
    decide
  refine ⟨?_,nowhere⟩
  obtain ⟨victim,entry,least⟩ := scanVictim_least (List.nil_append lines).symm ⟨first,head,rfl⟩ (by simp)
  have inside : scanVictim 0 first.lru 0 lines < c.cfg.associativity.toNat := by
    rw [← size]
    exact (List.getElem?_eq_some_iff.mp entry).1
  have oldest : ∀ j, (Cache.ways c.cfg.associativity.toNat lines ⟨_,inside⟩).stamp ≤
      (Cache.ways c.cfg.associativity.toNat lines j).stamp := by
    intro j
    have within : j.val < lines.length := by omega
    rw [ways_of_get inside entry,ways_of_get j.isLt (List.getElem?_eq_getElem within)]
    exact least _ (List.getElem_mem within)
  have total := follows.stats
  apply follows.stamped here mine inside (.inr ⟨nowhere,oldest⟩) ?_ (List.length_set ..) room
  · dsimp only
    rw [toNat_succ rfl (by omega)]
    omega
  · rw [ways_set inside size]
    unfold Line.slot
    rw [toNat_succ follows.tick room]
    rfl

theorem Follows.access (follows : Follows c t) (room : t.now+1 < 2^64) (addr : Word) (isWrite : Bool) :
    ∃ looked, c.access addr isWrite = some looked ∧ Served c t addr looked := by
  have ways := follows.ways
  have full : ∀ lines ∈ c.sets, lines ≠ [] := by
    intro lines member empty
    obtain ⟨set,found⟩ := List.mem_iff_getElem?.mp member
    have size := follows.shape set lines found
    rw [empty,List.length_nil] at size
    omega
  obtain ⟨lines,looked,here,_,answered,accessed⟩ := access_accessed follows.line follows.nonempty full addr isWrite
  refine ⟨looked,answered,?_⟩
  cases accessed with
  | hit found =>
    obtain ⟨after,resident⟩ := follows.hit here rfl room found (fun l => l.dirty || isWrite)
    exact ⟨after,rfl,List.length_set ..,lines,here,fun _ => resident,fun _ => rfl⟩
  | miss writebacks absent head =>
    obtain ⟨after,nowhere⟩ := follows.miss here rfl room absent head isWrite writebacks
    refine ⟨after,rfl,List.length_set ..,lines,here,fun impossible => (by cases impossible),?_⟩
    rintro ⟨k,keyed⟩
    exact absurd keyed (nowhere k)

theorem configure_follows {cfg : CacheConfig} (configured : configure cfg = some c) (nonempty : c.sets ≠ []) :
    Follows c .start ∧ c.cfg = cfg := by
  unfold configure at configured
  split at configured
  · cases configured
  · rename_i product
    cases configured
    obtain ⟨line,ways⟩ := factors_of_product product
    have entries : ∀ {set : Nat} {lines : List Line},
        (List.replicate (cfg.sizeBytes/(cfg.lineBytes*cfg.associativity)).toNat
          (List.replicate cfg.associativity.toNat Line.blank))[set]? = some lines →
        lines = List.replicate cfg.associativity.toNat Line.blank := by
      intro set lines found
      exact (List.mem_replicate.mp (List.mem_of_getElem? found)).2
    refine ⟨⟨line,ways,nonempty,?_,rfl,rfl,?_⟩,rfl⟩
    · intro set lines found
      rw [entries found,List.length_replicate]
    · intro set lines found
      rw [entries found]
      apply Tracks.start
      intro k
      unfold Cache.ways
      rw [List.getElem?_replicate_of_lt k.isLt]
      rfl

-- The state after any calls, with the timeline their accesses spell.
structure Ran (c : Cache) (calls : List CacheCall) (c' : Cache) (t : Timeline Word) : Prop where
  run : c.run calls = some c'
  follows : Follows c' t
  spells : Spells (c.cfg.recent calls) t
  cfg : c'.cfg = c.cfg
  sets : c'.sets.length = c.sets.length
  now : t.now = calls.countP (·.isAccess)

theorem Follows.ran (follows : Follows c .start) (calls : List CacheCall) (few : calls.length < 2^64) :
    ∃ c' t, Ran c calls c' t := by
  induction calls using List.reverseRecOn with
  | nil => exact ⟨c,.start,rfl,follows,.start,rfl,rfl,rfl⟩
  | append_singleton calls last ih =>
    rw [List.length_append,List.length_singleton] at few
    obtain ⟨mid,t,run,follows',spells,cfg,sets,now⟩ := ih (by omega)
    have snoc : ∀ c', mid.call last = some c' → c.run (calls ++ [last]) = some c' := by
      intro c' called
      unfold Cache.run at run ⊢
      rw [List.foldlM_append,run]
      simpa using called
    have recent : c.cfg.recent (calls ++ [last]) = c.cfg.see (c.cfg.recent calls) last := by
      unfold CacheConfig.recent
      rw [List.foldl_append]
      rfl
    cases last with
    | flush =>
      refine ⟨mid.flush,t.clear,snoc _ rfl,follows'.flush,?_,cfg,(List.length_map ..).trans sets,?_⟩
      · rw [recent]
        exact .clear t
      · rw [List.countP_append]
        exact now
    | access addr isWrite =>
      have bounded : t.now ≤ calls.length := by
        rw [now]
        exact List.countP_le_length
      obtain ⟨looked,answered,served⟩ := follows'.access (by omega) addr isWrite
      have line : mid.cfg.lineOf addr = c.cfg.lineOf addr := by rw [cfg]
      have after := served.follows
      rw [line] at after
      refine ⟨looked.cache,t.use (c.cfg.lineOf addr),snoc _ ?_,after,?_,served.cfg.trans cfg,served.sets.trans sets,?_⟩
      · change (mid.access addr isWrite).map Looked.cache = some looked.cache
        rw [answered]
        rfl
      · rw [recent]
        exact spells.use _
      · rw [List.countP_append,← now]
        rfl

end Cache

theorem cache_is_lru (cfg : CacheConfig) (c : Cache) (configured : Cache.configure cfg = some c) (nonempty : c.sets ≠ [])
    (calls : List CacheCall) (few : calls.length < 2^64) :
    (∃ c', c.run calls = some c' ∧ c'.stats.hits.toNat+c'.stats.misses.toNat = calls.countP (·.isAccess)) ∧
    ∀ before addr isWrite after, calls = before ++ .access addr isWrite :: after →
      ∃ c' looked, c.run before = some c' ∧ c'.access addr isWrite = some looked ∧
        (looked.hit = true ↔ cfg.lineOf addr ∈ cfg.recent before ∧
          (((cfg.recent before).takeWhile (· ≠ cfg.lineOf addr)).toFinset.filter fun other =>
            other.toNat % c.sets.length = (cfg.lineOf addr).toNat % c.sets.length).card < cfg.associativity.toNat) := by
  obtain ⟨follows,rfl⟩ := Cache.configure_follows configured nonempty
  refine ⟨?_,?_⟩
  · obtain ⟨c',t,ran⟩ := follows.ran calls few
    exact ⟨c',ran.run,ran.follows.stats.trans ran.now⟩
  · intro before addr isWrite after split
    rw [split,List.length_append,List.length_cons] at few
    obtain ⟨c',t,run,follows',spells,cfg,sets,now⟩ := follows.ran before (by omega)
    have bounded : t.now ≤ before.length := by
      rw [now]
      exact List.countP_le_length
    obtain ⟨looked,answered,served⟩ := follows'.access (by omega) addr isWrite
    obtain ⟨lines,here,hit⟩ := served.hit
    have tracks := follows'.tracks _ lines here
    rw [cfg,sets] at tracks
    rw [cfg] at hit
    refine ⟨c',looked,run,answered,hit.trans ?_⟩
    have resident := tracks.resident_iff_seen spells rfl
    rw [Fintype.card_fin] at resident
    exact resident

-- One set of two ways: the third line pushes out the least recently used one.
def oneSet : CacheConfig := ⟨128,64,2,1,10⟩

theorem cache_is_lru_evicts :
    Cache.configure oneSet = some ⟨oneSet,[[.blank,.blank]],0,⟨0,0,0⟩⟩ ∧ ∃ c' looked,
      Cache.run ⟨oneSet,[[.blank,.blank]],0,⟨0,0,0⟩⟩ [.access 0 false,.access 64 true,.access 0 false,.access 128 false] = some c' ∧
      c'.access 64 false = some looked ∧ looked.hit = false := by
  have configured : Cache.configure oneSet = some ⟨oneSet,[[.blank,.blank]],0,⟨0,0,0⟩⟩ := rfl
  refine ⟨configured,?_⟩
  obtain ⟨c',looked,run,answered,hit⟩ := (cache_is_lru oneSet _ configured (by decide)
    [.access 0 false,.access 64 true,.access 0 false,.access 128 false,.access 64 false] (by decide)).2
    [.access 0 false,.access 64 true,.access 0 false,.access 128 false] 64 false [] rfl
  refine ⟨c',looked,run,answered,?_⟩
  rw [← Bool.not_eq_true,hit]
  decide

end Novium
