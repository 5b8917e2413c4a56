import Novium.Blocks
import Novium.Retirement

namespace Novium
open Storage Effects Handlers StateTransition

namespace Tile

-- What a tile program computes with: no pc, no cycles, no devices.
structure Store where
  gpr : Fin numGpr → Word
  vr : Host.Lanes
  pad : ByteStore
  ram : ByteStore

-- The straight-line instructions tile programs are written in.
inductive Op where
  | movi (d : Fin numGpr) (imm : BitVec 16)
  | dmaLoad (d s : Fin numGpr) (bytes : BitVec 11)
  | dmaStore (d s : Fin numGpr) (bytes : BitVec 11)
  | loadVr (v : Fin numVr) (a : Fin numGpr) (imm : BitVec 16)
  | storeVr (v : Fin numVr) (a : Fin numGpr) (imm : BitVec 16)
  | vecAdd (d a b : Fin numVr)
  | matmulTile (d a b : Fin numVr) (n : BitVec 8)
  deriving DecidableEq, Repr

def reg {n : Nat} (k : Fin n) : BitVec 8 := BitVec.ofNat 8 k.val

theorem reg_gpr : ∀ k : Fin numGpr, ((reg k).truncate 5).toNat = k.val := by decide

theorem reg_vr : ∀ k : Fin numVr, ((reg k).truncate 5).toNat = k.val := by decide

theorem tile_size : ∀ n : BitVec 8, n.toNat ≤ tileSize → (((n.zeroExtend 16).truncate 11 : BitVec 11) &&& 0xF).toNat = n.toNat := by
  decide

theorem dma_count (op : Opcode) (rd ra rb : BitVec 8) (bytes : BitVec 11) :
    (dmaCount ⟨Enc.rtype op rd ra rb (bytes.zeroExtend 16)⟩).toNat = bytes.toNat := by
  rw [dmaCount,Enc.rtype_func]
  simp only [BitVec.truncate_eq_setWidth,BitVec.toNat_setWidth]
  omega

namespace Op

def encode : Op → Word
  | .movi d imm => Enc.movi (reg d) imm
  | .dmaLoad d s bytes => Enc.dmaLoad (reg d) (reg s) (bytes.zeroExtend 16)
  | .dmaStore d s bytes => Enc.dmaStore (reg d) (reg s) (bytes.zeroExtend 16)
  | .loadVr v a imm => Enc.loadVr (reg v) (reg a) imm
  | .storeVr v a imm => Enc.storeVr (reg v) (reg a) imm
  | .vecAdd d a b => Enc.vecAdd (reg d) (reg a) (reg b)
  | .matmulTile d a b n => Enc.matmulTile (reg d) (reg a) (reg b) n

def exec (h : Host) : Op → Store → Store
  | .movi d imm,s => {s with gpr := fun k => if k = 0 then 0 else if k = d then imm.zeroExtend 32 else s.gpr k}
  | .dmaLoad d src bytes,s => {s with pad := s.pad.write (s.gpr d).toNat (s.ram.read (s.gpr src).toNat bytes.toNat)}
  | .dmaStore d src bytes,s => {s with ram := s.ram.write (s.gpr d).toNat (s.pad.read (s.gpr src).toNat bytes.toNat)}
  | .loadVr v a imm,s =>
    {s with vr := Function.update s.vr v fun k => s.pad.word ((s.gpr a+imm.signExtend 32).toNat+4*k.val)}
  | .storeVr v a imm,s => {s with pad := s.pad.write (s.gpr a+imm.signExtend 32).toNat (vrBytes (s.vr v))}
  | .vecAdd d a b,s => {s with vr := Function.update s.vr d (h.laneSum s.vr a b)}
  | .matmulTile d a b n,s => {s with vr := h.matmulTile s.vr d a b n.toNat}

-- Every access inside its memory, and nothing written over the first `bytes` bytes
-- of the scratchpad, where the code is.
def Safe (bytes : Nat) : Op → Store → Prop
  | .movi _ _,_ => True
  | .dmaLoad d src count,s => bytes ≤ (s.gpr d).toNat ∧ (s.gpr d).toNat+count.toNat ≤ s.pad.size ∧
      (s.gpr src).toNat+count.toNat ≤ s.ram.size
  | .dmaStore d src count,s => (s.gpr d).toNat+count.toNat ≤ s.ram.size ∧ (s.gpr src).toNat+count.toNat ≤ s.pad.size
  | .loadVr _ a imm,s => (s.gpr a+imm.signExtend 32).toNat+vrByteSize ≤ s.pad.size
  | .storeVr _ a imm,s => bytes ≤ (s.gpr a+imm.signExtend 32).toNat ∧ (s.gpr a+imm.signExtend 32).toNat+vrByteSize ≤ s.pad.size
  | .vecAdd _ _ _,_ => True
  | .matmulTile _ _ _ n,_ => 1 ≤ n.toNat ∧ n.toNat ≤ tileSize

end Op

def exec (h : Host) (program : List Op) (s : Store) : Store := program.foldl (fun s op => op.exec h s) s

def Safe (h : Host) (bytes : Nat) : List Op → Store → Prop
  | [],_ => True
  | op :: rest,s => op.Safe bytes s ∧ Safe h bytes rest (op.exec h s)

def assemble (program : List Op) : List Word := program.map Op.encode ++ [Enc.halt]

end Tile

def Core.store (c : Core) : Tile.Store := ⟨c.regs.get,c.regs.vr,c.scratchpad,c.mainRam⟩

theorem Loaded.write {base addr : Nat} {code : List Word} {pad : ByteStore} (loaded : Loaded base code pad)
    (clear : base+4*code.length ≤ addr) (data : List Byte) : Loaded base code (pad.write addr data) where
  inside := loaded.inside
  below := loaded.below
  words k w listed := by
    have short := (List.getElem?_eq_some_iff.mp listed).1
    rw [pad.word_apart addr data _ (.inl (by omega))]
    exact loaded.words k w listed

-- Between two instructions of a program at address 0: nothing can intervene, and
-- there is room to decode a block from every word of the code.
structure Ready (code : List Word) (p : Nat) (c : Core) : Prop where
  plain : c.Plain
  bursts : c.Bursts
  running : c.regs.halt = false
  unwatched : c.debugger = .initial
  quiet : c.verbose = false
  loaded : Loaded 0 code c.scratchpad
  room : 4*code.length+128 ≤ c.scratchpad.size
  pc : c.regs.pc = opPc 0 p

namespace Ready
variable {h : Host} {code : List Word} {p : Nat} {c : Core} {m : Machine}

theorem moved (ready : Ready code p c) {r : RegisterFile} {pad ram : ByteStore} (pc : r.pc = c.regs.pc+4) (running : r.halt = false)
    (loaded : Loaded 0 code pad) (size : pad.size = c.scratchpad.size) :
    Ready code (p+1) {c.advance with regs := r,scratchpad := pad,mainRam := ram} where
  plain := ⟨ready.plain.1,ready.plain.2⟩
  bursts := ready.bursts
  running := running
  unwatched := ready.unwatched
  quiet := ready.quiet
  loaded := loaded
  room := by
    rw [size]
    exact ready.room
  pc := by
    rw [← opPc_next,← ready.pc]
    exact pc

theorem withRegs (ready : Ready code p c) {r : RegisterFile} (pc : r.pc = c.regs.pc+4) (running : r.halt = false) :
    Ready code (p+1) {c.advance with regs := r} := ready.moved pc running ready.loaded rfl

theorem redirected {q : Nat} (ready : Ready code p c) {r : RegisterFile} (pc : r.pc = opPc 0 q) (running : r.halt = false) :
    Ready code q {c.advance with regs := r} :=
  ⟨⟨ready.plain.1,ready.plain.2⟩,ready.bursts,running,ready.unwatched,ready.quiet,ready.loaded,ready.room,pc⟩

theorem withPad (ready : Ready code p c) {addr : Nat} (clear : 4*code.length ≤ addr) (data : List Byte) :
    Ready code (p+1) {c.advance with scratchpad := c.scratchpad.write addr data} :=
  ready.moved rfl ready.running (ready.loaded.write (by rw [Nat.zero_add]; exact clear) data) rfl

theorem withRam (ready : Ready code p c) (ram : ByteStore) : Ready code (p+1) {c.advance with mainRam := ram} :=
  ready.moved rfl ready.running ready.loaded rfl

def Performs (h : Host) (code : List Word) (p : Nat) (w : Word) (c : Core) (s : Tile.Store) : Prop :=
  ∃ c', Takes h ⟨w⟩ c.advance c' ∧ Ready code (p+1) c' ∧ c'.store = s

theorem performs (ready : Ready code p c) (op : Tile.Op) (safe : op.Safe (4*code.length) c.store) :
    Performs h code p op.encode c (op.exec h c.store) := by
  have off : c.advance.translated = false := ready.plain.untranslated
  have bursts : c.advance.Bursts := ready.bursts
  cases op with
  | movi d imm =>
    have takes := takes_movi (h := h) (i := ⟨Enc.movi (Tile.reg d) imm⟩) (d := d) (c := c.advance) (Enc.itype_opcode ..)
      (by rw [Enc.movi,Enc.itype_rd,Tile.reg_gpr])
    rw [show (⟨Enc.movi (Tile.reg d) imm⟩ : Instruction).imm16 = imm from Enc.itype_imm16 ..] at takes
    refine ⟨_,takes,ready.withRegs rfl ready.running,?_⟩
    unfold Core.store Tile.Op.exec
    congr 1
    funext k
    exact RegisterFile.get_set ..
  | dmaLoad d s bytes =>
    obtain ⟨clear,room,source⟩ := safe
    have count : (dmaCount ⟨Enc.dmaLoad (Tile.reg d) (Tile.reg s) (bytes.zeroExtend 16)⟩).toNat = bytes.toNat := Tile.dma_count ..
    have takes := takes_dmaLoad (h := h) (c := c.advance) (i := ⟨Enc.dmaLoad (Tile.reg d) (Tile.reg s) (bytes.zeroExtend 16)⟩) (d := d)
      (s := s) off bursts (Enc.rtype_opcode ..) (by rw [Enc.dmaLoad,Enc.rtype_rd,Tile.reg_gpr])
      (by rw [Enc.dmaLoad,Enc.rtype_ra,Tile.reg_gpr]) (by rw [count]; exact room) (by rw [count]; exact source)
    rw [count] at takes
    exact ⟨_,takes,ready.withPad clear _,rfl⟩
  | dmaStore d s bytes =>
    obtain ⟨room,source⟩ := safe
    have count : (dmaCount ⟨Enc.dmaStore (Tile.reg d) (Tile.reg s) (bytes.zeroExtend 16)⟩).toNat = bytes.toNat := Tile.dma_count ..
    have takes := takes_dmaStore (h := h) (c := c.advance) (i := ⟨Enc.dmaStore (Tile.reg d) (Tile.reg s) (bytes.zeroExtend 16)⟩) (d := d)
      (s := s) off bursts (Enc.rtype_opcode ..) (by rw [Enc.dmaStore,Enc.rtype_rd,Tile.reg_gpr])
      (by rw [Enc.dmaStore,Enc.rtype_ra,Tile.reg_gpr]) (by rw [count]; exact room) (by rw [count]; exact source)
    rw [count] at takes
    exact ⟨_,takes,ready.withRam _,rfl⟩
  | loadVr v a imm =>
    have reads : c.advance.regs.get a+(⟨Enc.loadVr (Tile.reg v) (Tile.reg a) imm⟩ : Instruction).simm16 =
        c.store.gpr a+imm.signExtend 32 := congrArg (c.store.gpr a + ·) (Enc.itype_simm16 ..)
    have takes := takes_loadVr (h := h) (c := c.advance) (i := ⟨Enc.loadVr (Tile.reg v) (Tile.reg a) imm⟩) (d := v) (a := a)
      (Enc.itype_opcode ..) (by rw [Enc.loadVr,Enc.itype_rd,Tile.reg_vr])
      (by rw [Enc.loadVr,Enc.itype_ra,Tile.reg_gpr]) reads safe
    exact ⟨_,takes,ready.withRegs rfl ready.running,rfl⟩
  | storeVr v a imm =>
    obtain ⟨clear,inside⟩ := safe
    have writes : c.advance.regs.get a+(⟨Enc.storeVr (Tile.reg v) (Tile.reg a) imm⟩ : Instruction).simm16 =
        c.store.gpr a+imm.signExtend 32 := congrArg (c.store.gpr a + ·) (Enc.itype_simm16 ..)
    have takes := takes_storeVr (h := h) (c := c.advance) (i := ⟨Enc.storeVr (Tile.reg v) (Tile.reg a) imm⟩) (s := v) (a := a)
      (Enc.itype_opcode ..) (by rw [Enc.storeVr,Enc.itype_rd,Tile.reg_vr])
      (by rw [Enc.storeVr,Enc.itype_ra,Tile.reg_gpr]) writes (by rw [vrBytes_length]; exact inside)
    exact ⟨_,takes,ready.withPad clear _,rfl⟩
  | vecAdd d a b =>
    have takes := takes_vecAdd (h := h) (c := c.advance) (i := ⟨Enc.vecAdd (Tile.reg d) (Tile.reg a) (Tile.reg b)⟩) (d := d) (a := a)
      (b := b) (Enc.rtype_opcode ..) (by rw [Enc.vecAdd,Enc.rtype_rd,Tile.reg_vr]) (by rw [Enc.vecAdd,Enc.rtype_ra,Tile.reg_vr])
      (by rw [Enc.vecAdd,Enc.rtype_rb,Tile.reg_vr])
    exact ⟨_,takes,ready.withRegs rfl ready.running,rfl⟩
  | matmulTile d a b n =>
    have takes := takes_matmulTile (h := h) (c := c.advance) (i := ⟨Enc.matmulTile (Tile.reg d) (Tile.reg a) (Tile.reg b) n⟩) (d := d)
      (a := a) (b := b) (n := n.toNat) (Enc.rtype_opcode ..) (by rw [Enc.matmulTile,Enc.rtype_rd,Tile.reg_vr])
      (by rw [Enc.matmulTile,Enc.rtype_ra,Tile.reg_vr]) (by rw [Enc.matmulTile,Enc.rtype_rb,Tile.reg_vr])
      (by rw [Enc.matmulTile,Enc.rtype_func]; exact Tile.tile_size n safe.2) safe
    exact ⟨_,takes,ready.withRegs rfl ready.running,rfl⟩

theorem live (ready : Ready code p m.core) : m.live = true := by
  have running : m.regs.halt = false := ready.running
  have unwatched : m.debugger = .initial := ready.unwatched
  unfold Machine.live
  rw [running,unwatched]
  rfl

theorem position (ready : Ready code p c) (short : p < code.length) : c.regs.pc.toNat = 4*p := by
  have below := ready.loaded.below
  have limit : mmioBase.toNat < 2^32 := mmioBase.isLt
  have whole : (opPc 0 p).toNat = 4*p%2^32 := by simp [opPc]
  rw [ready.pc,whole]
  omega

theorem fetches (ready : Ready code p c) {w : Word} (listed : code[p]? = some w) : c.Fetches ⟨w⟩ := by
  have short := (List.getElem?_eq_some_iff.mp listed).1
  have here := ready.position short
  have below := ready.loaded.below
  have inside := ready.loaded.inside
  have word := ready.loaded.words p w listed
  rw [Nat.zero_add] at word
  exact ⟨ready.running,BitVec.lt_def.mpr (by omega),by omega,by rw [here]; exact word⟩

end Ready

-- One instruction after the other, each retired at the next word.
inductive Walk (h : Host) (code : List Word) : Nat → Core → Core → Prop where
  | start : Walk h code p c c
  | cons : Ready code p c → code[p]? = some w → Takes h ⟨w⟩ c.advance d → d.regs.pc = c.regs.pc+4 → Walk h code (p+1) d e →
      Walk h code p c e

structure Decodes (code : List Word) (blk : DecodedBlock) : Prop where
  nonempty : ∃ ins, blk.ops[0]? = some ins
  words : ∀ i ins p w, blk.ops[i]? = some ins → opPc blk.startPc i = opPc 0 p → code[p]? = some w → ins = ⟨w⟩

def Faithful (code : List Word) (cache : BlockCache) : Prop := ∀ pc blk, cache.map pc = some blk → Decodes code blk

inductive Fast (code : List Word) (m : Machine) : FastConfig → Prop where
  | loop : Faithful code cache → Fast code m (.loop ⟨m,cache⟩)
  | block : Faithful code cache → Decodes code blk → m.regs.pc = opPc blk.startPc i → Fast code m (.block ⟨m,cache⟩ blk i)

section Walks
variable {h : Host} {code : List Word} {p : Nat} {c d : Core} {m m' : Machine} {w : Word} {cache : BlockCache} {blk : DecodedBlock} {i : Nat}

theorem Ready.runs (ready : Ready code p m.core) (stepped : step h m = .ok () m') : runNext h (.loop m) = some (.loop m') := by
  simp only [runNext,ready.live,if_true,stepped,RunConfig.ofStep]

theorem run_halts (halted : m.regs.halt = true) : runNext h (.loop m) = some (.done m.flushUart) := by
  have dead : m.live = false := by simp [Machine.live,halted]
  simp only [runNext,dead,Bool.false_eq_true,if_false]

theorem Walk.run (walk : Walk h code p c d) (same : m.core = c) : ∃ m', Reaches (runNext h) (.loop m) (.loop m') ∧ m'.core = d := by
  induction walk generalizing m with
  | start => exact ⟨m,.refl,same⟩
  | cons ready listed takes _ _ ih =>
    subst same
    obtain ⟨m₁,stepped,core⟩ := takes.steps ready.plain (ready.fetches listed) m rfl
    obtain ⟨m₂,rest,final⟩ := ih core
    exact ⟨m₂,.head (ready.runs stepped) rest,final⟩

theorem Decodes.fresh (ready : Ready code p c) (fresh : freshBlock c.scratchpad pc = .ok blk) : Decodes code blk := by
  refine ⟨freshBlock_nonempty fresh,?_⟩
  intro i ins q w op here listed
  have start := freshBlock_startPc fresh
  have stored := freshBlock_words fresh op
  rw [← start,here] at stored
  have at_q : Ready code q {c with regs := {c.regs with pc := opPc 0 q}} :=
    ⟨⟨ready.plain.1,ready.plain.2⟩,ready.bursts,ready.running,ready.unwatched,ready.quiet,ready.loaded,ready.room,rfl⟩
  have fetches := at_q.fetches listed
  have inside : (opPc 0 q).toNat+4 ≤ c.scratchpad.size := fetches.inside
  have word : c.scratchpad.word (opPc 0 q).toNat = w := fetches.word
  unfold VirtualSRAM.read32 at stored
  rw [if_pos inside,word] at stored
  cases stored
  rfl

theorem Faithful.translate (faithful : Faithful code cache) (ready : Ready code p m.core) (short : p < code.length) :
    ∃ blk cache', cache.translate m.scratchpad m.regs.pc = (.ok blk,cache') ∧ Decodes code blk ∧ blk.startPc = m.regs.pc ∧
      Faithful code cache' := by
  have here : m.regs.pc.toNat = 4*p := ready.position short
  have room : 4*code.length+128 ≤ m.scratchpad.size := ready.room
  have below := ready.loaded.below
  have limit : mmioBase.toNat+128 < 2^32 := by decide
  obtain ⟨decoded,fresh⟩ := freshBlock_total room (by omega) (show m.regs.pc.toNat+128 ≤ 4*code.length+128 by omega)
  unfold BlockCache.translate
  split
  · rename_i blk found
    exact ⟨blk,_,rfl,faithful _ blk found,cache.keyed _ blk found,faithful⟩
  · split
    · rename_i missed
      rw [fresh] at missed
      cases missed
    · rename_i blk missed
      have decodes := Decodes.fresh ready missed
      refine ⟨blk,_,rfl,decodes,freshBlock_startPc missed,?_⟩
      intro pc other found
      by_cases here : pc = m.regs.pc
      · subst here
        have stored : some blk = some other := by simpa [BlockCache.insert] using found
        cases stored
        exact decodes
      · exact faithful pc other (by simpa [BlockCache.insert,Function.update_of_ne here] using found)

-- An instruction of the code replayed: an instruction that does not end a block goes on to the next word.
theorem Decodes.replays (decodes : Decodes code blk) (faithful : Faithful code cache) (pc : m.regs.pc = opPc blk.startPc i)
    (ready : Ready code p m.core) (listed : code[p]? = some w) (replayed : replay h ⟨w⟩ m = .ok () m')
    (next : (⟨w⟩ : Instruction).endsBlock = false → m'.regs.pc = m.regs.pc+4) {ins : Instruction} (op : blk.ops[i]? = some ins) :
    ∃ c', fastNext h (.block ⟨m,cache⟩ blk i) = some c' ∧ Fast code m' c' := by
  have here : m.regs.pc = opPc 0 p := ready.pc
  have same := decodes.words i ins p w op (pc.symm.trans here) listed
  subst same
  have stepped : fastNext h (.block ⟨m,cache⟩ blk i) =
      some (if (⟨w⟩ : Instruction).endsBlock then .loop ⟨m',cache⟩ else .block ⟨m',cache⟩ blk (i+1)) := by
    simp only [fastNext,op,ready.live,if_true,replayed,FastConfig.ofReplay]
  refine ⟨_,stepped,?_⟩
  split
  · exact .loop faithful
  · rename_i goes
    have after : m'.regs.pc = opPc blk.startPc (i+1) := by
      rw [← opPc_next,← pc]
      exact next (Bool.eq_false_iff.mpr goes)
    exact .block faithful decodes after

theorem Faithful.enters (faithful : Faithful code cache) (ready : Ready code p m.core) (listed : code[p]? = some w)
    (replayed : replay h ⟨w⟩ m = .ok () m') (next : (⟨w⟩ : Instruction).endsBlock = false → m'.regs.pc = m.regs.pc+4) :
    ∃ c', Reaches (fastNext h) (.loop ⟨m,cache⟩) c' ∧ Fast code m' c' := by
  have quiet : m.verbose = false := ready.quiet
  obtain ⟨blk,cache',translated,decodes,start,kept⟩ := faithful.translate ready (List.getElem?_eq_some_iff.mp listed).1
  have entered : fastNext h (.loop ⟨m,cache⟩) = some (.block ⟨m,cache'⟩ blk 0) := by
    simp only [fastNext,ready.live,if_true,quiet,Bool.false_eq_true,if_false,translated]
  obtain ⟨ins,op⟩ := decodes.nonempty
  obtain ⟨c',stepped,fast⟩ := decodes.replays kept (by rw [start,opPc_zero]) ready listed replayed next op
  exact ⟨c',.head entered (.single stepped),fast⟩

theorem Fast.next {c' : FastConfig} (fast : Fast code m c') (ready : Ready code p m.core) (listed : code[p]? = some w)
    (replayed : replay h ⟨w⟩ m = .ok () m') (next : (⟨w⟩ : Instruction).endsBlock = false → m'.regs.pc = m.regs.pc+4) :
    ∃ d', Reaches (fastNext h) c' d' ∧ Fast code m' d' := by
  cases fast with
  | loop faithful => exact faithful.enters ready listed replayed next
  | @block cache blk i faithful decodes pc =>
    cases op : blk.ops[i]? with
    | some ins =>
      obtain ⟨d',stepped,fast⟩ := decodes.replays faithful pc ready listed replayed next op
      exact ⟨d',.single stepped,fast⟩
    | none =>
      obtain ⟨d',rest,fast⟩ := faithful.enters ready listed replayed next
      have left : fastNext h (.block ⟨m,cache⟩ blk i) = some (.loop ⟨m,cache⟩) := by
        simp only [fastNext,op]
      exact ⟨d',.head left rest,fast⟩

theorem Walk.fast (walk : Walk h code p c d) (same : m.core = c) {c' : FastConfig} (fast : Fast code m c') :
    ∃ m' d', Reaches (fastNext h) c' d' ∧ Fast code m' d' ∧ m'.core = d := by
  induction walk generalizing m c' with
  | start => exact ⟨m,c',.refl,fast,same⟩
  | cons ready listed takes next _ ih =>
    subst same
    obtain ⟨m₁,replayed,core⟩ := takes.replays m rfl
    have pc : m₁.regs.pc = m.regs.pc+4 := (congrArg (fun c => c.regs.pc) core).trans next
    obtain ⟨d₁,first,fast⟩ := fast.next ready listed replayed fun _ => pc
    obtain ⟨m₂,d₂,rest,final,reached⟩ := ih core fast
    exact ⟨m₂,d₂,first.trans rest,final,reached⟩

theorem Fast.halts {c' : FastConfig} (fast : Fast code m c') (halted : m.regs.halt = true) :
    ∃ cache, Reaches (fastNext h) c' (.done ⟨m.flushUart,cache⟩) := by
  have dead : m.live = false := by simp [Machine.live,halted]
  have leaves : ∀ cache, fastNext h (.loop ⟨m,cache⟩) = some (.done ⟨m.flushUart,cache⟩) := by
    intro cache
    simp only [fastNext,dead,Bool.false_eq_true,if_false]
  cases fast with
  | @loop cache => exact ⟨cache,.single (leaves cache)⟩
  | @block cache blk i =>
    have left : fastNext h (.block ⟨m,cache⟩ blk i) = some (.loop ⟨m,cache⟩) := by
      simp only [fastNext,dead,Bool.false_eq_true,if_false]
      split <;> rfl
    exact ⟨cache,.head left (.single (leaves cache))⟩

end Walks

namespace Tile
variable {h : Host} {program : List Op} {code : List Word} {p : Nat} {c : Core}

-- The induction is on the instructions to come; the code around them is fixed.
theorem walks (ready : Ready code p c) (placed : code.drop p = assemble program) (safe : Safe h (4*code.length) program c.store) :
    ∃ d, Walk h code p c d ∧ d.regs.halt = true ∧ d.store = exec h program c.store := by
  induction program generalizing p c with
  | nil =>
    have listed : code[p]? = some Enc.halt := by
      rw [← List.head?_drop,placed]
      rfl
    exact ⟨_,.cons ready listed (takes_halt (Enc.make_opcode ..)) rfl .start,rfl,rfl⟩
  | cons op rest ih =>
    obtain ⟨first,later⟩ := safe
    have listed : code[p]? = some op.encode := by
      rw [← List.head?_drop,placed]
      rfl
    have others : code.drop (p+1) = assemble rest := by
      rw [← List.tail_drop,placed]
      rfl
    obtain ⟨d,takes,after,store⟩ := ready.performs (h := h) op first
    rw [← store] at later
    obtain ⟨e,walk,halted,final⟩ := ih after others later
    refine ⟨e,.cons ready listed takes ?_ walk,halted,?_⟩
    · rw [after.pc,ready.pc,opPc_next]
    · rw [final,store]
      rfl

theorem runs (e : Emulator) (ready : Ready (assemble program) 0 e.core.core) (faithful : Faithful (assemble program) e.blockCache)
    (safe : Safe h (4*(assemble program).length) program e.core.core.store) :
    (∃ m, Reaches (runNext h) (.loop e.core) (.done m) ∧ m.regs.halt = true ∧ m.core.store = exec h program e.core.core.store) ∧
    ∃ m cache, Reaches (fastNext h) (.loop e) (.done ⟨m,cache⟩) ∧ m.regs.halt = true ∧
      m.core.store = exec h program e.core.core.store := by
  obtain ⟨d,walk,halted,final⟩ := walks ready rfl safe
  refine ⟨?_,?_⟩
  · obtain ⟨m,ran,core⟩ := walk.run rfl
    subst core
    exact ⟨m.flushUart,ran.tail (run_halts halted),halted,final⟩
  · obtain ⟨m,d',ran,fast,core⟩ := walk.fast rfl (.loop faithful)
    subst core
    obtain ⟨cache,left⟩ := fast.halts (h := h) halted
    exact ⟨m.flushUart,cache,ran.trans left,halted,final⟩

end Tile
end Novium
