import Novium.Charges
import Novium.TilePrograms

namespace Novium
open Storage Effects Handlers StateTransition

-- Executed on any machine with the first core, the instruction returns with the second and is
-- recorded once, at its price.
def Retires (h : Host) (i : Instruction) (price : Nat) (c c' : Core) : Prop :=
  ∀ m : Machine, m.core = c → ∃ cycles m', execute h i m = .ok cycles m' ∧ m'.core = c' ∧
    m'.profiler.instrCount = m.profiler.instrCount+1 ∧ m'.profiler.cycleCount = m.profiler.cycleCount+BitVec.ofNat 64 price

-- Instructions of the code one after the other, with branches between them: how many, and their price.
inductive Tour (h : Host) (code : List Word) : Nat → Nat → Core → Core → Prop where
  | start (c : Core) : Tour h code 0 0 c c
  | cons (p n k price : Nat) (w : Word) (c d e : Core) : Ready code p c → code[p]? = some w → Retires h ⟨w⟩ price c.advance d →
      ((⟨w⟩ : Instruction).endsBlock = false → d.regs.pc = c.regs.pc+4) → Tour h code n k d e → Tour h code (n+1) (price+k) c e

structure Billed (n k : Nat) (m m' : Machine) : Prop where
  instructions : m'.profiler.instrCount = m.profiler.instrCount+BitVec.ofNat 64 n
  cycles : m'.profiler.cycleCount = m.profiler.cycleCount+BitVec.ofNat 64 k

-- A rule for pieces of the code: from a word with the registers as the first condition says to
-- another with the registers as the second says, in so many instructions and cycles.
def Triple (h : Host) (code : List Word) (p : Nat) (P : (Fin numGpr → Word) → Prop) (n k q : Nat) (Q : (Fin numGpr → Word) → Prop) : Prop :=
  ∀ c, Ready code p c → P c.regs.get → ∃ d, Tour h code n k c d ∧ Ready code q d ∧ Q d.regs.get

def assign (gpr : Fin numGpr → Word) (d : Fin numGpr) (value : Word) (j : Fin numGpr) : Word :=
  if j = 0 then 0 else if j = d then value else gpr j

section Prices
variable {h : Host} {i : Instruction} {c c' : Core} {price : Nat} {m m' : Machine}

theorem Takes.retires (op : Opcode) (price : Nat) (takes : Takes h i c c') (opcode : i.opcode = some op) (other : op ≠ .dmaLoad)
    (priced : ∀ m : Machine, m.core = c → (m.charge i op).toNat = price) : Retires h i price c c' := by
  intro m same
  obtain ⟨cycles,m',ran,core⟩ := takes m same
  have recorded := ((execute_charged ran).handled op opcode).2
  have total : cycles.zeroExtend 64 = BitVec.ofNat 64 price := by
    rw [execute_charge opcode ran,← priced m same]
    exact (BitVec.ofNat_toNat 64 _).symm
  rw [stallRecord_other other opcode] at recorded
  refine ⟨cycles,m',ran,core,?_,?_⟩
  · rw [recorded,Profiler.record_instrCount]
  · rw [recorded,Profiler.record_cycleCount,total]

theorem profiler_tick (m : Machine) : m.tickPeripherals.profiler = m.profiler :=
  Machine.tickPeripherals_keeps Machine.profiler (fun _ => rfl) m

theorem Billed.refl (m : Machine) : Billed 0 0 m m := ⟨(BitVec.add_zero _).symm,(BitVec.add_zero _).symm⟩

theorem Billed.trans {n k n' k' : Nat} {m'' : Machine} (first : Billed n k m m') (second : Billed n' k' m' m'') :
    Billed (n+n') (k+k') m m'' where
  instructions := by rw [second.instructions,first.instructions,BitVec.ofNat_add,BitVec.add_assoc]
  cycles := by rw [second.cycles,first.cycles,BitVec.ofNat_add,BitVec.add_assoc]

theorem Retires.steps (retires : Retires h i price m.core.advance c') (plain : m.core.Plain) (fetches : m.core.Fetches i) :
    ∃ m', step h m = .ok () m' ∧ m'.core = c' ∧ Billed 1 price m m' := by
  obtain ⟨cycles,after,ran,core,instructions,total⟩ := retires (saveBefore m).advancePc (core_fetched m)
  have before : (saveBefore m).advancePc.profiler = m.profiler := Machine.saveBefore_keeps Machine.profiler (fun _ _ _ => rfl) m
  have profiler : (logStep m.regs.pc i cycles after.tickPeripherals).profiler = after.profiler :=
    (Machine.logStep_keeps Machine.profiler (fun _ _ => rfl) ..).trans (profiler_tick after)
  rw [before] at instructions total
  refine ⟨_,step_executes plain fetches ran,by rw [core_logStep,core_tick,core],?_,?_⟩
  · rw [profiler]
    exact instructions
  · rw [profiler]
    exact total

theorem Retires.replays (retires : Retires h i price m.core.advance c') :
    ∃ m', replay h i m = .ok () m' ∧ m'.core = c' ∧ Billed 1 price m m' := by
  obtain ⟨cycles,after,ran,core,instructions,total⟩ := retires m.advancePc rfl
  refine ⟨_,replay_executes ran,by rw [core_tick,core],?_,?_⟩
  · rw [profiler_tick]
    exact instructions
  · rw [profiler_tick]
    exact total

end Prices

section Tours
variable {h : Host} {code : List Word} {n k n' k' : Nat} {c d e : Core} {m : Machine}

theorem Tour.append (first : Tour h code n k c d) (rest : Tour h code n' k' d e) : Tour h code (n+n') (k+k') c e := by
  induction first with
  | start =>
    rw [Nat.zero_add,Nat.zero_add]
    exact rest
  | cons p n k price w c d f ready listed retires next _ ih =>
    rw [Nat.succ_add,Nat.add_assoc]
    exact .cons p _ _ price w c d e ready listed retires next (ih rest)

theorem Tour.run (tour : Tour h code n k c d) (same : m.core = c) :
    ∃ m', Reaches (runNext h) (.loop m) (.loop m') ∧ m'.core = d ∧ Billed n k m m' := by
  induction tour generalizing m with
  | start => exact ⟨m,.refl,same,.refl m⟩
  | cons p n k price w c d e ready listed retires next _ ih =>
    subst same
    obtain ⟨m₁,stepped,core,first⟩ := retires.steps ready.plain (ready.fetches listed)
    obtain ⟨m₂,rest,final,billed⟩ := ih core
    refine ⟨m₂,.head (ready.runs stepped) rest,final,?_⟩
    rw [Nat.add_comm n 1]
    exact first.trans billed

theorem Tour.fast (tour : Tour h code n k c d) (same : m.core = c) {c' : FastConfig} (fast : Fast code m c') :
    ∃ m' d', Reaches (fastNext h) c' d' ∧ Fast code m' d' ∧ m'.core = d ∧ Billed n k m m' := by
  induction tour generalizing m c' with
  | start => exact ⟨m,c',.refl,fast,same,.refl m⟩
  | cons p n k price w c d e ready listed retires next _ ih =>
    subst same
    obtain ⟨m₁,replayed,core,first⟩ := retires.replays
    have pc : (⟨w⟩ : Instruction).endsBlock = false → m₁.regs.pc = m.regs.pc+4 := by
      intro goes
      exact (congrArg (fun c => c.regs.pc) core).trans (next goes)
    obtain ⟨d₁,reached,fast⟩ := fast.next ready listed replayed pc
    obtain ⟨m₂,d₂,rest,final,there,billed⟩ := ih core fast
    refine ⟨m₂,d₂,reached.trans rest,final,there,?_⟩
    rw [Nat.add_comm n 1]
    exact first.trans billed

end Tours
section Rules
variable {h : Host} {code : List Word} {p q r n k n' k' : Nat} {P Q R : (Fin numGpr → Word) → Prop}

theorem Triple.seq (first : Triple h code p P n k q Q) (second : Triple h code q Q n' k' r R) : Triple h code p P (n+n') (k+k') r R := by
  intro c ready pre
  obtain ⟨d,there,middle,between⟩ := first c ready pre
  obtain ⟨e,on,final,post⟩ := second d middle between
  exact ⟨e,there.append on,final,post⟩

theorem Triple.pre (triple : Triple h code p Q n k q R) (weaker : ∀ g, P g → Q g) : Triple h code p P n k q R :=
  fun c ready pre => triple c ready (weaker _ pre)

theorem Ready.once {c d : Core} {w : Word} {price : Nat} (ready : Ready code p c) (listed : code[p]? = some w)
    (retires : Retires h ⟨w⟩ price c.advance d) (next : (⟨w⟩ : Instruction).endsBlock = false → d.regs.pc = c.regs.pc+4)
    (after : Ready code q d) (post : Q d.regs.get) : ∃ d, Tour h code 1 price c d ∧ Ready code q d ∧ Q d.regs.get :=
  ⟨d,.cons p 0 0 price w c d d ready listed retires next (.start d),after,post⟩

theorem get_assign (g : RegisterFile) (d : Fin numGpr) (value : Word) : (g.set d value).get = assign g.get d value := by
  funext j
  exact g.get_set d j value

theorem Triple.movi {d : Fin numGpr} {imm : BitVec 16} (listed : code[p]? = some (Enc.movi (Tile.reg d) imm)) :
    Triple h code p (fun g => Q (assign g d (imm.zeroExtend 32))) 1 1 (p+1) Q := by
  intro c ready pre
  have takes := takes_movi (h := h) (i := ⟨Enc.movi (Tile.reg d) imm⟩) (d := d) (c := c.advance) (Enc.itype_opcode ..)
    (by rw [Enc.movi,Enc.itype_rd,Tile.reg_gpr])
  rw [show (⟨Enc.movi (Tile.reg d) imm⟩ : Instruction).imm16 = imm from Enc.itype_imm16 ..] at takes
  have retires := takes.retires .movi 1 (Enc.itype_opcode ..) (by decide) fun _ _ => rfl
  refine ready.once listed retires (fun _ => rfl) (ready.withRegs rfl ready.running) ?_
  rw [get_assign]
  exact pre

theorem Triple.add {d a b : Fin numGpr} (listed : code[p]? = some (Enc.add (Tile.reg d) (Tile.reg a) (Tile.reg b))) :
    Triple h code p (fun g => Q (assign g d (g a+g b))) 1 1 (p+1) Q := by
  intro c ready pre
  have takes := takes_arith (h := h) (i := ⟨Enc.add (Tile.reg d) (Tile.reg a) (Tile.reg b)⟩) (d := d) (a := a) (b := b) (c := c.advance)
    (Enc.rtype_opcode ..) rfl (by rw [Enc.add,Enc.rtype_rd,Tile.reg_gpr]) (by rw [Enc.add,Enc.rtype_ra,Tile.reg_gpr])
    (by rw [Enc.add,Enc.rtype_rb,Tile.reg_gpr])
  have retires := takes.retires .add 1 (Enc.rtype_opcode ..) (by decide) fun _ _ => rfl
  refine ready.once listed retires (fun _ => rfl) (ready.withRegs rfl ready.running) ?_
  have sum : ∀ g : RegisterFile, ∀ v : Word, ((g.set d v).updateFlagsU32 v).get = assign g.get d v := fun g v => get_assign g d v
  rw [sum]
  exact pre

-- A branch that is taken costs one cycle more.
theorem bne_retires (h : Host) (a b : Fin numGpr) (off : BitVec 16) (c : Core) : Retires h ⟨Enc.bne (Tile.reg a) (Tile.reg b) off⟩
    (if c.regs.get a = c.regs.get b then 2 else 3) c {c with regs := {c.regs with
      pc := if c.regs.get a = c.regs.get b then c.regs.pc else c.regs.pc+off.signExtend 32}} := by
  have rd : (⟨Enc.bne (Tile.reg a) (Tile.reg b) off⟩ : Instruction).rd.toNat = a.val := by rw [Enc.bne,Enc.btype_rd,Tile.reg_gpr]
  have ra : (⟨Enc.bne (Tile.reg a) (Tile.reg b) off⟩ : Instruction).ra.toNat = b.val := by rw [Enc.bne,Enc.btype_ra,Tile.reg_gpr]
  have takes := takes_branch (h := h) (c := c) (Enc.btype_opcode ..) rfl rd ra
  rw [Enc.btype_offset] at takes
  have priced : ∀ m : Machine, m.core = c → (m.charge ⟨Enc.bne (Tile.reg a) (Tile.reg b) off⟩ .bne).toNat =
      if c.regs.get a = c.regs.get b then 2 else 3 := by
    intro m same
    subst same
    simp only [Machine.charge,rd,ra,RegisterFile.readGpr_get,Option.some.injEq]
    change (_ + if m.regs.get a = m.regs.get b then (0 : Word) else 1).toNat = if m.regs.get a = m.regs.get b then 2 else 3
    split <;> rfl
  have goes : (if c.regs.get a != c.regs.get b then c.regs.pc+off.signExtend 32 else c.regs.pc) =
      if c.regs.get a = c.regs.get b then c.regs.pc else c.regs.pc+off.signExtend 32 := by
    by_cases same : c.regs.get a = c.regs.get b
    · simp [same]
    · simp [same]
  rw [goes] at takes
  exact takes.retires .bne _ (Enc.btype_opcode ..) (by decide) priced

theorem Triple.bneTaken {a b : Fin numGpr} {off : BitVec 16} (listed : code[p]? = some (Enc.bne (Tile.reg a) (Tile.reg b) off))
    (target : opPc 0 (p+1)+off.signExtend 32 = opPc 0 q) : Triple h code p (fun g => g a ≠ g b ∧ Q g) 1 3 q Q := by
  intro c ready pre
  obtain ⟨differ,post⟩ := pre
  have retires := bne_retires h a b off c.advance
  have differ' : c.advance.regs.get a ≠ c.advance.regs.get b := differ
  rw [if_neg differ',if_neg differ'] at retires
  have there : c.advance.regs.pc+off.signExtend 32 = opPc 0 q := by
    rw [← target,← opPc_next,← ready.pc]
    rfl
  refine ready.once listed retires ?_ (ready.redirected there ready.running) post
  intro ends
  rw [Instruction.endsBlock,Enc.bne,Enc.btype_opcode] at ends
  cases ends

theorem Triple.bneFalls {a b : Fin numGpr} {off : BitVec 16} (listed : code[p]? = some (Enc.bne (Tile.reg a) (Tile.reg b) off)) :
    Triple h code p (fun g => g a = g b ∧ Q g) 1 2 (p+1) Q := by
  intro c ready pre
  obtain ⟨equal,post⟩ := pre
  have retires := bne_retires h a b off c.advance
  have equal' : c.advance.regs.get a = c.advance.regs.get b := equal
  rw [if_pos equal',if_pos equal'] at retires
  exact ready.once listed retires (fun _ => rfl) (ready.withRegs rfl ready.running) post

end Rules

-- What a call that has run into HALT leaves behind, beside the counters it started with.
structure Halted (n k q : Nat) (Q : (Fin numGpr → Word) → Prop) (m m' : Machine) : Prop where
  billed : Billed n k m m'
  halted : m'.regs.halt = true
  pc : m'.regs.pc = opPc 0 q
  regs : Q m'.regs.get

-- A program that comes to its HALT ends both loops, one instruction later and at no further cost.
theorem Triple.halts {h : Host} {code : List Word} {n k q : Nat} {P Q : (Fin numGpr → Word) → Prop} (triple : Triple h code 0 P n k q Q)
    (listed : code[q]? = some Enc.halt) (e : Emulator) (ready : Ready code 0 e.core.core) (faithful : Faithful code e.blockCache)
    (pre : P e.core.regs.get) : (∃ m, Reaches (runNext h) (.loop e.core) (.done m) ∧ Halted (n+1) k (q+1) Q e.core m) ∧
      ∃ e', Reaches (fastNext h) (.loop e) (.done e') ∧ Halted (n+1) k (q+1) Q e.core e'.core := by
  obtain ⟨d,tour,before,post⟩ := triple e.core.core ready pre
  have retires := (takes_halt (h := h) (i := ⟨Enc.halt⟩) (c := d.advance) (Enc.make_opcode ..)).retires .halt 0 (Enc.make_opcode ..)
    (by decide) fun _ _ => rfl
  have whole := tour.append (.cons q 0 0 0 Enc.halt d _ _ before listed retires (fun _ => rfl) (.start _))
  have pc : d.regs.pc+4 = opPc 0 (q+1) := by rw [before.pc,opPc_next]
  have left : ∀ m : Machine, m.core = {d.advance with regs := {d.advance.regs with halt := true}} → Billed (n+1) k e.core m →
      Halted (n+1) k (q+1) Q e.core m.flushUart := by
    intro m core billed
    have regs : m.regs = {d.advance.regs with halt := true} := congrArg Core.regs core
    have halt : m.flushUart.regs = {d.advance.regs with halt := true} := regs
    refine ⟨⟨billed.1,billed.2⟩,?_,?_,?_⟩
    · rw [halt]
    · rw [halt]
      exact pc
    · rw [halt]
      exact post
  refine ⟨?_,?_⟩
  · obtain ⟨m,ran,core,billed⟩ := whole.run rfl
    have halted : m.regs.halt = true := congrArg (fun c => c.regs.halt) core
    exact ⟨m.flushUart,ran.tail (run_halts halted),left m core billed⟩
  · obtain ⟨m,d',ran,fast,core,billed⟩ := whole.fast rfl (.loop faithful)
    have halted : m.regs.halt = true := congrArg (fun c => c.regs.halt) core
    obtain ⟨cache,ends⟩ := fast.halts (h := h) halted
    exact ⟨⟨m.flushUart,cache⟩,ran.trans ends,left m core billed⟩

end Novium
