import Novium.Lowering
import Novium.Retirement

namespace Novium
open Storage Effects TranslationEngine

def gprOf (r : Rv32.Reg) : Fin numGpr := ⟨r.toNat%numGpr,Nat.mod_lt _ (by decide)⟩

theorem host_gprOf : ∀ r : Rv32.Reg, ((host r).truncate 5).toNat = (gprOf r).val := by decide

theorem gprOf_zero : ∀ r : Rv32.Reg, r.toNat ≤ 14 → (gprOf r = 0 ↔ r = 0) := by decide

theorem gprOf_scratch : ∀ r : Rv32.Reg, r.toNat ≤ 14 → gprOf r ≠ 15 := by decide

theorem gprOf_inj : ∀ r s : Rv32.Reg, r.toNat ≤ 14 → s.toNat ≤ 14 → (gprOf r = gprOf s ↔ r = s) := by decide

-- The straight-line subset: x0 to x14, and ADDI with an immediate that is not negative.
def Straight : Rv32.Instr → Prop
  | .add rd rs1 rs2 | .sub rd rs1 rs2 | .mul rd rs1 rs2 => rd.toNat ≤ 14 ∧ rs1.toNat ≤ 14 ∧ rs2.toNat ≤ 14
  | .addi rd rs1 imm => rd.toNat ≤ 14 ∧ rs1.toNat ≤ 14 ∧ imm.toNat ≤ 2047
  | .lw rd rs1 _ => rd.toNat ≤ 14 ∧ rs1.toNat ≤ 14
  | .sw rs2 rs1 _ => rs2.toNat ≤ 14 ∧ rs1.toNat ≤ 14
  | .beq _ _ _ | .bne _ _ _ | .jal _ _ => False

-- An access inside the scratchpad, below the devices and clear of the code.
structure Clear (size base bytes : Nat) (a : Word) : Prop where
  below : a < mmioBase
  inside : a.toNat+4 ≤ size
  apart : a.toNat+4 ≤ base ∨ base+bytes ≤ a.toNat

def Confined (size base bytes : Nat) : List Rv32.Instr → Rv32.Hart → Prop
  | [],_ => True
  | i :: rest,g => (∀ a, i.address g = some a → Clear size base bytes a) ∧ Confined size base bytes rest (g.exec i)

-- The guest's registers x0 to x14 are in r0 to r14 and its memory is the scratchpad
-- around the code, which is as it was loaded.
structure Mirrors (pad : ByteStore) (base bytes : Nat) (g : Rv32.Hart) (c : Core) : Prop where
  plain : c.Plain
  bursts : c.Bursts
  running : c.regs.halt = false
  regs : ∀ r : Rv32.Reg, r.toNat ≤ 14 → c.regs.get (gprOf r) = g.get r
  size : c.scratchpad.size = pad.size
  code : ∀ a, base ≤ a → a < base+bytes → c.scratchpad.byte a = pad.byte a
  data : ∀ a : Word, a.toNat < pad.size → a.toNat < base ∨ base+bytes ≤ a.toNat → c.scratchpad.byte a.toNat = g.mem a

theorem sext_twice (imm : BitVec 12) : (imm.signExtend 16).signExtend 32 = imm.signExtend 32 := by
  apply BitVec.eq_of_toInt_eq
  rw [BitVec.toInt_signExtend_of_le (by decide),BitVec.toInt_signExtend_of_le (by decide),BitVec.toInt_signExtend_of_le (by decide)]

-- MOVI extends with zeros what the format extends with the sign.
theorem movi_immediate (imm : BitVec 12) : (imm.signExtend 16).zeroExtend 32 = imm.signExtend 32 ↔ imm.msb = false := by
  constructor
  · intro same
    have top := congrArg (fun v : Word => v.getLsbD 31) same
    simpa [BitVec.getElem_signExtend] using top.symm
  · intro plain
    rw [BitVec.signExtend_eq_setWidth_of_msb_false plain,BitVec.signExtend_eq_setWidth_of_msb_false plain]
    exact BitVec.setWidth_setWidth (by decide)

section Registers
variable {r : RegisterFile} {g : Rv32.Hart} {rd : Rv32.Reg} {value pc : Word}

theorem set_mirrors (regs : ∀ s : Rv32.Reg, s.toNat ≤ 14 → r.get (gprOf s) = g.get s) (bound : rd.toNat ≤ 14)
    (s : Rv32.Reg) (named : s.toNat ≤ 14) : (r.set (gprOf rd) value).get (gprOf s) = ((g.set rd value).goto pc).get s := by
  rw [RegisterFile.get_set]
  unfold Rv32.Hart.goto Rv32.Hart.set Rv32.Hart.get
  by_cases zero : s = 0
  · rw [if_pos ((gprOf_zero s named).mpr zero),if_pos zero]
  · rw [if_neg (fun same => zero ((gprOf_zero s named).mp same)),if_neg zero]
    dsimp only
    by_cases same : s = rd
    · rw [if_pos ((gprOf_inj s rd named bound).mpr same),if_pos same]
    · rw [if_neg (fun equal => same ((gprOf_inj s rd named bound).mp equal)),if_neg same,regs s named]
      unfold Rv32.Hart.get
      rw [if_neg zero]

theorem scratch_mirrors (regs : ∀ s : Rv32.Reg, s.toNat ≤ 14 → r.get (gprOf s) = g.get s) (s : Rv32.Reg)
    (named : s.toNat ≤ 14) : (r.set 15 value).get (gprOf s) = g.get s := by
  have mirrored := regs s named
  rw [RegisterFile.get_set,if_neg (gprOf_scratch s named),mirrored]
  split
  · rename_i zero
    unfold Rv32.Hart.get
    rw [if_pos ((gprOf_zero s named).mp zero)]
  · rfl

end Registers

section Memory
variable {pad : ByteStore} {base bytes : Nat} {g : Rv32.Hart} {c : Core} {a : Word}

theorem Clear.offset (clear : Clear pad.size base bytes a) {k : Nat} (small : k < 4) : (a+BitVec.ofNat 32 k).toNat = a.toNat+k := by
  have below : a.toNat < mmioBase.toNat := clear.below
  have limit : mmioBase.toNat+4 < 2^32 := by decide
  rw [BitVec.toNat_add,BitVec.toNat_ofNat,Nat.mod_eq_of_lt (by omega : k < 2^32),Nat.mod_eq_of_lt (by omega)]

theorem Clear.byte (clear : Clear pad.size base bytes a) (mirrors : Mirrors pad base bytes g c) {k : Nat} (small : k < 4) :
    c.scratchpad.byte (a.toNat+k) = g.mem (a+BitVec.ofNat 32 k) := by
  have inside := clear.inside
  have apart := clear.apart
  have here := mirrors.data (a+BitVec.ofNat 32 k) (by rw [clear.offset small]; omega) (by rw [clear.offset small]; omega)
  rwa [clear.offset small] at here

theorem Clear.load (clear : Clear pad.size base bytes a) (mirrors : Mirrors pad base bytes g c) :
    c.scratchpad.word a.toNat = g.load a := by
  have zero := clear.byte mirrors (by decide : 0 < 4)
  have one := clear.byte mirrors (by decide : 1 < 4)
  have two := clear.byte mirrors (by decide : 2 < 4)
  have three := clear.byte mirrors (by decide : 3 < 4)
  rw [Nat.add_zero,BitVec.add_zero] at zero
  unfold ByteStore.word Rv32.Hart.load
  rw [zero,one,two,three]
  rfl

theorem Clear.stored (clear : Clear pad.size base bytes a) (value b : Word) (s : ByteStore)
    (same : s.byte b.toNat = g.mem b) : (s.write a.toNat (wordBytes value)).byte b.toNat = (g.store a value).mem b := by
  have placed : ∀ k < 4, (b = a+BitVec.ofNat 32 k ↔ b.toNat = a.toNat+k) := by
    intro k small
    rw [← clear.offset small]
    exact BitVec.toNat_inj.symm
  have first : b = a ↔ b.toNat = a.toNat := BitVec.toNat_inj.symm
  have second : b = a+1 ↔ b.toNat = a.toNat+1 := placed 1 (by decide)
  have third : b = a+2 ↔ b.toNat = a.toNat+2 := placed 2 (by decide)
  have fourth : b = a+3 ↔ b.toNat = a.toNat+3 := placed 3 (by decide)
  unfold Rv32.Hart.store
  dsimp only
  by_cases inside : a.toNat ≤ b.toNat ∧ b.toNat < a.toNat+4
  · obtain ⟨k,place⟩ := Nat.exists_eq_add_of_le inside.1
    rw [place]
    have small : k < 4 := by omega
    interval_cases k
    · rw [if_pos (first.mpr place)]
      exact s.write_within a.toNat rfl
    · rw [if_neg (by rw [first]; omega),if_pos (second.mpr place)]
      exact s.write_within a.toNat rfl
    · rw [if_neg (by rw [first]; omega),if_neg (by rw [second]; omega),if_pos (third.mpr place)]
      exact s.write_within a.toNat rfl
    · rw [if_neg (by rw [first]; omega),if_neg (by rw [second]; omega),if_neg (by rw [third]; omega),if_pos (fourth.mpr place)]
      exact s.write_within a.toNat rfl
  · have outside : b.toNat < a.toNat ∨ a.toNat+(wordBytes value).length ≤ b.toNat := by
      have length : (wordBytes value).length = 4 := rfl
      omega
    rw [if_neg (by rw [first]; omega),if_neg (by rw [second]; omega),if_neg (by rw [third]; omega),if_neg (by rw [fourth]; omega),
      s.write_outside a.toNat _ _ outside,same]

end Memory

section Programs
variable {h : Host} {pad : ByteStore} {base : Nat} {code : List Word} {g : Rv32.Hart} {c : Core} {p : Nat}

-- The host stands before the p-th word of the code.
def Core.at (c : Core) (base p : Nat) : Prop := c.regs.pc.toNat = base+4*p

theorem Loaded.fetches (loaded : Loaded base code pad) (mirrors : Mirrors pad base (4*code.length) g c) (here : c.at base p)
    {w : Word} (listed : code[p]? = some w) : c.Fetches ⟨w⟩ := by
  have inside := loaded.inside
  have below := loaded.below
  have short : p < code.length := (List.getElem?_eq_some_iff.mp listed).1
  unfold Core.at at here
  refine ⟨mirrors.running,?_,?_,?_⟩
  · exact BitVec.lt_def.mpr (by rw [here]; omega)
  · rw [here,mirrors.size]
    omega
  · rw [here,← loaded.words p w listed]
    apply ByteStore.word_congr
    intro k small
    exact mirrors.code _ (by omega) (by omega)

theorem Core.at_next (loaded : Loaded base code pad) (here : c.at base p) (short : p < code.length) : c.advance.at base (p+1) := by
  have below := loaded.below
  have limit : mmioBase.toNat+4 < 2^32 := by decide
  unfold Core.at at here ⊢
  unfold Core.advance
  dsimp only
  rw [BitVec.toNat_add,here]
  change (base+4*p+4)%2^32 = _
  rw [Nat.mod_eq_of_lt (by omega)]
  omega

theorem Loaded.steps (loaded : Loaded base code pad) (mirrors : Mirrors pad base (4*code.length) g c) (here : c.at base p)
    {w : Word} {c' : Core} (listed : code[p]? = some w) (takes : Takes h ⟨w⟩ c.advance c') : Steps h c c' :=
  takes.steps mirrors.plain (loaded.fetches mirrors here listed)

theorem Mirrors.withRegs {bytes : Nat} {g' : Rv32.Hart} {r : RegisterFile} (mirrors : Mirrors pad base bytes g c)
    (running : r.halt = false) (regs : ∀ s : Rv32.Reg, s.toNat ≤ 14 → r.get (gprOf s) = g'.get s) (mem : g'.mem = g.mem) :
    Mirrors pad base bytes g' {c with regs := r} :=
  ⟨⟨mirrors.plain.1,mirrors.plain.2⟩,mirrors.bursts,running,regs,mirrors.size,mirrors.code,by rw [mem]; exact mirrors.data⟩

theorem Mirrors.address {bytes : Nat} (mirrors : Mirrors pad base bytes g c) {op : Opcode} {data : BitVec 8} {rs1 : Rv32.Reg}
    {imm : BitVec 12} (named : rs1.toNat ≤ 14) :
    c.advance.regs.get (gprOf rs1)+(⟨Enc.itype op data (host rs1) (imm.signExtend 16)⟩ : Instruction).simm16 =
      g.get rs1+imm.signExtend 32 := by
  rw [Enc.itype_simm16,sext_twice]
  exact congrArg (· + imm.signExtend 32) (mirrors.regs rs1 named)

def Placed (code : List Word) (p : Nat) (piece : List Word) : Prop := ∀ k w, piece[k]? = some w → code[p+k]? = some w

-- What the translation of one guest instruction owes.
def Follows (h : Host) (pad : ByteStore) (base : Nat) (code : List Word) (g : Rv32.Hart) (c : Core) (p n : Nat) : Prop :=
  ∃ c', Trail h n c c' ∧ Mirrors pad base (4*code.length) g c' ∧ c'.at base (p+n)

section Instructions
variable (loaded : Loaded base code pad) (mirrors : Mirrors pad base (4*code.length) g c) (here : c.at base p)
include loaded mirrors here

theorem arith_follows {op : Opcode} {f : Word → Word → Word} {overflow : Word → Word → Word → Bool} {rd rs1 : Rv32.Reg}
    {rb : BitVec 8} {b : Fin numGpr} {value t : Word} (placed : code[p]? = some (Enc.rtype op (host rd) (host rs1) rb 0))
    (dispatched : ∀ i, handler h op i = onRegs (Handlers.arith op f overflow i)) (bound : rd.toNat ≤ 14)
    (named : rs1.toNat ≤ 14) (names : (rb.truncate 5).toNat = b.val) (second : c.regs.get b = value) :
    Follows h pad base code ((g.set rd (f (g.get rs1) value)).goto t) c p 1 := by
  have next := Core.at_next loaded here (List.getElem?_eq_some_iff.mp placed).1
  have takes := takes_arith (i := ⟨Enc.rtype op (host rd) (host rs1) rb 0⟩) (d := gprOf rd) (a := gprOf rs1) (b := b) (c := c.advance)
    (Enc.rtype_opcode op _ _ _ _) (dispatched _) (by rw [Enc.rtype_rd,host_gprOf]) (by rw [Enc.rtype_ra,host_gprOf])
    (by rw [Enc.rtype_rb,names])
  refine ⟨_,.cons (loaded.steps mirrors here placed takes) (.start _),?_,next⟩
  have left : c.advance.regs.get (gprOf rs1) = g.get rs1 := mirrors.regs rs1 named
  have right : c.advance.regs.get b = value := second
  rw [left,right]
  exact mirrors.withRegs mirrors.running (set_mirrors mirrors.regs bound) rfl

theorem addi_follows {rd rs1 : Rv32.Reg} {imm : BitVec 12} (placed : Placed code p (lower (.addi rd rs1 imm)))
    (bound : rd.toNat ≤ 14) (named : rs1.toNat ≤ 14) (small : imm.toNat ≤ 2047) :
    Follows h pad base code (g.exec (.addi rd rs1 imm)) c p 2 := by
  have first := placed 0 _ rfl
  have second := placed 1 _ rfl
  have next := Core.at_next loaded here (List.getElem?_eq_some_iff.mp first).1
  have positive : imm.msb = false := by
    rw [BitVec.msb_eq_decide]
    exact decide_eq_false (by omega)
  have value := (movi_immediate imm).mpr positive
  have movi := takes_movi (h := h) (i := ⟨Enc.movi 15 (imm.signExtend 16)⟩) (d := 15) (c := c.advance)
    (Enc.itype_opcode ..) (by rw [Enc.movi,Enc.itype_rd]; rfl)
  rw [Enc.movi,Enc.itype_imm16,value] at movi
  have between : Mirrors pad base (4*code.length) g {c.advance with regs := c.advance.regs.set 15 (imm.signExtend 32)} :=
    mirrors.withRegs mirrors.running (scratch_mirrors mirrors.regs) rfl
  obtain ⟨c',trail,after,there⟩ := arith_follows (h := h) (f := (· + ·)) (t := g.pc+4) loaded between next second (fun _ => rfl)
    bound named (b := 15) rfl (RegisterFile.get_set ..)
  exact ⟨c',.cons (loaded.steps mirrors here first movi) trail,after,there⟩

theorem lw_follows {rd rs1 : Rv32.Reg} {imm : BitVec 12} (placed : Placed code p (lower (.lw rd rs1 imm)))
    (bound : rd.toNat ≤ 14) (named : rs1.toNat ≤ 14) (clear : Clear pad.size base (4*code.length) (g.get rs1+imm.signExtend 32)) :
    Follows h pad base code (g.exec (.lw rd rs1 imm)) c p 1 := by
  have listed := placed 0 _ rfl
  have next := Core.at_next loaded here (List.getElem?_eq_some_iff.mp listed).1
  have takes := takes_load (h := h) (i := ⟨Enc.load (host rd) (host rs1) (imm.signExtend 16)⟩) (d := gprOf rd) (a := gprOf rs1)
    (c := c.advance) mirrors.plain.untranslated mirrors.bursts (Enc.itype_opcode ..)
    (by rw [Enc.load,Enc.itype_rd,host_gprOf]) (by rw [Enc.load,Enc.itype_ra,host_gprOf]) (mirrors.address named) clear.below
    (by rw [show c.advance.scratchpad.size = pad.size from mirrors.size]; exact clear.inside)
  have word := clear.load mirrors
  rw [show c.advance.scratchpad = c.scratchpad from rfl,word] at takes
  exact ⟨_,.cons (loaded.steps mirrors here listed takes) (.start _),
    mirrors.withRegs mirrors.running (set_mirrors mirrors.regs bound) rfl,next⟩

theorem sw_follows {rs2 rs1 : Rv32.Reg} {imm : BitVec 12} (placed : Placed code p (lower (.sw rs2 rs1 imm)))
    (source : rs2.toNat ≤ 14) (named : rs1.toNat ≤ 14) (clear : Clear pad.size base (4*code.length) (g.get rs1+imm.signExtend 32)) :
    Follows h pad base code (g.exec (.sw rs2 rs1 imm)) c p 1 := by
  have listed := placed 0 _ rfl
  have next := Core.at_next loaded here (List.getElem?_eq_some_iff.mp listed).1
  have takes := takes_store (h := h) (i := ⟨Enc.store (host rs2) (host rs1) (imm.signExtend 16)⟩) (s := gprOf rs2) (a := gprOf rs1)
    (c := c.advance) mirrors.plain.untranslated mirrors.bursts (Enc.itype_opcode ..)
    (by rw [Enc.store,Enc.itype_rd,host_gprOf]) (by rw [Enc.store,Enc.itype_ra,host_gprOf]) (mirrors.address named) clear.below
    (by rw [show c.advance.scratchpad.size = pad.size from mirrors.size]; exact clear.inside)
  rw [show c.advance.regs.get (gprOf rs2) = g.get rs2 from mirrors.regs rs2 source] at takes
  refine ⟨_,.cons (loaded.steps mirrors here listed takes) (.start _),?_,next⟩
  refine ⟨⟨mirrors.plain.1,mirrors.plain.2⟩,mirrors.bursts,mirrors.running,mirrors.regs,mirrors.size,?_,?_⟩
  · intro a low high
    have apart := clear.apart
    refine (c.scratchpad.write_outside _ _ a ?_).trans (mirrors.code a low high)
    have length : (wordBytes (g.get rs2)).length = 4 := rfl
    omega
  · intro a inside apart
    exact clear.stored (g.get rs2) a c.scratchpad (mirrors.data a inside apart)

theorem instruction_follows {i : Rv32.Instr} (placed : Placed code p (lower i)) (straight : Straight i)
    (clear : ∀ a, i.address g = some a → Clear pad.size base (4*code.length) a) :
    Follows h pad base code (g.exec i) c p (lower i).length := by
  cases i with
  | add rd rs1 rs2 =>
    obtain ⟨bound,left,right⟩ := straight
    exact arith_follows (f := (· + ·)) loaded mirrors here (placed 0 _ rfl) (fun _ => rfl) bound left (host_gprOf rs2) (mirrors.regs rs2 right)
  | sub rd rs1 rs2 =>
    obtain ⟨bound,left,right⟩ := straight
    exact arith_follows (f := (· - ·)) loaded mirrors here (placed 0 _ rfl) (fun _ => rfl) bound left (host_gprOf rs2) (mirrors.regs rs2 right)
  | mul rd rs1 rs2 =>
    obtain ⟨bound,left,right⟩ := straight
    exact arith_follows (f := (· * ·)) loaded mirrors here (placed 0 _ rfl) (fun _ => rfl) bound left (host_gprOf rs2) (mirrors.regs rs2 right)
  | addi rd rs1 imm =>
    obtain ⟨bound,named,small⟩ := straight
    exact addi_follows loaded mirrors here placed bound named small
  | lw rd rs1 imm =>
    obtain ⟨bound,named⟩ := straight
    exact lw_follows loaded mirrors here placed bound named (clear _ rfl)
  | sw rs2 rs1 imm =>
    obtain ⟨source,named⟩ := straight
    exact sw_follows loaded mirrors here placed source named (clear _ rfl)
  | beq => exact straight.elim
  | bne => exact straight.elim
  | jal => exact straight.elim

end Instructions

-- The induction is on the guest instructions to come; the host stands before the
-- words they were lowered to.
theorem program_follows {program : List Rv32.Instr} (loaded : Loaded base code pad)
    (mirrors : Mirrors pad base (4*code.length) g c) (here : c.at base p) (placed : Placed code p (program.flatMap lower))
    (straight : ∀ i ∈ program, Straight i) (confined : Confined pad.size base (4*code.length) program g) :
    Follows h pad base code (g.run program) c p (program.flatMap lower).length := by
  induction program generalizing g c p with
  | nil => exact ⟨c,.start c,mirrors,here⟩
  | cons i rest ih =>
    obtain ⟨clear,confined⟩ := confined
    rw [List.flatMap_cons] at placed ⊢
    have first : Placed code p (lower i) := by
      intro k w listed
      apply placed k w
      rw [List.getElem?_append_left (List.getElem?_eq_some_iff.mp listed).1]
      exact listed
    have others : Placed code (p+(lower i).length) (rest.flatMap lower) := by
      intro k w listed
      have found := placed ((lower i).length+k) w (by
        rw [List.getElem?_append_right (Nat.le_add_right _ k),Nat.add_sub_cancel_left]
        exact listed)
      rwa [← Nat.add_assoc] at found
    obtain ⟨d,trail,after,there⟩ := instruction_follows (h := h) loaded mirrors here first (straight i (List.mem_cons_self ..)) clear
    obtain ⟨c',more,final,finish⟩ := ih after there others (fun j member => straight j (List.mem_cons_of_mem i member)) confined
    rw [List.length_append]
    refine ⟨c',trail.append more,final,?_⟩
    rwa [← Nat.add_assoc]

end Programs

theorem loaded_programmed (code : List Word) (fits : 4*code.length ≤ 512) :
    Loaded 0 code (Emulator.programmed code).core.scratchpad where
  inside := by
    rw [Nat.zero_add]
    exact fits
  below := by
    have limit : 512 ≤ mmioBase.toNat := by decide
    omega
  words _ _ listed := word_written _ 0 listed

-- The host is about to run the code, and its registers and memory are the guest's.
structure Hosts (base : Nat) (code : List Word) (g : Rv32.Hart) (m : Machine) : Prop where
  loaded : Loaded base code m.scratchpad
  pc : m.regs.pc.toNat = base
  running : m.regs.halt = false
  untranslated : m.mmu.enabled = false
  undeliverable : m.csr.mstatusMie = false ∨ m.csr.read csrMie = 0
  bursts : m.axi.cfg.dataWidth*m.axi.cfg.burstLen ≠ 0
  regs : ∀ r : Rv32.Reg, r.toNat ≤ 14 → m.regs.readGpr r.toNat = some (g.get r)
  data : ∀ a : Word, a.toNat < m.scratchpad.size → a.toNat < base ∨ base+4*code.length ≤ a.toNat →
    m.scratchpad.byte a.toNat = g.mem a

theorem readGpr_gprOf {m : Machine} {r : Rv32.Reg} (named : r.toNat ≤ 14) : m.regs.readGpr r.toNat = some (m.regs.get (gprOf r)) := by
  have index : (gprOf r).val = r.toNat := Nat.mod_eq_of_lt (by change r.toNat < 16; omega)
  rw [← index]
  exact m.regs.readGpr_get (gprOf r)

theorem Hosts.mirrors {base : Nat} {code : List Word} {g : Rv32.Hart} {m : Machine} (hosts : Hosts base code g m) :
    Mirrors m.scratchpad base (4*code.length) g m.core where
  plain := ⟨hosts.untranslated,hosts.undeliverable⟩
  bursts := hosts.bursts
  running := hosts.running
  regs r named := by
    have read := hosts.regs r named
    rw [readGpr_gprOf named] at read
    exact Option.some.inj read
  size := rfl
  code _ _ _ := rfl
  data := hosts.data

theorem lowered_decoded {words : List Word} {program : List Rv32.Instr} (decoded : words.map Rv32.decode = program.map some) :
    words.flatMap lowered = program.flatMap lower := by
  induction words generalizing program with
  | nil =>
    cases program with
    | nil => rfl
    | cons i rest => cases decoded
  | cons w words ih =>
    cases program with
    | nil => cases decoded
    | cons i rest =>
      rw [List.map_cons,List.map_cons,List.cons.injEq] at decoded
      rw [List.flatMap_cons,List.flatMap_cons,ih decoded.2,lowered,translateOneRiscv_decoded decoded.1]
      rfl

-- As many calls of `step` as words were emitted leave the guest's registers in r0 to
-- r14 and its memory around the code.
theorem straight_line_preserved (h : Host) (words : List Word) (program : List Rv32.Instr)
    (decoded : words.map Rv32.decode = program.map some) (straight : ∀ i ∈ program, Straight i)
    (base : Nat) (g : Rv32.Hart) (m : Machine)
    (hosts : Hosts base (translateBytes .riscv64 (words.flatMap wordBytes)).1 g m)
    (confined : Confined m.scratchpad.size base (4*(translateBytes .riscv64 (words.flatMap wordBytes)).1.length) program g) :
    let emitted := (translateBytes .riscv64 (words.flatMap wordBytes)).1
    ∃ m', Exec.calls (step h) emitted.length m = .ok (List.replicate emitted.length none) m' ∧
      (∀ r : Rv32.Reg, r.toNat ≤ 14 → m'.regs.readGpr r.toNat = some ((g.run program).get r)) ∧
      ∀ a : Word, a.toNat < m.scratchpad.size → a.toNat < base ∨ base+4*emitted.length ≤ a.toNat →
        m'.scratchpad.byte a.toNat = (g.run program).mem a := by
  have lowering : (translateBytes .riscv64 (words.flatMap wordBytes)).1 = program.flatMap lower := by
    rw [translateBytes_riscv,lowered_decoded decoded]
  rw [lowering] at hosts confined ⊢
  have whole : Placed (program.flatMap lower) 0 (program.flatMap lower) := by
    intro k w listed
    rwa [Nat.zero_add]
  obtain ⟨c',trail,final,_⟩ := program_follows (h := h) (p := 0) hosts.loaded hosts.mirrors hosts.pc whole straight confined
  obtain ⟨m',ran,core⟩ := trail.calls rfl
  subst core
  refine ⟨m',ran,?_,final.data⟩
  intro r named
  rw [readGpr_gprOf named]
  exact congrArg some (final.regs r named)

-- ADDI x1,x0,5; MUL x2,x1,x1; SW x2,64(x0); LW x3,64(x0), on a machine and a hart with clear registers.
def storesSquare : List Word := [0x00500093,0x02108133,0x04202023,0x04002183]

theorem straight_line_preserved_square : ∃ m', Exec.calls (step (.ieee .scalar)) 5
      (Emulator.programmed (translateBytes .riscv64 (storesSquare.flatMap wordBytes)).1).core = .ok (List.replicate 5 none) m' ∧
    m'.regs.readGpr 3 = some 25 := by
  have silent : ∀ a, (none : Option Word) = some a → Clear 512 0 20 a := by
    intro a impossible
    cases impossible
  have clear : ∀ a, some (64 : Word) = some a → Clear 512 0 20 a := by
    intro a found
    cases found
    exact ⟨by decide,by decide,by decide⟩
  have ran := straight_line_preserved (.ieee .scalar) storesSquare
    [.addi 1 0 5,.mul 2 1 1,.sw 2 0 64,.lw 3 0 64] (by decide) (by simp [Straight]) 0
    ⟨fun _ => 0,0,fun a => (Emulator.programmed (translateBytes .riscv64 (storesSquare.flatMap wordBytes)).1).core.scratchpad.byte a.toNat⟩
    (Emulator.programmed (translateBytes .riscv64 (storesSquare.flatMap wordBytes)).1).core
    ⟨loaded_programmed _ (by decide),rfl,rfl,rfl,.inl (by decide),by decide,by decide,fun _ _ _ => rfl⟩
    ⟨silent,silent,clear,clear,trivial⟩
  obtain ⟨m',calls,regs,_⟩ := ran
  exact ⟨m',calls,(regs 3 (by decide)).trans (by decide)⟩

end Novium
